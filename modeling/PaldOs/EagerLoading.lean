import PaldOs.PagingTransparency

/-! # Loading a program at once, and page by page

Without `DEMAND_LOADING` the constructor of `AddressSpace` takes a frame for every page, clears
them, and copies the code and the initialised data byte by byte, each through the page table.  With
it, `LoadPage` fills a frame with one page when that is first needed, by formulas of its own for the
parts of the page.  `demand_eq_eager` says that the bytes are the same.

The number of frames is not fixed: the two builds have different ones.
-/
namespace PaldOs
namespace EagerLoading
open Vm

/-! ## Reading the executable -/

/-- `ReadCodeBlock`, into the memory from address `dest` on; `none` is a failed assertion. -/
def readCodeBlock (exe : Executable) (mem : ℕ → UInt8) (dest size offset : ℕ) :
    Option (ℕ → UInt8) :=
  if size ≠ 0 ∧ offset < exe.code.size then
    some (exe.file.readAt mem dest size ((exe.code.inFileAddr + offset) % 2 ^ 32))
  else none

/-- `ReadDataBlock`. -/
def readDataBlock (exe : Executable) (mem : ℕ → UInt8) (dest size offset : ℕ) :
    Option (ℕ → UInt8) :=
  if size ≠ 0 ∧ offset < exe.initData.size then
    some (exe.file.readAt mem dest size ((exe.initData.inFileAddr + offset) % 2 ^ 32))
  else none

/-- The part of `LoadPage` that reads the executable, in 32-bit arithmetic and with the assertions
of the functions it calls. -/
def readPage (s : AddressSpace) (cleared : ℕ → UInt8)
    (physicalAddressToWrite vpnAddressToRead : ℕ) : Option (ℕ → UInt8) := do
  let hasCode := 0 < s.codeSize ∧ vpnAddressToRead < s.codeSize
  let read := if hasCode then
      if s.codeSize - vpnAddressToRead < pageSize then s.codeSize - vpnAddressToRead else pageSize
    else 0
  let mem ←
    if hasCode then
      readCodeBlock s.exeFile cleared physicalAddressToWrite pageSize vpnAddressToRead
    else some cleared
  let dataEnd := (s.dataVirtualAddr + s.initDataSize) % 2 ^ 32
  if 0 < s.initDataSize ∧ vpnAddressToRead + read < dataEnd ∧ read ≠ pageSize then
    let toRead :=
      if dataEnd - (vpnAddressToRead + read) < pageSize - read then
        dataEnd - (vpnAddressToRead + read)
      else pageSize - read
    if read ≠ 0 then
      readDataBlock s.exeFile mem (physicalAddressToWrite + read) toRead 0
    else
      readDataBlock s.exeFile mem physicalAddressToWrite toRead (vpnAddressToRead - s.codeSize)
  else return mem

/-! ## The constructor without demand loading -/

/-- `Bitmap::Find`. -/
def find (numFrames : ℕ) (bits : ℕ → Bool) : Option ℕ :=
  (List.range numFrames).find? (fun f => !bits f)

/-- `Bitmap::CountClear`. -/
def countClear (numFrames : ℕ) (bits : ℕ → Bool) : ℕ :=
  (List.range numFrames).countP (fun f => !bits f)

/-- The loop that takes a frame for each page. -/
def takeFrames (numFrames : ℕ) : ℕ → (ℕ → Bool) → Option (List ℕ)
  | 0, _ => some []
  | n + 1, bits => do
      let f ← find numFrames bits
      let frames ← takeFrames numFrames n (Function.update bits f true)
      return f :: frames

/-- The loop that clears the pages. -/
def clearPages (frames : List ℕ) (mem : ℕ → UInt8) : ℕ → UInt8 :=
  frames.foldl (fun mem f => blit mem (f * pageSize) pageSize (fun _ => 0)) mem

/-- The loop that copies a segment, from byte `i` on, through `pageTable`. -/
def copySegment (readBlock : (ℕ → UInt8) → ℕ → ℕ → ℕ → Option (ℕ → UInt8)) (pageTable : List ℕ)
    (virtualAddr : ℕ) : ℕ → ℕ → (ℕ → UInt8) → Option (ℕ → UInt8)
  | 0, _, mem => some mem
  | n + 1, i, mem => do
      let address := (virtualAddr + i) % 2 ^ 32
      let physicalPage ← pageTable[address / pageSize]?
      let mem ← readBlock mem (physicalPage * pageSize + address % pageSize) 1 i
      copySegment readBlock pageTable virtualAddr n (i + 1) mem

/-- **The constructor of `AddressSpace` without `DEMAND_LOADING`**: the frames of the pages, and
main memory. -/
def construct (numFrames : ℕ) (bits : ℕ → Bool) (mainMemory : ℕ → UInt8) (exe : Executable) :
    Option (List ℕ × (ℕ → UInt8)) := do
  let numPages := divRoundUp ((exe.getSize + userStackSize) % 2 ^ 32) pageSize
  if numPages ≤ countClear numFrames bits then
    let pageTable ← takeFrames numFrames numPages bits
    let mem := clearPages pageTable mainMemory
    let mem ← copySegment (readCodeBlock exe) pageTable exe.code.virtualAddr exe.code.size 0 mem
    let mem ←
      copySegment (readDataBlock exe) pageTable exe.initData.virtualAddr exe.initData.size 0 mem
    return (pageTable, mem)
  else none

/-! ## The formulas of `LoadPage` -/

section Formulas
variable {s : AddressSpace} {mem : ℕ → UInt8} {base A : ℕ}

theorem ite_lt_eq_min (a b : ℕ) : (if a < b then a else b) = min a b := by
  rw [Nat.min_def]
  split <;> split <;> omega

/-- **`LoadPage` fails no assertion**, and nothing wraps around. -/
theorem readPage_eq (hs : Constructed s) :
    readPage s mem base A = some (readExecutable s mem base A) := by
  obtain ⟨hl, hcs, hds, hdv⟩ := hs
  have hfits := hl.fits
  have hsize : pageSize = 128 := rfl
  have hend : s.initDataSize ≠ 0 → (s.dataVirtualAddr + s.initDataSize) % 2 ^ 32 =
      s.exeFile.code.size + s.exeFile.initData.size := by
    intro hd
    have h1 := hl.data_next (by omega)
    have h2 := hl.data_end (by omega)
    by_cases hc : 0 < s.exeFile.code.size
    · have h3 := hl.code_end hc
      omega
    · omega
  have hdata : 0 < s.initDataSize →
      s.dataVirtualAddr + s.initDataSize = s.exeFile.code.size + s.exeFile.initData.size := by
    intro hd
    have := hl.data_next (by omega)
    omega
  have hcode : 0 < s.codeSize ∧ A < s.codeSize → readCodeBlock s.exeFile mem base pageSize A =
      some (s.exeFile.file.readAt mem base pageSize (s.exeFile.code.inFileAddr + A)) := by
    intro hc
    have := hl.code_end (by omega)
    rw [readCodeBlock, if_pos ⟨by decide, by omega⟩, Nat.mod_eq_of_lt (by omega)]
  have hblock : ∀ mem dest size offset, 0 < s.initDataSize → 0 < size → offset < s.initDataSize →
      readDataBlock s.exeFile mem dest size offset =
        some (s.exeFile.file.readAt mem dest size (s.exeFile.initData.inFileAddr + offset)) := by
    intro mem dest size offset hd hsz ho
    have := hl.data_end (by omega)
    rw [readDataBlock, if_pos ⟨by omega, by omega⟩, Nat.mod_eq_of_lt (by omega)]
  unfold readPage readExecutable
  simp only [ite_lt_eq_min, Option.bind_eq_bind]
  by_cases hc : 0 < s.codeSize ∧ A < s.codeSize
  · simp only [if_pos hc]
    rw [hcode hc, Option.bind_some]
    by_cases hd : 0 < s.initDataSize
    · rw [hend (by omega), hdata hd]
      split
      · rename_i hcond
        have hread : min (s.codeSize - A) pageSize ≠ 0 := by omega
        rw [if_pos hread, if_pos hread, hblock _ _ _ _ hd (by omega) hd, Nat.add_zero]
      · rfl
    · rw [if_neg fun hcond => hd hcond.1, if_neg fun hcond => hd hcond.1]
      rfl
  · simp only [if_neg hc]
    rw [Option.bind_some]
    by_cases hd : 0 < s.initDataSize
    · rw [hend (by omega), hdata hd]
      split
      · rename_i hcond
        rw [if_neg (by omega), if_neg (by omega), hblock _ _ _ _ hd (by omega) (by omega)]
      · rfl
    · rw [if_neg fun hcond => hd hcond.1, if_neg fun hcond => hd hcond.1]
      rfl

end Formulas

/-! ## The pages of the eager loader -/

section Frames
variable {numFrames n : ℕ} {bits : ℕ → Bool} {frames : List ℕ}

theorem exists_takeFrames (h : n ≤ countClear numFrames bits) :
    ∃ frames, takeFrames numFrames n bits = some frames := by
  induction n generalizing bits with
  | zero => exact ⟨[], rfl⟩
  | succ n ih =>
    rw [countClear] at h
    obtain ⟨i, hi, hb⟩ := List.countP_pos_iff.mp (Nat.lt_of_lt_of_le (Nat.succ_pos n) h)
    cases hfind : find numFrames bits with
    | none => exact absurd hb (List.find?_eq_none.mp hfind i hi)
    | some f =>
      obtain ⟨hlt, hclear, -⟩ := find_clear_eq_some_iff.mp hfind
      have hcount := countP_not_update List.nodup_range (List.mem_range.mpr hlt) hclear
      have hrest : n ≤ countClear numFrames (Function.update bits f true) := by
        rw [countClear]
        omega
      obtain ⟨frames, hframes⟩ := ih hrest
      refine ⟨f :: frames, ?_⟩
      rw [takeFrames, hfind, Option.bind_eq_bind, Option.bind_some, hframes]
      rfl

/-- The pages get different frames. -/
theorem takeFrames_spec (h : takeFrames numFrames n bits = some frames) :
    frames.length = n ∧ frames.Nodup ∧ ∀ f ∈ frames, bits f = false := by
  induction n generalizing bits frames with
  | zero =>
    obtain rfl := Option.some.inj h
    exact ⟨rfl, List.nodup_nil, fun f hf => absurd hf List.not_mem_nil⟩
  | succ n ih =>
    rw [takeFrames, Option.bind_eq_bind, Option.bind_eq_some_iff] at h
    obtain ⟨f, hfind, h⟩ := h
    rw [Option.bind_eq_bind, Option.bind_eq_some_iff] at h
    obtain ⟨rest, hrest, h⟩ := h
    obtain rfl := Option.some.inj h
    obtain ⟨-, hclear, -⟩ := find_clear_eq_some_iff.mp hfind
    obtain ⟨hlen, hnodup, hbits⟩ := ih hrest
    have hne : ∀ g ∈ rest, g ≠ f ∧ bits g = false := by
      intro g hg
      have hb := hbits g hg
      by_cases hgf : g = f
      · rw [hgf, Function.update_self] at hb
        cases hb
      · rw [Function.update_of_ne hgf] at hb
        exact ⟨hgf, hb⟩
    refine ⟨by rw [List.length_cons, hlen], List.nodup_cons.mpr ⟨fun hf => (hne f hf).1 rfl,
      hnodup⟩,
      fun g hg => ?_⟩
    rcases List.mem_cons.mp hg with rfl | hg
    · exact hclear
    · exact (hne g hg).2

end Frames

section Copying
variable {frames : List ℕ} {mem : ℕ → UInt8} {img : ℕ → UInt8}

/-- **Main memory has the bytes of `img`**, each page in its frame. -/
def Shows (frames : List ℕ) (mem img : ℕ → UInt8) : Prop :=
  ∀ v f, frames[v]? = some f → ∀ o, o < pageSize →
    mem (f * pageSize + o) = img (v * pageSize + o)

theorem clearPages_apply {a : ℕ} : clearPages frames mem a =
    if ∃ f ∈ frames, f * pageSize ≤ a ∧ a < f * pageSize + pageSize then 0 else mem a := by
  induction frames generalizing mem with
  | nil =>
    rw [if_neg]
    · rfl
    · rintro ⟨f, hf, -⟩
      cases hf
  | cons g frames ih =>
    show clearPages frames (blit mem (g * pageSize) pageSize fun _ => 0) a = _
    rw [ih]
    by_cases hrest : ∃ f ∈ frames, f * pageSize ≤ a ∧ a < f * pageSize + pageSize
    · obtain ⟨f, hf, hin⟩ := hrest
      rw [if_pos ⟨f, hf, hin⟩, if_pos ⟨f, List.mem_cons_of_mem _ hf, hin⟩]
    · rw [if_neg hrest, blit]
      by_cases hg : g * pageSize ≤ a ∧ a < g * pageSize + pageSize
      · rw [if_pos hg, if_pos ⟨g, List.mem_cons_self, hg⟩]
      · rw [if_neg hg, if_neg]
        rintro ⟨f, hf, hin⟩
        rcases List.mem_cons.mp hf with rfl | hf
        · exact hg hin
        · exact hrest ⟨f, hf, hin⟩

theorem shows_clearPages : Shows frames (clearPages frames mem) (fun _ => 0) := by
  intro v f hf o ho
  rw [clearPages_apply, if_pos]
  exact ⟨f, List.mem_of_getElem? hf, by omega, by omega⟩

/-- One byte is written through the page table. -/
theorem Shows.write (h : Shows frames mem img) (hn : frames.Nodup) {a f : ℕ} {b : UInt8}
    (hf : frames[a / pageSize]? = some f) :
    Shows frames (Function.update mem (f * pageSize + a % pageSize) b)
      (Function.update img a b) := by
  have hsize : pageSize = 128 := rfl
  intro v g hg o ho
  by_cases hv : v = a / pageSize
  · subst hv
    rw [hf] at hg
    obtain rfl := Option.some.inj hg
    by_cases hoa : o = a % pageSize
    · subst hoa
      rw [Function.update_self, Nat.div_add_mod' a pageSize, Function.update_self]
    · have hdiv := Nat.div_add_mod' a pageSize
      rw [Function.update_of_ne (by omega), Function.update_of_ne (by omega)]
      exact h _ f hf o ho
  · have hgf : g ≠ f := by
      rintro rfl
      obtain ⟨hlt, -⟩ := List.getElem?_eq_some_iff.mp hg
      exact hv ((List.getElem?_inj hlt hn).mp (hg.trans hf.symm))
    have hmod : a % pageSize < pageSize := Nat.mod_lt _ (by decide)
    have hdiv := Nat.div_add_mod' a pageSize
    have hphys := page_apart hgf ho
    have hvirt := page_apart hv ho
    rw [Function.update_of_ne (by omega), Function.update_of_ne (by omega)]
    exact h v g hg o ho

/-- **The copying loop** writes the bytes of the segment, as long as its pages exist. -/
theorem copySegment_spec {readBlock : (ℕ → UInt8) → ℕ → ℕ → ℕ → Option (ℕ → UInt8)}
    {byte : ℕ → UInt8} {virtualAddr size n i : ℕ} (hn : frames.Nodup) (hsize : i + n = size)
    (hread : ∀ mem dest j, j < size →
      readBlock mem dest 1 j = some (Function.update mem dest (byte j)))
    (hlt : virtualAddr + size ≤ 2 ^ 32) (h : Shows frames mem img) :
    (virtualAddr + size ≤ frames.length * pageSize →
      ∃ mem', copySegment readBlock frames virtualAddr n i mem = some mem') ∧
    ∀ mem', copySegment readBlock frames virtualAddr n i mem = some mem' →
      Shows frames mem' (fun a => if virtualAddr + i ≤ a ∧ a < virtualAddr + size then
        byte (a - virtualAddr) else img a) := by
  induction n generalizing i mem img with
  | zero =>
    refine ⟨fun _ => ⟨mem, rfl⟩, fun mem' hmem' => ?_⟩
    obtain rfl := Option.some.inj hmem'
    intro v f hf o ho
    dsimp only
    rw [if_neg (by omega)]
    exact h v f hf o ho
  | succ n ih =>
    have hmod : (virtualAddr + i) % 2 ^ 32 = virtualAddr + i := Nat.mod_eq_of_lt (by omega)
    rw [copySegment, hmod]
    have hnext : ∀ f, frames[(virtualAddr + i) / pageSize]? = some f → _ := fun f hf =>
      ih (i := i + 1) (by omega) (h.write hn (b := byte i) hf)
    constructor
    · intro hfits
      have hpage : (virtualAddr + i) / pageSize < frames.length :=
        (Nat.div_lt_iff_lt_mul (by decide)).mpr (by omega)
      have hf := List.getElem?_eq_getElem hpage
      obtain ⟨mem', hmem'⟩ := (hnext _ hf).1 hfits
      refine ⟨mem', ?_⟩
      rw [hf, Option.bind_eq_bind, Option.bind_some, hread _ _ _ (by omega)]
      exact hmem'
    · intro mem' hmem'
      rw [Option.bind_eq_bind, Option.bind_eq_some_iff] at hmem'
      obtain ⟨f, hf, hmem'⟩ := hmem'
      rw [hread _ _ _ (by omega)] at hmem'
      have hshow := (hnext f hf).2 mem' hmem'
      intro v g hg o ho
      rw [hshow v g hg o ho]
      dsimp only
      by_cases hvi : v * pageSize + o = virtualAddr + i
      · rw [if_neg (by omega), if_pos (by omega), hvi, Function.update_self]
        congr 1
        omega
      · rw [Function.update_of_ne hvi]
        exact ite_congr (propext (by omega)) (fun _ => rfl) (fun _ => rfl)

/-- A segment that is not empty is where it is said to be. -/
theorem copySegment_start {readBlock : (ℕ → UInt8) → ℕ → ℕ → ℕ → Option (ℕ → UInt8)}
    {byte : ℕ → UInt8} {virtualAddr start size : ℕ} (hn : frames.Nodup)
    (hread : ∀ mem dest j, j < size →
      readBlock mem dest 1 j = some (Function.update mem dest (byte j)))
    (hstart : 0 < size → virtualAddr = start) (hlt : 0 < size → start + size ≤ 2 ^ 32)
    (h : Shows frames mem img) :
    (start + size ≤ frames.length * pageSize →
      ∃ mem', copySegment readBlock frames virtualAddr size 0 mem = some mem') ∧
    ∀ mem', copySegment readBlock frames virtualAddr size 0 mem = some mem' →
      Shows frames mem' (fun a => if start ≤ a ∧ a < start + size then byte (a - start)
        else img a) := by
  by_cases hpos : 0 < size
  · obtain rfl := hstart hpos
    obtain ⟨hex, hall⟩ := copySegment_spec (i := 0) hn (Nat.zero_add _) hread (hlt hpos) h
    exact ⟨hex, hall⟩
  · obtain rfl : size = 0 := by omega
    refine ⟨fun _ => ⟨mem, rfl⟩, fun mem' hmem' v f hf o ho => ?_⟩
    obtain rfl := Option.some.inj hmem'
    dsimp only
    rw [if_neg (by omega)]
    exact h v f hf o ho

end Copying

section Construct
variable {exe : Executable}

/-- How many pages the constructor makes. -/
def numPages (exe : Executable) : ℕ :=
  divRoundUp ((exe.getSize + userStackSize) % 2 ^ 32) pageSize

theorem readAt_one (file : HostFile) (mem : ℕ → UInt8) (dest : ℕ) {position : ℕ}
    (h : position < file.length) :
    file.readAt mem dest 1 position = Function.update mem dest (file.byte position) := by
  funext a
  rw [HostFile.readAt_apply, Function.update_apply]
  by_cases ha : a = dest
  · subst ha
    rw [if_pos (by omega), if_pos rfl, Nat.sub_self, Nat.add_zero]
  · rw [if_neg (by omega), if_neg ha]

/-- **The eager loader** puts the image of the executable into the frames. -/
theorem construct_spec (hl : Layout exe) (numFrames : ℕ) (bits : ℕ → Bool)
    (mainMemory : ℕ → UInt8) :
    (numPages exe ≤ countClear numFrames bits →
      exe.code.size + exe.initData.size ≤ numPages exe * pageSize →
        ∃ r, construct numFrames bits mainMemory exe = some r) ∧
    ∀ frames mem, construct numFrames bits mainMemory exe = some (frames, mem) →
      frames.length = numPages exe ∧ Shows frames mem (image exe) := by
  have hfits := hl.fits
  have hcode : ∀ mem dest j, j < exe.code.size → readCodeBlock exe mem dest 1 j =
      some (Function.update mem dest (exe.file.byte (exe.code.inFileAddr + j))) := by
    intro mem dest j hj
    have hend := hl.code_end (by omega)
    rw [readCodeBlock, if_pos ⟨Nat.one_ne_zero, hj⟩, Nat.mod_eq_of_lt (by omega),
      readAt_one _ _ _ (by omega)]
  have hdata : ∀ mem dest j, j < exe.initData.size → readDataBlock exe mem dest 1 j =
      some (Function.update mem dest (exe.file.byte (exe.initData.inFileAddr + j))) := by
    intro mem dest j hj
    have hend := hl.data_end (by omega)
    rw [readDataBlock, if_pos ⟨Nat.one_ne_zero, hj⟩, Nat.mod_eq_of_lt (by omega),
      readAt_one _ _ _ (by omega)]
  have hcodeEnd : 0 < exe.code.size → 0 + exe.code.size ≤ 2 ^ 32 := by
    intro hpos
    have := hl.code_end hpos
    omega
  have hdataEnd : 0 < exe.initData.size → exe.code.size + exe.initData.size ≤ 2 ^ 32 := by
    intro hpos
    have := hl.data_end hpos
    by_cases hc : 0 < exe.code.size
    · have := hl.code_end hc
      omega
    · omega
  -- the frames, and what the two loops do with them
  have hload : ∀ frames, frames.Nodup → frames.length = numPages exe →
      (exe.code.size + exe.initData.size ≤ numPages exe * pageSize → ∃ mem₁ mem₂,
        copySegment (readCodeBlock exe) frames exe.code.virtualAddr exe.code.size 0
          (clearPages frames mainMemory) = some mem₁ ∧
        copySegment (readDataBlock exe) frames exe.initData.virtualAddr exe.initData.size 0
          mem₁ = some mem₂) ∧
      ∀ mem₁ mem₂,
        copySegment (readCodeBlock exe) frames exe.code.virtualAddr exe.code.size 0
          (clearPages frames mainMemory) = some mem₁ →
        copySegment (readDataBlock exe) frames exe.initData.virtualAddr exe.initData.size 0
          mem₁ = some mem₂ → Shows frames mem₂ (image exe) := by
    intro frames hn hlen
    have hclear : Shows frames (clearPages frames mainMemory) _ := shows_clearPages
    obtain ⟨hex₁, hall₁⟩ := copySegment_start hn hcode hl.code_first hcodeEnd hclear
    constructor
    · intro hpages
      rw [← hlen] at hpages
      obtain ⟨mem₁, hmem₁⟩ := hex₁ (by omega)
      obtain ⟨hex₂, -⟩ := copySegment_start hn hdata hl.data_next hdataEnd (hall₁ mem₁ hmem₁)
      obtain ⟨mem₂, hmem₂⟩ := hex₂ hpages
      exact ⟨mem₁, mem₂, hmem₁, hmem₂⟩
    · intro mem₁ mem₂ hmem₁ hmem₂ v f hf o ho
      obtain ⟨-, hall₂⟩ := copySegment_start hn hdata hl.data_next hdataEnd (hall₁ mem₁ hmem₁)
      rw [hall₂ mem₂ hmem₂ v f hf o ho, hl.image_eq]
      dsimp only
      by_cases hc : v * pageSize + o < exe.code.size
      · rw [if_neg (by omega), if_pos (by omega), if_pos hc, Nat.sub_zero]
      · rw [if_neg hc]
        by_cases hd : v * pageSize + o < exe.code.size + exe.initData.size
        · rw [if_pos (by omega), if_pos hd]
        · rw [if_neg (by omega), if_neg (by omega), if_neg hd]
  constructor
  · intro hclear hpages
    obtain ⟨frames, hframes⟩ := exists_takeFrames hclear
    obtain ⟨hlen, hn, -⟩ := takeFrames_spec hframes
    obtain ⟨mem₁, mem₂, hmem₁, hmem₂⟩ := (hload frames hn hlen).1 hpages
    refine ⟨(frames, mem₂), ?_⟩
    rw [construct]
    dsimp only
    rw [if_pos (show divRoundUp _ pageSize ≤ _ from hclear), show takeFrames numFrames
      (divRoundUp ((exe.getSize + userStackSize) % 2 ^ 32) pageSize) bits = _ from hframes,
      Option.bind_eq_bind, Option.bind_some, hmem₁, Option.bind_eq_bind, Option.bind_some, hmem₂]
    rfl
  · intro frames mem hmem
    rw [construct] at hmem
    dsimp only at hmem
    split at hmem
    · simp only [Option.bind_eq_bind, Option.bind_eq_some_iff] at hmem
      obtain ⟨frames', hframes, mem₁, hmem₁, mem₂, hmem₂, heq⟩ := hmem
      obtain ⟨rfl, rfl⟩ := Prod.mk.inj (Option.some.inj heq)
      obtain ⟨hlen, hn, -⟩ := takeFrames_spec hframes
      exact ⟨hlen, (hload _ hn hlen).2 mem₁ _ hmem₁ hmem₂⟩
    · cases hmem

/-- If the sizes do not wrap around, the pages are enough for the code and the data. -/
theorem fits_numPages (h : exe.code.size + exe.initData.size + exe.uninitData.size + userStackSize <
    2 ^ 32) : exe.code.size + exe.initData.size ≤ numPages exe * pageSize := by
  have hsize : exe.getSize = exe.code.size + exe.initData.size + exe.uninitData.size := by
    rw [Executable.getSize, Nat.mod_eq_of_lt (by omega)]
  have hle : (exe.getSize + userStackSize) % 2 ^ 32 ≤ numPages exe * pageSize :=
    le_divRoundUp_mul (by decide) _
  rw [hsize, Nat.mod_eq_of_lt h] at hle
  omega

/-- **Demand loading is eager loading.**  The executable is laid out as `coff2noff` does it.  The
constructor without demand loading comes to its end if there are frames enough, and the sizes do
not wrap around; and whenever it does, `LoadPage` puts into a frame, for any page that is not dirty,
the bytes that the constructor has put into the frame of this page.  `LoadPage` fails no assertion
on the way. -/
theorem demand_eq_eager (hl : Layout exe) (numFrames : ℕ) (bits : ℕ → Bool)
    (mainMemory : ℕ → UInt8) :
    (numPages exe ≤ countClear numFrames bits →
      exe.code.size + exe.initData.size + exe.uninitData.size + userStackSize < 2 ^ 32 →
        ∃ r, construct numFrames bits mainMemory exe = some r) ∧
    ∀ frames mem, construct numFrames bits mainMemory exe = some (frames, mem) →
      ∀ (k : Vm) (h : ℕ) (spaceId : ℤ) (vpnAddress physicalPage o : ℕ),
        vpnAddress / pageSize < (AddressSpace.make exe spaceId).numPages → o < pageSize →
        (k.pageTable h (vpnAddress / pageSize)).dirty = false →
        (∀ cleared, readPage (AddressSpace.make exe spaceId) cleared (physicalPage * pageSize)
          (vpnAddress / pageSize * pageSize) =
            some (readExecutable (AddressSpace.make exe spaceId) cleared (physicalPage * pageSize)
              (vpnAddress / pageSize * pageSize))) ∧
        ∃ f, frames[vpnAddress / pageSize]? = some f ∧
          (k.loadPage h (AddressSpace.make exe spaceId) vpnAddress physicalPage).mainMemory
            (physicalPage * pageSize + o) = mem (f * pageSize + o) := by
  obtain ⟨hex, hall⟩ := construct_spec hl numFrames bits mainMemory
  refine ⟨fun hclear hfits => hex hclear (fits_numPages hfits), ?_⟩
  intro frames mem hmem k h spaceId vpnAddress physicalPage o hv ho hdirty
  obtain ⟨hlen, hshow⟩ := hall frames mem hmem
  have hs := constructed_make hl spaceId
  refine ⟨fun cleared => readPage_eq hs, ?_⟩
  have hv' : vpnAddress / pageSize < frames.length := by
    rw [hlen]
    exact hv
  refine ⟨_, List.getElem?_eq_getElem hv', ?_⟩
  rw [hshow _ _ (List.getElem?_eq_getElem hv') o ho]
  unfold Vm.loadPage
  dsimp only
  rw [if_neg (by rw [hdirty]; exact Bool.false_ne_true)]
  exact readExecutable_page hs (fun o ho => blit_add ho) ho

/-- The first page of a program with four bytes of code and two of data. -/
theorem demand_eq_eager_seventeenPages : ∃ frames mem,
    construct 256 (fun _ => false) (fun _ => 7) seventeenPages = some (frames, mem) ∧
    ∀ o, o < pageSize → ∃ f, frames[0]? = some f ∧
      (started.loadPage 0 (AddressSpace.make seventeenPages 0) 0 3).mainMemory (3 * pageSize + o) =
        mem (f * pageSize + o) := by
  have hl : Layout seventeenPages :=
    ⟨fun _ => rfl, fun _ => rfl, fun _ _ => rfl, fun _ => rfl, fun _ => rfl, by decide⟩
  obtain ⟨hex, hall⟩ := demand_eq_eager hl 256 (fun _ => false) (fun _ => 7)
  obtain ⟨⟨frames, mem⟩, hr⟩ := hex (by decide +kernel) (by decide)
  refine ⟨frames, mem, hr, fun o ho => ?_⟩
  exact (hall frames mem hr started 0 0 0 3 o (by decide) ho rfl).2

end Construct

end EagerLoading
end PaldOs
