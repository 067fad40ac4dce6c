import Mathlib.Tactic.IntervalCases
import PaldOs.FileRead

/-! # Files as byte arrays

Any number of handles write to one file, in any order, each from its own cursor on; the
disk may be full at any time.  The contents of the file, its bytes in the order of the
headers, change as a byte array does: a `Write` that returns `k` puts its first `k` bytes
at the cursor of its handle.  Then the file is opened again and read in pieces of any
sizes, and the pieces are the contents, cut at those sizes; at the end there is nothing.

There is one exception.  While bytes are left, a size so large that its sum with the seek
position is `2 ^ 32` or more is not served: `Readable` says that no `Read` asks for such a
size.
-/
namespace PaldOs

open Sys

/-! ## Byte arrays -/

section ByteArrays
variable {α : Type}

/-- `content` with `chunk` written at `c`, over what is there and past its end. -/
def overwrite (content : List α) (c : ℕ) (chunk : List α) : List α :=
  content.take c ++ chunk ++ content.drop (c + chunk.length)

/-- An array given by its elements is overwritten. -/
theorem overwrite_map_range {byte byte' src : ℕ → α} {length c k : ℕ} (hc : c ≤ length)
    (h : ∀ p, p < max length (c + k) →
      byte' p = if c ≤ p ∧ p < c + k then src (p - c) else byte p) :
    overwrite ((List.range length).map byte) c ((List.range k).map src) =
      (List.range (max length (c + k))).map byte' := by
  refine List.ext_getElem ?_ fun p hp hp' => ?_
  · simp only [overwrite, List.length_append, List.length_take, List.length_drop, List.length_map,
      List.length_range]
    omega
  · rw [List.length_map, List.length_range] at hp'
    simp only [overwrite, List.getElem_append, List.getElem_map, List.getElem_range,
      List.getElem_take, List.getElem_drop, List.length_append, List.length_take, List.length_map,
      List.length_range]
    rw [h p hp']
    by_cases h1 : p < c
    · rw [if_neg (by omega), dif_pos (by omega), dif_pos (by omega)]
    · by_cases h2 : p < c + k
      · rw [if_pos (by omega), dif_pos (by omega), dif_neg (by omega)]
        congr 1
        omega
      · rw [if_neg (by omega), dif_neg (by omega)]
        congr 1
        omega

/-- A slice of an array given by its elements. -/
theorem take_drop_map_range (byte : ℕ → α) (length c n : ℕ) :
    (((List.range length).map byte).drop c).take n =
      (List.range (min n (length - c))).map (fun i => byte (c + i)) := by
  refine List.ext_getElem (by simp) fun i h₁ h₂ => ?_
  simp

/-- `content` cut into pieces of these sizes.  Past the end the pieces are empty. -/
def cut : List α → List ℕ → List (List α)
  | _, [] => []
  | content, n :: sizes => content.take n :: cut (content.drop n) sizes

end ByteArrays

/-- A call of `Write`. -/
structure WriteCall where
  handle : ℕ
  fromBuffer : ℕ → UInt8
  numBytes : ℕ

/-- The first `k` bytes of the buffer. -/
def WriteCall.chunk (w : WriteCall) (k : ℕ) : List UInt8 := (List.range k).map w.fromBuffer

/-- **The byte array after some calls of `Write`**, given what they return.  `cursor` is the
sum of what the earlier calls through a handle returned. -/
def evolve (content : List UInt8) (cursor : ℕ → ℕ) : List WriteCall → List ℕ → List UInt8
  | w :: calls, k :: results =>
      evolve (overwrite content (cursor w.handle) (w.chunk k))
        (Function.update cursor w.handle (cursor w.handle + k)) calls results
  | _, _ => content

/-- Calls of `Write`, one after the other. -/
def runWrites : List WriteCall → Sys (List ℕ)
  | [] => return []
  | w :: calls => do
      let k ← OpenFile.write w.handle w.fromBuffer w.numBytes false
      let results ← runWrites calls
      return k :: results

/-- Calls of `Read` through one handle, and the bytes they return. -/
def runReads (f : ℕ) : List ℕ → Sys (List (List UInt8))
  | [] => return []
  | n :: sizes => do
      let (k, into) ← OpenFile.read f (fun _ => 0) n false
      let pieces ← runReads f sizes
      return (List.range k).map into :: pieces

theorem runReads_cons (f n : ℕ) (sizes : List ℕ) : runReads f (n :: sizes) = do
    let (k, into) ← OpenFile.read f (fun _ => 0) n false
    let pieces ← runReads f sizes
    return (List.range k).map into :: pieces := rfl

/-- The file is opened and read. -/
def openAndRead (sector : ℕ) (sizes : List ℕ) : Sys (List (List UInt8)) := do
  let f ← OpenFile.make sector
  runReads f sizes

/-- The contents of a file. -/
def fileContent (disk : ℕ → Sector) (hs : List ℕ) : List UInt8 :=
  (List.range (fileLength disk hs)).map (fileByte disk hs)

@[simp] theorem length_fileContent (disk : ℕ → Sector) (hs : List ℕ) :
    (fileContent disk hs).length = fileLength disk hs := by
  rw [fileContent, List.length_map, List.length_range]

/-- **A `Write` is an overwrite of the byte array.** -/
theorem Holds.fileContent_eq {disk₀ disk : ℕ → Sector} {hs₀ hs : List ℕ} {c k : ℕ} {w : WriteCall}
    (hh : Holds disk₀ hs₀ c w.fromBuffer k disk hs) (hc : c ≤ fileLength disk₀ hs₀) :
    fileContent disk hs = overwrite (fileContent disk₀ hs₀) c (w.chunk k) := by
  rw [fileContent, fileContent, WriteCall.chunk, hh.length]
  refine (overwrite_map_range hc fun p hp => hh.byte p ?_).symm
  rwa [hh.length]

/-! ## Writing through many handles -/

/-- **A file that is open for writing** through some handles, each with its cursor. -/
structure OpenForWriting (s : System) (m : ℕ) (hs : List ℕ) (handles : ℕ → Prop) (cursor : ℕ → ℕ) :
    Prop where
  map : FreeMapOk s m
  stored : Stored m s.disk hs (mapOn s.disk m)
  lock : ∃ l, (s.openFilesTable (hs.getD 0 0)).writeLock = some l ∧ s.held l = false
  apart : ∀ f, handles f → f ≠ s.freeMapFile
  sector : ∀ f, handles f → (s.openFile f).sector = hs.getD 0 0
  cursor : ∀ f, handles f → CursorAt s.disk hs (s.openFile f) (cursor f)

theorem CursorAt.le_fileLength {disk : ℕ → Sector} {hs : List ℕ} {o : OpenFile} {c : ℕ}
    (hc : CursorAt disk hs o c) (hf : FileOk disk hs) : c ≤ fileLength disk hs := by
  obtain ⟨i, hi, -, hpos, hseek⟩ := hc
  have := hf.header_end_le hi
  omega

/-- A cursor stays where it is while others write. -/
theorem Outcome.cursor_of_start {m : ℕ} {disk₀ disk : ℕ → Sector} {hs₀ hs reserved : List ℕ}
    {map₀ freeMap : Bitmap} {c n k p : ℕ} {src : ℕ → UInt8} {o o' : OpenFile}
    (hout : Outcome m disk₀ hs₀ map₀ c src n k disk hs freeMap reserved o)
    (hst : FileOk disk₀ hs₀) (hc : CursorAt disk₀ hs₀ o' p) : CursorAt disk hs o' p := by
  obtain ⟨i, hi, hcurrent, hpos, hseek⟩ := hc
  have hchain := hout.progress.chain
  have hle := hchain.length_le
  refine ⟨i, by omega, by rw [getD_of_chain hchain hi]; exact hcurrent, hpos, hseek.trans ?_⟩
  -- a header that is not the last is full
  by_cases hlast : i + 1 < hs.length
  · rw [hout.progress.ok.full i hlast]
    exact (hst.headers i hi).numBytes_le
  · have hlen := hout.holds.length
    unfold fileLength at hlen
    have heq : hs.length = hs₀.length := by omega
    obtain rfl : i = hs₀.length - 1 := by omega
    rw [heq] at hlen
    omega

/-- **What becomes of a file**: it only gets longer, at its end. -/
structure GrownFile (disk : ℕ → Sector) (hs : List ℕ) (disk' : ℕ → Sector) (hs' : List ℕ) :
    Prop where
  chain : hs <+: hs'
  length_le : fileLength disk hs ≤ fileLength disk' hs'
  count_le : sectorCount disk hs ≤ sectorCount disk' hs'
  data : ∀ q, q < sectorCount disk hs → dataSector disk' hs' q = dataSector disk hs q

theorem GrownFile.refl (disk : ℕ → Sector) (hs : List ℕ) : GrownFile disk hs disk hs :=
  ⟨List.prefix_refl _, le_rfl, le_rfl, fun _ _ => rfl⟩

theorem GrownFile.trans {disk₁ disk₂ disk₃ : ℕ → Sector} {hs₁ hs₂ hs₃ : List ℕ}
    (h : GrownFile disk₁ hs₁ disk₂ hs₂) (h' : GrownFile disk₂ hs₂ disk₃ hs₃) :
    GrownFile disk₁ hs₁ disk₃ hs₃ := by
  refine ⟨h.chain.trans h'.chain, h.length_le.trans h'.length_le, h.count_le.trans h'.count_le,
    fun q hq => ?_⟩
  rw [h'.data q (hq.trans_le h.count_le), h.data q hq]

theorem Outcome.grown {m : ℕ} {disk₀ disk : ℕ → Sector} {hs₀ hs reserved : List ℕ}
    {map₀ freeMap : Bitmap} {c n k : ℕ} {src : ℕ → UInt8} {o : OpenFile}
    (hout : Outcome m disk₀ hs₀ map₀ c src n k disk hs freeMap reserved o) :
    GrownFile disk₀ hs₀ disk hs := by
  refine ⟨hout.progress.chain, ?_, hout.progress.count_le, hout.progress.data⟩
  rw [hout.holds.length]
  exact le_max_left ..

section Writes
variable {s : System} {m : ℕ} {hs : List ℕ} {handles : ℕ → Prop} {cursor : ℕ → ℕ}

/-- **One `Write`** through one of the handles. -/
theorem OpenForWriting.write (ho : OpenForWriting s m hs handles cursor) {w : WriteCall}
    (hw : handles w.handle) (hn : 0 < w.numBytes) :
    s.Ends (OpenFile.write w.handle w.fromBuffer w.numBytes false) (fun k s' =>
      k ≤ w.numBytes ∧ ∃ hs', hs'.getD 0 0 = hs.getD 0 0 ∧
        OpenForWriting s' m hs' handles
          (Function.update cursor w.handle (cursor w.handle + k)) ∧
        fileContent s'.disk hs' =
          overwrite (fileContent s.disk hs) (cursor w.handle) (w.chunk k) ∧
        GrownFile s.disk hs s'.disk hs' ∧ ∀ g, g ≠ w.handle → s'.openFile g = s.openFile g) := by
  obtain ⟨l, hlock, hfree⟩ := ho.lock
  have hsector := ho.sector _ hw
  have hcur : CursorAt s.disk hs ((s.openFile w.handle).rewound false) (cursor w.handle) :=
    ho.cursor _ hw
  refine (write_ends ho.map (ho.apart _ hw) ho.stored
    (by rw [hsector]; exact hlock) hfree hcur hn).mono ?_
  rintro k _ ⟨map₀, disk, hs', freeMap, reserved, o, rfl, hosec, hmap, hout, -⟩
  have hst₀ := ho.stored.of_agree ho.map.lt hmap
  have hhead : hs'.getD 0 0 = hs.getD 0 0 :=
    getD_of_chain hout.progress.chain ho.stored.ok.pos
  have hother : ∀ g, g ≠ w.handle → (s.writing w.handle disk o).openFile g = s.openFile g :=
    fun g hg => Function.update_of_ne hg ..
  refine ⟨hout.le, hs', hhead, ⟨ho.map.writing (ho.apart _ hw) _ _, ?_, ⟨l, ?_, hfree⟩, ho.apart,
    fun g hg => ?_, fun g hg => ?_⟩, ?_, hout.grown, hother⟩
  · exact (hout.progress.stored hst₀).of_agree ho.map.lt hout.progress.onDisk
  · rw [hhead]
    exact hlock
  · rw [hhead]
    by_cases hgw : g = w.handle
    · rw [hgw, System.writing_self, hosec, hsector]
    · rw [hother g hgw]
      exact ho.sector g hg
  · by_cases hgw : g = w.handle
    · rw [hgw, System.writing_self, Function.update_self]
      exact hout.cursor
    · rw [hother g hgw, Function.update_of_ne hgw]
      exact hout.cursor_of_start ho.stored.ok (ho.cursor g hg)
  · exact hout.holds.fileContent_eq (hcur.le_fileLength ho.stored.ok)

/-- **Any calls of `Write`.** -/
theorem OpenForWriting.runWrites (ho : OpenForWriting s m hs handles cursor)
    {calls : List WriteCall} (hcalls : ∀ w ∈ calls, handles w.handle ∧ 0 < w.numBytes) :
    s.Ends (runWrites calls) (fun results s' =>
      List.Forall₂ (fun k w => k ≤ w.numBytes) results calls ∧
      ∃ hs' cursor', hs'.getD 0 0 = hs.getD 0 0 ∧ OpenForWriting s' m hs' handles cursor' ∧
        fileContent s'.disk hs' = evolve (fileContent s.disk hs) cursor calls results ∧
        GrownFile s.disk hs s'.disk hs' ∧
        ∀ g, (∀ w ∈ calls, g ≠ w.handle) → s'.openFile g = s.openFile g) := by
  induction calls generalizing s hs cursor with
  | nil =>
    simp only [PaldOs.runWrites, Prog.ends_pure]
    exact ⟨.nil, hs, cursor, rfl, ho, rfl, .refl .., fun _ _ => trivial⟩
  | cons w calls ih =>
    obtain ⟨hw, hn⟩ := hcalls w List.mem_cons_self
    simp only [PaldOs.runWrites, Prog.ends_bind]
    refine (ho.write hw hn).mono ?_
    rintro k s' ⟨hk, hs', hhead, ho', hcontent, hgrown, hothers⟩
    refine (ih ho' fun v hv => hcalls v (List.mem_cons_of_mem _ hv)).mono ?_
    rintro results s'' ⟨hle, hs'', cursor'', hhead', ho'', hcontent', hgrown', hothers'⟩
    simp only [Prog.ends_pure]
    refine ⟨.cons hk hle, hs'', cursor'', hhead'.trans hhead, ho'', ?_, hgrown.trans hgrown',
      fun g hg => ?_⟩
    · rw [hcontent', hcontent]
      rfl
    · rw [hothers' g fun v hv => hg v (List.mem_cons_of_mem _ hv),
        hothers g (hg w List.mem_cons_self)]

end Writes

/-! ## Reading it back -/

/-- **No `Read` asks for too much**: from byte `c` of a file of `length` bytes on, each comes
when nothing is left, or the sum of its size and the seek position fits in a word. -/
def Readable (length : ℕ) : ℕ → List ℕ → Prop
  | _, [] => True
  | c, n :: sizes =>
      (c = length ∨ seekOf c + n < 2 ^ 32) ∧ Readable length (min length (c + n)) sizes

section Reads
variable {s : System} {f : ℕ} {disk : ℕ → Sector} {hs : List ℕ} {o : OpenFile} {c : ℕ}

/-- The bytes from `c` on, as many as there are up to `n`. -/
theorem take_drop_fileContent {n r : ℕ} {into : ℕ → UInt8}
    (hr : r = min n (fileLength disk hs - c))
    (hinto : ∀ j, j < r → into j = fileByte disk hs (c + j)) :
    (List.range r).map into = ((fileContent disk hs).drop c).take n := by
  refine List.ext_getElem ?_ fun j hj hj' => ?_
  · simp only [List.length_map, List.length_range, List.length_take, List.length_drop,
      length_fileContent]
    exact hr
  · simp only [List.length_map, List.length_range] at hj
    simp only [List.getElem_map, List.getElem_range, List.getElem_take, List.getElem_drop,
      fileContent]
    exact hinto j hj

/-- **The pieces are those of the contents exactly if no `Read` asks for too much.** -/
theorem runReads_iff (hf : FileOk disk hs) (hr : ReadsAt disk hs o c) {sizes : List ℕ}
    (hsizes : ∀ n ∈ sizes, 0 < n ∧ n < 2 ^ 32) :
    (s.writing f disk o).Ends (runReads f sizes)
      (fun pieces _ => pieces = cut ((fileContent disk hs).drop c) sizes) ↔
      Readable (fileLength disk hs) c sizes := by
  induction sizes generalizing o c with
  | nil =>
    simp only [runReads, Prog.ends_pure]
    exact ⟨fun _ => trivial, fun _ => rfl⟩
  | cons n sizes ih =>
    obtain ⟨hn, hn'⟩ := hsizes n List.mem_cons_self
    have hc : c ≤ fileLength disk hs := by
      obtain ⟨i, hi, -, hpos, hseek, -⟩ := hr
      have := hf.header_end_le hi
      omega
    have hcut : cut ((fileContent disk hs).drop c) (n :: sizes) =
        ((fileContent disk hs).drop c).take n ::
          cut (((fileContent disk hs).drop c).drop n) sizes := rfl
    rw [hcut]
    by_cases hsum : c = fileLength disk hs ∨ seekOf c + n < 2 ^ 32
    · obtain ⟨⟨r, into⟩, _, hrun, hr1, hinto, o', rfl, hr'⟩ :=
        (read_ends hf hr hn hn' hsum :
          (s.writing f disk o).Ends (OpenFile.read f (fun _ => 0) n false) _)
      simp only at hr1 hinto hr'
      have hstep : (s.writing f disk o).Ends (runReads f (n :: sizes)) (fun pieces _ =>
          pieces = ((fileContent disk hs).drop c).take n ::
            cut (((fileContent disk hs).drop c).drop n) sizes) ↔
          (s.writing f disk o').Ends (runReads f sizes) (fun pieces _ =>
            pieces = cut (((fileContent disk hs).drop c).drop n) sizes) := by
        rw [runReads_cons, System.Ends, Prog.ends_bind_run hrun]
        simp only [Prog.ends_bind, Prog.ends_pure, take_drop_fileContent hr1 hinto, List.cons.injEq,
          true_and]
      have hdrop : ((fileContent disk hs).drop c).drop n = (fileContent disk hs).drop (c + r) := by
        rw [List.drop_drop]
        by_cases hle : c + n ≤ fileLength disk hs
        · congr 1
          omega
        · rw [List.drop_eq_nil_of_le (by rw [length_fileContent]; omega),
            List.drop_eq_nil_of_le (by rw [length_fileContent]; omega)]
      have hnext : min (fileLength disk hs) (c + n) = c + r := by omega
      rw [hstep, hdrop, ih hr' fun k hk => hsizes k (List.mem_cons_of_mem _ hk)]
      show _ ↔ (c = fileLength disk hs ∨ seekOf c + n < 2 ^ 32) ∧
        Readable (fileLength disk hs) (min (fileLength disk hs) (c + n)) sizes
      rw [hnext]
      exact ⟨fun h => ⟨hsum, h⟩, And.right⟩
    · have hno : ¬ (s.writing f disk o).Ends (OpenFile.read f (fun _ => 0) n false)
          (fun r _ => r.1 = min n (fileLength disk hs - c)) :=
        read_overflow hf hr hn' (by omega) (by omega)
      refine ⟨fun h => absurd ?_ hno, fun h => absurd h.1 hsum⟩
      rw [runReads_cons] at h
      refine (Prog.ends_bind.mp h).mono ?_
      rintro ⟨r, into⟩ s' h
      obtain ⟨pieces, s'', -, h⟩ := Prog.ends_bind.mp h
      simp only [Prog.ends_pure, List.cons.injEq] at h
      have hlen := congrArg List.length h.1
      simpa only [List.length_map, List.length_range, List.length_take, List.length_drop,
        length_fileContent] using hlen

end Reads

/-- A file that is opened anew is read from its start. -/
theorem openAndRead_iff {s : System} {hs : List ℕ} (hf : FileOk s.disk hs) {sizes : List ℕ}
    (hsizes : ∀ n ∈ sizes, 0 < n ∧ n < 2 ^ 32) :
    s.Ends (openAndRead (hs.getD 0 0) sizes)
      (fun pieces _ => pieces = cut (fileContent s.disk hs) sizes) ↔
      Readable (fileLength s.disk hs) 0 sizes := by
  obtain ⟨f, s', hrun, hopens⟩ := make_ends (s := s) (hf.heads_lt 0 hf.pos)
  rw [openAndRead, System.Ends, Prog.ends_bind_run hrun, ← s'.writing_start f, hopens.disk]
  have hreads : ReadsAt s.disk hs (s'.openFile f) 0 := by
    rw [hopens.openFile, Function.update_self]
    exact ⟨0, hf.pos, rfl, rfl, Nat.zero_le _, fun _ => Or.inl rfl⟩
  exact runReads_iff hf hreads hsizes

/-- **The round trip.**  Whatever the handles write, the contents change as a byte array does,
and a handle opened afterwards reads exactly the contents if, and only if, no `Read` asks
for too much. -/
theorem write_read_round_trip {s : System} {m : ℕ} {hs : List ℕ} {handles : ℕ → Prop}
    (ho : OpenForWriting s m hs handles fun _ => 0) {calls : List WriteCall}
    (hcalls : ∀ w ∈ calls, handles w.handle ∧ 0 < w.numBytes) {sizes : List ℕ}
    (hsizes : ∀ n ∈ sizes, 0 < n ∧ n < 2 ^ 32) :
    s.Ends (runWrites calls) (fun results s' =>
      List.Forall₂ (fun k w => k ≤ w.numBytes) results calls ∧
      ∃ hs', hs'.getD 0 0 = hs.getD 0 0 ∧ FileOk s'.disk hs' ∧
        fileContent s'.disk hs' = evolve (fileContent s.disk hs) (fun _ => 0) calls results ∧
        (s'.Ends (openAndRead (hs.getD 0 0) sizes)
          (fun pieces _ => pieces = cut (fileContent s'.disk hs') sizes) ↔
          Readable (fileContent s'.disk hs').length 0 sizes)) := by
  refine (ho.runWrites hcalls).mono ?_
  rintro results s' ⟨hle, hs', cursor', hhead, ho', hcontent, -⟩
  refine ⟨hle, hs', hhead, ho'.stored.ok, hcontent, ?_⟩
  rw [length_fileContent, ← hhead]
  exact openAndRead_iff ho'.stored.ok hsizes

/-! ### A file of 200 bytes -/

/-- Its header. -/
def shortFileHeader : RawFileHeader :=
  ⟨200, 2, fun i => if i = 0 then 6 else if i = 1 then 7 else 0, 0⟩

/-- A volume with the free map in sector 2 and a file of 200 bytes, with its header in sector 5,
which is open as handles 2 and 3. -/
def shortFileSystem : System where
  disk x :=
    if x = 5 then shortFileHeader.toSector
    else if x = 2 then Bitmap.toBytes (fun i => decide (i < 8))
    else fun _ => 0
  openFilesTable _ := ⟨some 2, some 1, some 3, false, false, 1⟩
  openFile f :=
    if f = 0 then ⟨0, 0, 0, ⟨128, 1, fun i => if i = 0 then 2 else 0, 0⟩⟩
    else ⟨5, 5, 0, shortFileHeader⟩
  nextOpenFile := 4
  freeMapFile := 0
  directoryFile := 1
  directorySize := 10
  held _ := false
  nextLock := 4
  heap _ := 0

theorem headerOf_shortFileSystem : headerOf shortFileSystem.disk [5] 0 = shortFileHeader := by
  refine RawFileHeader.ofSector_toSector ⟨by decide, by decide, fun i => ?_, fun i hi => ?_,
    by decide⟩
  · show (if i = 0 then 6 else if i = 1 then 7 else 0) < 2 ^ 32
    split_ifs <;> decide
  · have : 29 ≤ i := hi
    show (if i = 0 then 6 else if i = 1 then 7 else 0) = 0
    rw [if_neg (by omega), if_neg (by omega)]

theorem sectorCount_shortFileSystem : sectorCount shortFileSystem.disk [5] = 2 := by
  show numDirect * 0 + (headerOf shortFileSystem.disk [5] 0).numSectors = 2
  rw [headerOf_shortFileSystem]
  rfl

theorem dataSector_shortFileSystem {q : ℕ} (hq : q < 2) :
    dataSector shortFileSystem.disk [5] q = 6 + q := by
  have hq29 : q < numDirect := lt_of_lt_of_le hq (by decide)
  rw [dataSector, Nat.div_eq_of_lt hq29, Nat.mod_eq_of_lt hq29, headerOf_shortFileSystem]
  interval_cases q <;> rfl

theorem fileOk_shortFileSystem : FileOk shortFileSystem.disk [5] := by
  have hhdr := headerOf_shortFileSystem
  have hcount := sectorCount_shortFileSystem
  have hone : ∀ i, i < [5].length → i = 0 := by
    intro i hi
    exact Nat.lt_one_iff.mp hi
  refine ⟨⟨by decide, ?_, ?_, ?_, ?_, ?_, ?_⟩, ?_, ?_, ?_⟩
  · intro i hi
    rw [hone i hi, hhdr]
    refine ⟨by decide, by decide, fun j hj => ?_⟩
    have : j < 2 := hj
    interval_cases j <;> decide
  · intro i hi
    exact absurd (hone (i + 1) hi) (Nat.succ_ne_zero i)
  · intro i hi
    exact absurd (hone (i + 1) hi) (Nat.succ_ne_zero i)
  · show (headerOf shortFileSystem.disk [5] 0).nextFileHeader = 0
    rw [hhdr]
    rfl
  · intro i h0 hi
    rw [hone i hi] at h0
    exact absurd h0 (lt_irrefl 0)
  · intro i hi
    rw [hone i hi]
    decide
  · intro i j hi hj _
    rw [hone i hi, hone j hj]
  · intro q q' hq hq' heq
    rw [hcount] at hq hq'
    rw [dataSector_shortFileSystem hq, dataSector_shortFileSystem hq'] at heq
    omega
  · intro i q hi hq
    rw [hcount] at hq
    rw [hone i hi, dataSector_shortFileSystem hq]
    show 5 ≠ 6 + q
    omega

theorem fileLength_shortFileSystem : fileLength shortFileSystem.disk [5] = 200 := by
  show headerBytes * 0 + (headerOf shortFileSystem.disk [5] 0).numBytes = 200
  rw [headerOf_shortFileSystem]
  rfl

theorem mapOn_shortFileSystem : mapOn shortFileSystem.disk 2 = fun i => decide (i < 8) := by
  have hdisk : shortFileSystem.disk 2 = Bitmap.toBytes (fun i => decide (i < 8)) := by
    simp [shortFileSystem]
  rw [mapOn, hdisk, Bitmap.ofBytes_toBytes]

/-- The file is open for writing through every handle but the one of the free map. -/
theorem openForWriting_of_ne {handles : ℕ → Prop} (hne : ∀ f, handles f → f ≠ 0) :
    OpenForWriting shortFileSystem 2 [5] handles fun _ => 0 := by
  have hopen : ∀ f, handles f → shortFileSystem.openFile f = ⟨5, 5, 0, shortFileHeader⟩ :=
    fun f hf => if_neg (hne f hf)
  have howned : ∀ x, Owned shortFileSystem.disk [5] x → 5 ≤ x ∧ x < 8 := by
    rintro x (⟨i, hi, rfl⟩ | ⟨q, hq, rfl⟩)
    · rw [Nat.lt_one_iff.mp hi]
      decide
    · rw [sectorCount_shortFileSystem] at hq
      rw [dataSector_shortFileSystem hq]
      omega
  have hmap := mapOn_shortFileSystem
  refine ⟨⟨rfl, rfl, rfl, by decide⟩, ⟨fileOk_shortFileSystem, fun _ _ => rfl, fun x hx => ?_, ?_,
    fun h => ?_, ?_⟩, ⟨1, rfl, rfl⟩, hne, fun f hf => ?_, fun f hf => ?_⟩
  · rw [hmap]
    exact decide_eq_true (howned x hx).2
  · rw [hmap]
    rfl
  · exact absurd (howned 2 h).1 (by decide)
  · rw [hmap]
    rfl
  · rw [hopen f hf]
    rfl
  · rw [hopen f hf]
    exact ⟨0, by decide, rfl, rfl, Nat.zero_le _⟩

/-- Handle 3 alone. -/
theorem openForWriting_shortFileSystem :
    OpenForWriting shortFileSystem 2 [5] (fun f => f = 3) fun _ => 0 :=
  openForWriting_of_ne fun f hf => by omega

/-- Four calls of `Write`, through two handles. -/
def shortFileCalls : List WriteCall :=
  [⟨3, fun _ => 1, 150⟩, ⟨2, fun _ => 4, 60⟩, ⟨3, fun _ => 2, 5000⟩, ⟨2, fun _ => 3, 7⟩]

/-- The last `Read` comes at the end of the file. -/
theorem write_read_round_trip_shortFile :
    shortFileSystem.Ends (runWrites shortFileCalls) (fun results s' =>
      List.Forall₂ (fun k w => k ≤ w.numBytes) results shortFileCalls ∧
      ∃ hs', hs'.getD 0 0 = 5 ∧ FileOk s'.disk hs' ∧
        fileContent s'.disk hs' =
          evolve (fileContent shortFileSystem.disk [5]) (fun _ => 0) shortFileCalls results ∧
        (s'.Ends (openAndRead 5 [100, 4000, 4294960000, 4294967295])
          (fun pieces _ =>
            pieces = cut (fileContent s'.disk hs') [100, 4000, 4294960000, 4294967295]) ↔
          Readable (fileContent s'.disk hs').length 0 [100, 4000, 4294960000, 4294967295])) := by
  have hopen : OpenForWriting shortFileSystem 2 [5] (fun f => f = 2 ∨ f = 3) fun _ => 0 :=
    openForWriting_of_ne fun f hf => by omega
  exact write_read_round_trip hopen (by simp [shortFileCalls]) (by simp)

/-- **A `Read` that asks for too much.**  After a `Write` the file still has 200 bytes, of which
the second `Read` should return the last 100. -/
theorem read_loses_bytes :
    ¬ shortFileSystem.Ends (runWrites [⟨3, fun _ => 1, 10⟩]) (fun results s' =>
      ∃ hs', hs'.getD 0 0 = 5 ∧ FileOk s'.disk hs' ∧
        fileContent s'.disk hs' = evolve (fileContent shortFileSystem.disk [5]) (fun _ => 0)
          [⟨3, fun _ => 1, 10⟩] results ∧
        s'.Ends (openAndRead 5 [100, 4294967246])
          (fun pieces _ => pieces = cut (fileContent s'.disk hs') [100, 4294967246])) := by
  rintro ⟨results, s', hrun, hs', hhead, hf, hcontent, hread⟩
  have hwrites := (openForWriting_shortFileSystem.runWrites (by simp)).of_run hrun
  obtain ⟨k, rest, hk, hrest, rfl⟩ := List.forall₂_cons_right_iff.mp hwrites.1
  have hlen : fileLength s'.disk hs' = 200 := by
    have := congrArg List.length hcontent
    simp only [evolve, overwrite, List.length_append, List.length_take, List.length_drop,
      length_fileContent, fileLength_shortFileSystem, WriteCall.chunk, List.length_map,
      List.length_range] at this
    simp only at hk
    omega
  have hsizes : ∀ n ∈ [100, 4294967246], 0 < n ∧ n < 2 ^ 32 := by simp
  have hreadable := (openAndRead_iff hf hsizes).mp
    (by rw [hhead]; exact hread)
  rw [hlen] at hreadable
  have hbad : ¬ (min 200 (0 + 100) = 200 ∨ seekOf (min 200 (0 + 100)) + 4294967246 < 2 ^ 32) := by
    decide
  exact hbad hreadable.2.1

end PaldOs
