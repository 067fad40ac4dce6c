import PaldOs.RoundTrip
import PaldOs.UserMemory

/-! # The system call `Read`

`SC_READ` reads into a buffer of the kernel and has `WriteBufferToUser` copy it.  That stops
after a zero byte, so what was read behind one does not get to the program; and it is told
to copy as many bytes as were asked for, not as many as were read, so without a zero byte
among those read it goes on with whatever the buffer held.

`scRead_copies_iff` says for which bytes, buffers and user memories the program gets
exactly the bytes it is told of, and when a buffer comes back that is copied out and in.
-/
namespace PaldOs

open Sys

/-! ## The rest of the buffer -/

section Rest
variable {s : System} {f n : ℕ} {into : ℕ → UInt8}

theorem readNext_rest {fuel next result : ℕ} :
    s.Yields (OpenFile.readNext f fuel next into result n) (fun r _ =>
      result ≤ r.1 ∧ ∀ j, r.1 ≤ j → r.2 j = into j) := by
  induction fuel generalizing s next into result n with
  | zero => exact Prog.yields_bind.mpr yields_fail
  | succ fuel ih =>
    unfold OpenFile.readNext
    split
    · refine Prog.yields_bind.mpr fun _ _ _ => ?_
      refine Prog.yields_bind.mpr fun _ _ _ => ?_
      refine Prog.yields_bind.mpr fun _ _ _ => ?_
      refine Prog.yields_bind.mpr fun _ _ _ => ?_
      refine Prog.yields_bind.mpr fun read _ _ => ?_
      refine Prog.yields_bind.mpr fun _ _ _ => ?_
      refine Prog.yields_bind.mpr fun _ _ _ => ?_
      refine Prog.yields_bind.mpr fun _ _ _ => ?_
      refine ih.mono ?_
      rintro r _ ⟨hle, hrest⟩
      refine ⟨by omega, fun j hj => ?_⟩
      rw [hrest j hj]
      exact blit_outside (Or.inr (by omega))
    · exact Prog.yields_pure.mpr ⟨le_rfl, fun _ _ => rfl⟩

/-- `Read` leaves the buffer alone after the bytes it has read. -/
theorem read_rest {isDirectory : Bool} :
    s.Yields (OpenFile.read f into n isDirectory) (fun r _ => ∀ j, r.1 ≤ j → r.2 j = into j) := by
  unfold OpenFile.read
  refine Prog.yields_bind.mpr fun _ _ _ => ?_
  refine Prog.yields_bind.mpr fun _ _ _ => ?_
  refine Prog.yields_bind.mpr fun _ _ _ => ?_
  refine Prog.yields_bind.mpr fun read _ _ => ?_
  refine Prog.yields_bind.mpr fun _ _ _ => ?_
  refine Prog.yields_bind.mpr fun _ _ _ => ?_
  split
  · refine Prog.yields_bind.mpr fun _ _ _ => ?_
    refine readNext_rest.mono ?_
    rintro r _ ⟨hle, hrest⟩ j hj
    rw [hrest j hj]
    exact blit_outside (Or.inr (by omega))
  · refine Prog.yields_pure.mpr fun j hj => ?_
    exact blit_outside (Or.inr (by omega))

end Rest

/-! ## `SC_READ` -/

namespace Vm

/-- The case of `SC_READ`: register 2, and what the file system and the memory become.  `junk` is
what a new buffer holds, and `console` what is typed next. -/
def scRead (pick : Vm → Fin numPhysPages) (junk console : ℕ → UInt8)
    (openedFiles : Table (Option ℕ)) (usrStringAddr nbytes fid : ℤ) (s : System) (k : Vm) :
    Option (ℤ × System × Vm) := do
  if usrStringAddr = 0 then return (0, s, k)
  if nbytes ≤ 0 then return (0, s, k)
  if fid < 0 then return (0, s, k)
  let userAddress := (usrStringAddr % 2 ^ 32).toNat
  if fid = 0 then
    let buffer := blit junk 0 nbytes.toNat console
    let k ← writeBufferToUser pick buffer userAddress nbytes.toNat k
    return (nbytes, s, k)
  if ← openedFiles.hasKey fid then
    let file ← (← openedFiles.get fid)
    let ((bytesRead, buffer), s) ←
      (OpenFile.read file junk nbytes.toNat false).run System.act s
    if bytesRead = 0 then return (0, s, k)
    let k ← writeBufferToUser pick buffer userAddress nbytes.toNat k
    return (bytesRead, s, k)
  else return (0, s, k)

/-- **The program has got `count` bytes of `data` at address `a`**, and nothing else has changed in
any process. -/
def Received (k k' : Vm) (a count : ℕ) (data : ℕ → UInt8) : Prop :=
  ∀ h x, k.HasAddress h x → k'.userByte h x =
    if h = k.currentThread ∧ a ≤ x ∧ x < a + count then data (x - a) else k.userByte h x

/-- **What is copied is right.**  `memory` holds the user's bytes, of which `n` are asked for;
`count` bytes of `data` are read, to a buffer of `junk`.  All that was read after a zero byte
is in user memory already, and so is all that the buffer has after the bytes read, up to
its first zero byte. -/
def CopyRight (memory data junk : ℕ → UInt8) (n count : ℕ) : Prop :=
  count = 0 ∨
    (∀ i, i < count → (∃ z, z < i ∧ data z = 0) → memory i = data i) ∧
    ∀ i, count ≤ i → i < n → (∀ z, z < i → blit junk 0 count data z ≠ 0) → memory i = junk i

/-- When the bytes copied are those read. -/
theorem copied_eq_iff {memory data junk : ℕ → UInt8} {a n count : ℕ} (hcount : count ≤ n)
    {valid : ℕ → Prop} (hvalid : ∀ i, i < n → valid (a + i)) :
    (∀ x, valid x → copied memory (blit junk 0 count data) a n x =
        if a ≤ x ∧ x < a + count then data (x - a) else memory x) ↔
      (∀ i, i < count → (∃ z, z < i ∧ data z = 0) → memory (a + i) = data i) ∧
      ∀ i, count ≤ i → i < n → (∀ z, z < i → blit junk 0 count data z ≠ 0) →
        memory (a + i) = junk i := by
  have hread : ∀ z, z < count → blit junk 0 count data z = data z := by
    intro z hz
    rw [blit, if_pos (by omega), Nat.sub_zero]
  have hjunk : ∀ z, count ≤ z → blit junk 0 count data z = junk z :=
    fun z hz => blit_outside (Or.inr (by omega))
  have hcopied : ∀ i, i < n → copied memory (blit junk 0 count data) a n (a + i) =
      if ∀ z, z < i → blit junk 0 count data z ≠ 0 then blit junk 0 count data i
      else memory (a + i) := by
    intro i hi
    rw [copied, Nat.add_sub_cancel_left]
    refine if_congr ⟨fun h => h.2.2, fun h => ⟨by omega, by omega, h⟩⟩ rfl rfl
  constructor
  · intro h
    refine ⟨fun i hi hzero => ?_, fun i hi hn hnone => ?_⟩
    · obtain ⟨z, hz, hz0⟩ := hzero
      have hx := h (a + i) (hvalid i (by omega))
      rw [hcopied i (by omega), if_neg, if_pos (by omega), Nat.add_sub_cancel_left] at hx
      · exact hx
      · intro hall
        exact hall z hz ((hread z (by omega)).trans hz0)
    · have hx := h (a + i) (hvalid i hn)
      rw [hcopied i hn, if_pos hnone, if_neg (by omega), hjunk i hi] at hx
      exact hx.symm
  · rintro ⟨hzero, hnone⟩ x -
    by_cases hin : a ≤ x ∧ x < a + n
    · obtain ⟨i, rfl⟩ := Nat.exists_eq_add_of_le hin.1
      have hi : i < n := by omega
      rw [hcopied i hi, Nat.add_sub_cancel_left]
      by_cases hall : ∀ z, z < i → blit junk 0 count data z ≠ 0
      · rw [if_pos hall]
        by_cases hlt : i < count
        · rw [if_pos (by omega), hread i hlt]
        · rw [if_neg (by omega), hjunk i (by omega), hnone i (by omega) hi hall]
      · rw [if_neg hall]
        by_cases hlt : i < count
        · rw [if_pos (by omega)]
          push Not at hall
          obtain ⟨z, hz, hz0⟩ := hall
          exact hzero i hlt ⟨z, hz, (hread z (by omega)).symm.trans hz0⟩
        · rw [if_neg (by omega)]
    · have hout : ¬ (a ≤ x ∧ x < a + n ∧ ∀ z, z < x - a → blit junk 0 count data z ≠ 0) :=
        fun h => hin ⟨h.1, h.2.1⟩
      rw [copied, if_neg hout, if_neg (by omega)]

section Call
variable {pick : Vm → Fin numPhysPages} {k : Vm} {mem : ℕ → ℕ → UInt8} {a n : ℕ}

/-- **`SC_READ` on an open file.** -/
theorem scRead_ends (hi : FrameInv k none) (hc : Content k mem) (hr : k.HasRange a n)
    (ha : a ≠ 0) (hn : 0 < n) (hn' : n ≤ SystemCalls.lsdirOutput) {usrStringAddr fid : ℤ}
    (haddr : (usrStringAddr % 2 ^ 32).toNat = a) {openedFiles : Table (Option ℕ)} {f : ℕ}
    (hfid : 0 < fid) (hfile : SystemCalls.lookup openedFiles fid = some f) {s : System}
    {hs : List ℕ} {c : ℕ} (hf : FileOk s.disk hs) (hreads : ReadsAt s.disk hs (s.openFile f) c)
    (junk console : ℕ → UInt8) :
    ∃ s' k', scRead pick junk console openedFiles usrStringAddr n fid s k =
        some (((min n (fileLength s.disk hs - c) : ℕ) : ℤ), s', k') ∧
      (Received k k' a (min n (fileLength s.disk hs - c)) (fun i => fileByte s.disk hs (c + i)) ↔
        CopyRight (fun i => k.userByte k.currentThread (a + i))
          (fun i => fileByte s.disk hs (c + i)) junk n (min n (fileLength s.disk hs - c))) := by
  have hbytes : headerBytes = 3712 := rfl
  have hlsdir : SystemCalls.lsdirOutput = 200 := rfl
  have haddr0 : usrStringAddr ≠ 0 := by
    rintro rfl
    exact ha haddr.symm
  obtain ⟨hkey, hget⟩ : openedFiles.hasKey fid = some true ∧
      openedFiles.get fid = some (some f) := by
    rw [SystemCalls.lookup] at hfile
    split at hfile
    · rename_i hocc
      exact ⟨by rw [Table.hasKey, if_pos hocc.1, hocc.2], by
        rw [Table.get, if_pos hocc.1, if_pos hocc.2, hfile]⟩
    · cases hfile
  have hsum : seekOf c + n < 2 ^ 32 := by
    unfold seekOf
    rw [hbytes]
    omega
  obtain ⟨⟨count, buffer⟩, s', hrun, hcount, hdata, -⟩ :
      (s.writing f s.disk (s.openFile f)).Ends (OpenFile.read f junk n false) _ :=
    read_ends hf hreads hn (by omega) (Or.inr hsum)
  rw [System.writing_start] at hrun
  have hrest := read_rest _ _ hrun
  simp only at hcount hdata hrest
  rw [← hcount]
  -- the buffer has the bytes read, and after them what it had
  obtain rfl : buffer = blit junk 0 count fun i => fileByte s.disk hs (c + i) := by
    funext j
    by_cases hj : j < count
    · rw [hdata j hj, blit, if_pos (by omega), Nat.sub_zero]
    · rw [hrest j (by omega), blit_outside (Or.inr (by omega))]
  have hnpos : ¬ (n : ℤ) ≤ 0 := by omega
  have hcall : scRead pick junk console openedFiles usrStringAddr n fid s k =
      if count = 0 then some (0, s', k)
      else (writeBufferToUser pick (blit junk 0 count fun i => fileByte s.disk hs (c + i)) a n
        k).bind fun k => some ((count : ℤ), s', k) := by
    simp only [scRead, if_neg haddr0, if_neg hnpos, if_neg (show ¬ fid < 0 by omega),
      if_neg (show ¬ fid = 0 by omega), hkey, hget, Int.toNat_natCast, haddr,
      Option.bind_eq_bind, Option.bind_some, if_true, hrun, Option.pure_def]
  rw [hcall]
  by_cases hzero : count = 0
  · rw [if_pos hzero, hzero]
    refine ⟨s', k, rfl, iff_of_true (fun h x _ => ?_) (Or.inl rfl)⟩
    rw [if_neg (by omega)]
  · rw [if_neg hzero]
    obtain ⟨k', hwrite, -, -, -, hbyte⟩ := writeBufferToUser_ends hi hc hr ha hn hn'
      (blit junk 0 count fun i => fileByte s.disk hs (c + i))
    refine ⟨s', k', by rw [hwrite]; rfl, ?_⟩
    rw [CopyRight, or_iff_right hzero]
    refine Iff.trans ?_ (copied_eq_iff (by omega) hr)
    constructor
    · intro h x hx
      have := h _ x hx
      rw [hbyte _ x hx, if_pos rfl] at this
      rw [this]
      exact if_congr (and_iff_right rfl) rfl rfl
    · intro h t x hx
      rw [hbyte t x hx]
      by_cases ht : t = k.currentThread
      · subst ht
        rw [if_pos rfl, h x hx]
        exact if_congr (and_iff_right rfl).symm rfl rfl
      · rw [if_neg ht, if_neg fun h => ht h.1]

section Reachable
variable {data : ℤ → ℕ} {pageTable : ℕ → ℕ → TranslationEntry} {tlb : ℕ → TranslationEntry}
  {coreMap : ℕ → CoreMapEntry} {tr : List Event}

/-- **When `SC_READ` copies exactly what it reports**, in any state of memory that is reached: if
and only if `CopyRight`.  And a buffer that `WriteBufferToUser` copies out comes back from
`ReadBufferFromUser` if and only if each byte after a zero byte was in user memory already. -/
theorem scRead_copies_iff (hrun : Runs (fun _ k a => k.Allowed a ∧ a.Toolchain)
      (initial data pageTable tlb coreMap) tr k) (hr : k.HasRange a n) (ha : a ≠ 0) (hn : 0 < n)
    (hn' : n ≤ SystemCalls.lsdirOutput) :
    (∀ (usrStringAddr fid : ℤ) (openedFiles : Table (Option ℕ)) (f : ℕ) (s : System)
        (hs : List ℕ) (c : ℕ) (junk console : ℕ → UInt8),
      (usrStringAddr % 2 ^ 32).toNat = a → 0 < fid →
      SystemCalls.lookup openedFiles fid = some f → FileOk s.disk hs →
      ReadsAt s.disk hs (s.openFile f) c →
      ∃ s' k', scRead pick junk console openedFiles usrStringAddr n fid s k =
          some (((min n (fileLength s.disk hs - c) : ℕ) : ℤ), s', k') ∧
        (Received k k' a (min n (fileLength s.disk hs - c))
            (fun i => fileByte s.disk hs (c + i)) ↔
          CopyRight (fun i => k.userByte k.currentThread (a + i))
            (fun i => fileByte s.disk hs (c + i)) junk n (min n (fileLength s.disk hs - c)))) ∧
    ∀ (buffer : ℕ → UInt8) (temp : ℤ),
      ∃ k₁ k₂ outBuffer, writeBufferToUser pick buffer a n k = some k₁ ∧
        readBufferFromUser pick temp a n k₁ = some (outBuffer, k₂) ∧
        (outBuffer = (List.range n).map buffer ++ [0] ↔
          ∀ i, i < n → (∃ z, z < i ∧ buffer z = 0) →
            k.userByte k.currentThread (a + i) = buffer i) := by
  obtain ⟨hi, hc, -⟩ := hrun.simulates
  refine ⟨fun usrStringAddr fid openedFiles f s hs c junk console haddr hfid hfile hf hreads => ?_,
    fun buffer temp => ?_⟩
  · exact scRead_ends hi hc hr ha hn hn' haddr hfid hfile hf hreads junk console
  · exact copy_round_trip hi hc hr ha hn hn' buffer temp

end Reachable

end Call

/-! ### A file of zeros -/

theorem fileByte_shortFileSystem {p : ℕ} (hp : p < 200) :
    fileByte shortFileSystem.disk [5] p = 0 := by
  have hss : sectorSize = 128 := rfl
  have hq : p / sectorSize < 2 := by
    rw [hss]
    omega
  rw [fileByte, dataSector_shortFileSystem hq]
  generalize p / sectorSize = q
  have hfive : ¬ 6 + q = 5 := by omega
  have htwo : ¬ 6 + q = 2 := by omega
  simp only [shortFileSystem, if_neg hfive, if_neg htwo]

/-- The table of a process that has opened the file. -/
def oneFile : Table (Option ℕ) := ((SystemCalls.constructedFiles fun _ => none).add (some 3)).2

/-- The first frame is given up. -/
def firstFrame (_ : Vm) : Fin numPhysPages := ⟨0, by decide⟩

/-- A process is made, and a byte of its memory is set. -/
def markedRun : List Action :=
  [.newSpace 0 seventeenPages, .write 301 .byte 7 0, .write 301 .byte 7 0]

theorem play_markedRun :
    (play (fun k a => if decide (k.Allowed a ∧ a.Toolchain) = true then step k a else none) emit
      started markedRun).map (fun r => decide (r.2.currentThread = 0 ∧
        (r.2.space 0).map AddressSpace.numPages = some 17 ∧ r.2.userByte 0 301 = 7 ∧
        ∀ i : Fin 100, r.2.userByte 0 (400 + i) = 0)) = some true := by
  decide +kernel

/-- The state reached. -/
theorem markedRun_reached : ∃ tr k,
    Runs (fun _ k a => k.Allowed a ∧ a.Toolchain) started tr k ∧ k.currentThread = 0 ∧
      (∀ a, a < 2176 → k.HasAddress 0 a) ∧ k.userByte 0 301 = 7 ∧
      ∀ i, i < 100 → k.userByte 0 (400 + i) = 0 := by
  obtain ⟨r, hr, hlast⟩ := Option.map_eq_some_iff.mp play_markedRun
  have hrun : Runs (fun _ k a => k.Allowed a ∧ a.Toolchain) started r.1 r.2 :=
    (Run.start.play hr).of_restrict.mono fun _ _ _ h => of_decide_eq_true h
  obtain ⟨hcur, hpages, hbyte, hzero⟩ := of_decide_eq_true hlast
  obtain ⟨sp, hsp, hnum⟩ := Option.map_eq_some_iff.mp hpages
  refine ⟨r.1, r.2, hrun, hcur, fun a ha => ⟨sp, hsp, ?_⟩, hbyte, fun i hi => hzero ⟨i, hi⟩⟩
  rw [hnum]
  exact ha

theorem readsAt_shortFileSystem :
    ReadsAt shortFileSystem.disk [5] (shortFileSystem.openFile 3) 0 :=
  ⟨0, by decide, headerOf_shortFileSystem.symm, rfl, Nat.zero_le _, fun _ => Or.inl rfl⟩

/-- The same file, with letters in it. -/
def lettersFileSystem : System :=
  { shortFileSystem with
    disk x := if 6 ≤ x then fun _ => 65 else shortFileSystem.disk x }

theorem headers_lettersFileSystem : ∀ i, i < [5].length →
    headerOf lettersFileSystem.disk [5] i = headerOf shortFileSystem.disk [5] i := by
  intro i hi
  obtain rfl := Nat.lt_one_iff.mp hi
  rfl

theorem fileLength_lettersFileSystem : fileLength lettersFileSystem.disk [5] = 200 :=
  (fileLength_congr (by decide) headers_lettersFileSystem).trans fileLength_shortFileSystem

theorem fileByte_lettersFileSystem {p : ℕ} (hp : p < 200) :
    fileByte lettersFileSystem.disk [5] p = 65 := by
  have hss : sectorSize = 128 := rfl
  have hq : p / sectorSize < 2 := by
    rw [hss]
    omega
  have hsector : dataSector lettersFileSystem.disk [5] (p / sectorSize) = 6 + p / sectorSize :=
    (fileOk_shortFileSystem.dataSector_congr headers_lettersFileSystem
      (by rw [sectorCount_shortFileSystem]; exact hq)).trans (dataSector_shortFileSystem hq)
  rw [fileByte, hsector]
  simp only [lettersFileSystem, if_pos (Nat.le_add_right 6 _)]

theorem readsAt_lettersFileSystem :
    ReadsAt lettersFileSystem.disk [5] (lettersFileSystem.openFile 3) 0 :=
  ⟨0, by decide, ((headers_lettersFileSystem 0 (by decide)).trans headerOf_shortFileSystem).symm,
    rfl, Nat.zero_le _, fun _ => Or.inl rfl⟩

/-- A hundred letters are read over a hundred zeros; and letters come back. -/
theorem scRead_copies_iff_letters : ∃ tr k s' k',
    Runs (fun _ k a => k.Allowed a ∧ a.Toolchain) started tr k ∧ k.HasRange 400 100 ∧
      (∀ i, i < 100 → k.userByte 0 (400 + i) = 0) ∧
      scRead firstFrame (fun _ => 1) (fun _ => 1) oneFile 400 100 2 lettersFileSystem k =
        some (100, s', k') ∧
      Received k k' 400 100 (fun i => fileByte lettersFileSystem.disk [5] (0 + i)) ∧
      (∀ i, i < 100 → k'.userByte 0 (400 + i) = 65) ∧
      ∃ k₁ k₂, writeBufferToUser firstFrame (fun _ => 66) 400 100 k = some k₁ ∧
        readBufferFromUser firstFrame 0 400 100 k₁ =
          some ((List.range 100).map (fun _ => 66) ++ [0], k₂) := by
  obtain ⟨tr, k, hrun, hcur, haddr, -, hzero⟩ := markedRun_reached
  have hr : k.HasRange 400 100 := by
    intro i hi
    rw [hcur]
    exact haddr _ (by omega)
  obtain ⟨s', k', hcall, hiff⟩ : ∃ s' k', scRead firstFrame (fun _ => 1) (fun _ => 1) oneFile 400
      (100 : ℕ) 2 lettersFileSystem k = some (_, s', k') ∧ _ :=
    (scRead_copies_iff hrun hr (by decide) (by decide) (by decide)).1 400 2 oneFile 3
      lettersFileSystem [5] 0 (fun _ => 1) (fun _ => 1) rfl (by decide) rfl
      (fileOk_shortFileSystem.of_headers headers_lettersFileSystem) readsAt_lettersFileSystem
  have hcount : min 100 (fileLength lettersFileSystem.disk [5] - 0) = 100 := by
    rw [fileLength_lettersFileSystem]
    rfl
  rw [hcount] at hcall hiff
  obtain ⟨k₁, k₂, outBuffer, hwrite, hget, hout⟩ : ∃ k₁ k₂ outBuffer,
      writeBufferToUser firstFrame (fun _ => 66) 400 100 k = some k₁ ∧ _ :=
    (scRead_copies_iff hrun hr (by decide) (by decide) (by decide)).2 (fun _ => 66) 0
  have hletters := hout.mpr fun i _ ⟨z, _, hz⟩ => absurd hz (by decide)
  rw [hletters] at hget
  have hdata : ∀ i, i < 100 → fileByte lettersFileSystem.disk [5] (0 + i) = 65 :=
    fun i hi => fileByte_lettersFileSystem (by omega)
  have hreceived := hiff.mpr (Or.inr ⟨fun i hi ⟨z, hz, hzero'⟩ => ?_, fun i hi hi' => ?_⟩)
  · refine ⟨tr, k, s', k', hrun, hr, hzero, hcall, hreceived, fun i hi => ?_, k₁, k₂, hwrite, hget⟩
    rw [hreceived 0 (400 + i) (haddr _ (by omega)), if_pos ⟨hcur.symm, by omega, by omega⟩,
      Nat.add_sub_cancel_left]
    exact hdata i hi
  · exact absurd ((hdata z (by omega)).symm.trans hzero') (by decide)
  · omega

/-- **A byte behind a zero.**  Two zeros are read, and the program is told so, but the second of
the bytes at 300 stays 7. -/
theorem scRead_loses_bytes : ∃ tr k s' k',
    Runs (fun _ k a => k.Allowed a ∧ a.Toolchain) started tr k ∧
      scRead firstFrame (fun _ => 1) (fun _ => 1) oneFile 300 2 2 shortFileSystem k =
        some (2, s', k') ∧
      ¬ Received k k' 300 2 (fun i => fileByte shortFileSystem.disk [5] (0 + i)) := by
  obtain ⟨tr, k, hrun, hcur, haddr, hseven, -⟩ := markedRun_reached
  obtain ⟨hi, hc, -⟩ := hrun.simulates
  have hr : k.HasRange 300 2 := by
    intro i hi
    rw [hcur]
    exact haddr _ (by omega)
  obtain ⟨s', k', hcall, hiff⟩ : ∃ s' k', scRead firstFrame (fun _ => 1) (fun _ => 1) oneFile 300
      (2 : ℕ) 2 shortFileSystem k = some (_, s', k') ∧ _ :=
    scRead_ends hi hc hr (by decide) (by decide) (by decide) rfl (by decide) rfl
      fileOk_shortFileSystem readsAt_shortFileSystem (fun _ => 1) fun _ => 1
  have hcount : min 2 (fileLength shortFileSystem.disk [5] - 0) = 2 := by
    rw [fileLength_shortFileSystem]
    rfl
  rw [hcount] at hcall hiff
  refine ⟨tr, k, s', k', hrun, hcall, fun h => ?_⟩
  rcases hiff.mp h with h0 | ⟨hzero, -⟩
  · cases h0
  · have hbyte : k.userByte k.currentThread 301 = fileByte shortFileSystem.disk [5] (0 + 1) :=
      hzero 1 (by decide) ⟨0, by decide, fileByte_shortFileSystem (by decide)⟩
    rw [hcur, hseven, fileByte_shortFileSystem (by decide)] at hbyte
    cases hbyte

end Vm
end PaldOs
