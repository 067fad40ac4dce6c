import Mathlib.Data.List.Nodup
import PaldOs.FileWrite

/-! # Reading a file

`Read` through a handle that only reads: its header in memory is one of the headers of
the file, and its seek position counts from there.  The bytes come in order, across the
headers, and at the end of the file there are no more.

The sum of the seek position and the number of bytes asked for is an `unsigned`.  If it
is `2 ^ 32` or more and bytes are left, `Read` takes it for a small number and does not
return those bytes.
-/
namespace PaldOs

open Sys

/-! ## Opening -/

/-- The entry has its locks. -/
structure OpenFileEntry.HasLocks (e : OpenFileEntry) : Prop where
  write : ∃ l, e.writeLock = some l
  remove : ∃ l, e.removeLock = some l
  close : ∃ l, e.closeLock = some l

/-- The file whose first header is in `sector` was opened, as `f`. -/
structure Opens (s : System) (sector f : ℕ) (s' : System) : Prop where
  handle : f = s.nextOpenFile
  disk : s'.disk = s.disk
  openFile : s'.openFile = Function.update s.openFile f ⟨sector, sector, 0, headerOn s.disk sector⟩
  next : s'.nextOpenFile = s.nextOpenFile + 1
  freeMapFile : s'.freeMapFile = s.freeMapFile
  directoryFile : s'.directoryFile = s.directoryFile
  directorySize : s'.directorySize = s.directorySize
  other : ∀ x, x ≠ sector → s'.openFilesTable x = s.openFilesTable x
  count : (s'.openFilesTable sector).count = (s.openFilesTable sector).count + 1
  removing : (s'.openFilesTable sector).removing = (s.openFilesTable sector).removing
  removed : (s'.openFilesTable sector).removed = (s.openFilesTable sector).removed
  locks : ((s.openFilesTable sector).count ≠ 0 → (s.openFilesTable sector).HasLocks) →
    (s'.openFilesTable sector).HasLocks
  held : ∀ l, s.held l = false → s'.held l = false

theorem System.putHeld_false {s : System} {l l' : ℕ} (h : s.held l = false) :
    (s.putHeld l' false).held l = false := by
  by_cases hl : l = l'
  · rw [hl]
    exact Function.update_self ..
  · exact (Function.update_of_ne hl ..).trans h

/-- A lock that is there is kept, and a new one is free. -/
theorem lockOrNew_ends {s : System} {lock : Option ℕ} :
    s.Ends (OpenFile.lockOrNew lock) (fun _ s' => ∃ held next, s' = { s with
      held := held
      nextLock := next } ∧ ∀ l, s.held l = false → held l = false) := by
  cases lock with
  | some l =>
    simp only [OpenFile.lockOrNew, Prog.ends_pure]
    exact ⟨s.held, s.nextLock, rfl, fun _ h => h⟩
  | none =>
    simp only [OpenFile.lockOrNew, ends_newLock]
    exact ⟨_, _, rfl, fun _ h => System.putHeld_false h⟩

/-- **A file can always be opened.** -/
theorem make_ends {s : System} {sector : ℕ} (hlt : sector < numSectors) :
    s.Ends (OpenFile.make sector) (Opens s sector) := by
  unfold OpenFile.make OpenFile.makeLocks
  simp only [Prog.ends_bind, ends_readSector, ends_getEntry]
  refine ⟨hlt, ?_⟩
  by_cases hcount : (s.openFilesTable sector).count = 0
  · rw [if_pos hcount]
    simp only [Prog.ends_bind, ends_newLock]
    refine lockOrNew_ends.mono ?_
    rintro removeLock _ ⟨held, next, rfl, hheld⟩
    refine lockOrNew_ends.mono ?_
    rintro closeLock _ ⟨held', next', rfl, hheld'⟩
    simp only [ends_setEntry, ends_newOpenFile, System.putEntry, Function.update_self]
    refine ⟨rfl, rfl, rfl, rfl, rfl, rfl, rfl, fun x hx => ?_, ?_, ?_, ?_, fun _ => ?_,
      fun l hl => ?_⟩
    · simp only [System.putOpenFile, Function.update_of_ne hx]
      rfl
    all_goals simp only [System.putOpenFile, Function.update_self]
    · exact ⟨⟨_, rfl⟩, ⟨_, rfl⟩, ⟨_, rfl⟩⟩
    · exact hheld' l (hheld l (System.putHeld_false hl))
  · rw [if_neg hcount]
    simp only [Prog.ends_pure, ends_setEntry, ends_newOpenFile, System.putEntry]
    refine ⟨rfl, rfl, rfl, rfl, rfl, rfl, rfl, fun x hx => ?_, ?_, ?_, ?_, fun hold => ?_,
      fun l hl => hl⟩
    · simp only [System.putOpenFile, Function.update_of_ne hx]
    all_goals simp only [System.putOpenFile, Function.update_self]
    obtain ⟨h1, h2, h3⟩ := hold hcount
    exact ⟨h1, h2, h3⟩

/-! ## `Read` -/

/-- The next byte that `o` reads is byte `p` of the file.  A header is entered to read from
it, so the seek position is 0 only at the start of the file, or at the end in a header
without bytes. -/
def ReadsAt (disk : ℕ → Sector) (hs : List ℕ) (o : OpenFile) (p : ℕ) : Prop :=
  ∃ i, i < hs.length ∧ o.hdr = headerOf disk hs i ∧ p = headerBytes * i + o.seekPosition ∧
    o.seekPosition ≤ (headerOf disk hs i).numBytes ∧
    (o.seekPosition = 0 → i = 0 ∨ p = fileLength disk hs)

section Read
variable {s : System} {f : ℕ} {disk : ℕ → Sector} {hs : List ℕ} {o : OpenFile} {c n : ℕ}

theorem ChainOk.header_end_le (hf : ChainOk disk hs) {i : ℕ} (hi : i < hs.length) :
    headerBytes * i + (headerOf disk hs i).numBytes ≤ fileLength disk hs := by
  have hbytes : headerBytes = 3712 := rfl
  have hle := (hf.headers i hi).numBytes_le
  unfold fileLength
  by_cases hi' : i = hs.length - 1
  · rw [← hi']
  · rw [hbytes] at hle ⊢
    omega

/-- Header `i` does not reach the end of the file only if there is a next one. -/
theorem ChainOk.header_end_lt (hf : ChainOk disk hs) {i : ℕ} (hi : i < hs.length)
    (h : headerBytes * i + (headerOf disk hs i).numBytes < fileLength disk hs) :
    i + 1 < hs.length ∧ (headerOf disk hs i).numBytes = headerBytes := by
  have hi' : i + 1 < hs.length := by
    by_contra hge
    obtain rfl : i = hs.length - 1 := by omega
    unfold fileLength at h
    omega
  exact ⟨hi', hf.full i hi'⟩

/-- A file has no more headers than the disk has sectors. -/
theorem FileOk.length_le (hf : FileOk disk hs) : hs.length ≤ numSectors := by
  have hnodup : hs.Nodup := by
    refine List.nodup_iff_injective_getElem.mpr fun i j hij => Fin.ext ?_
    refine hf.heads_distinct i j i.isLt j.isLt ?_
    rw [List.getD_eq_getElem _ _ i.isLt, List.getD_eq_getElem _ _ j.isLt]
    exact hij
  have hsub : hs ⊆ List.range numSectors := by
    intro x hx
    obtain ⟨i, hi, rfl⟩ := List.mem_iff_getElem.mp hx
    rw [← List.getD_eq_getElem hs 0 hi]
    exact List.mem_range.mpr (hf.heads_lt i hi)
  have hle := hnodup.length_le_of_subset hsub
  rwa [List.length_range] at hle

/-- `ReadAt` at the seek position, in header `i`. -/
theorem readAt_header (hf : FileOk disk hs) {i : ℕ} (hi : i < hs.length)
    (ho : o.hdr = headerOf disk hs i) (hn : 0 < n) (hsum : o.seekPosition + n < 2 ^ 32) :
    (s.writing f disk o).Ends (OpenFile.readAt f n o.seekPosition) (fun r s' =>
      s' = s.writing f disk o ∧
      r.1 = min n ((headerOf disk hs i).numBytes - o.seekPosition) ∧
      ∀ j, j < r.1 → r.2 j = fileByte disk hs (headerBytes * i + o.seekPosition + j)) := by
  have hhdr : ((s.writing f disk o).openFile f).hdr = headerOf disk hs i := by
    rw [System.writing_self, ho]
  have hok := hf.headers i hi
  have hle := hok.numBytes_le
  rw [← hhdr] at hok
  refine (readAt_ends hok hn hsum).mono ?_
  rintro ⟨r, data⟩ _ ⟨rfl, hr, hdata⟩
  rw [hhdr] at hr hdata
  refine ⟨rfl, hr, fun j hj => ?_⟩
  simp only at hr hdata hj ⊢
  rw [hdata j hj, Nat.add_assoc, fileByte_header (by omega)]
  rfl

/-- **The loop of `Read`**: the headers after header `i`, all of which has been read. -/
theorem readNext_ends (hf : FileOk disk hs) {fuel i result : ℕ} {into : ℕ → UInt8}
    (hi : i < hs.length) (ho : o.hdr = headerOf disk hs i)
    (hseek : o.seekPosition = (headerOf disk hs i).numBytes)
    (hpos : c + result = headerBytes * i + o.seekPosition)
    (hzero : o.seekPosition = 0 → i = 0 ∨ c + result = fileLength disk hs)
    (hinto : ∀ j, j < result → into j = fileByte disk hs (c + j)) (hn : n < 2 ^ 32)
    (hfuel : hs.length < fuel + i) :
    (s.writing f disk o).Ends
      (OpenFile.readNext f fuel (headerOf disk hs i).nextFileHeader into result n) (fun r s' =>
        r.1 = result + min n (fileLength disk hs - (c + result)) ∧
        (∀ j, j < r.1 → r.2 j = fileByte disk hs (c + j)) ∧
        ∃ o', s' = s.writing f disk o' ∧ ReadsAt disk hs o' (c + r.1)) := by
  have hbytes : headerBytes = 3712 := rfl
  induction fuel generalizing i result into n o with
  | zero => omega
  | succ fuel ih =>
    simp only [OpenFile.readNext]
    have hend := hf.header_end_le hi
    by_cases hgo : (headerOf disk hs i).nextFileHeader ≠ 0 ∧ 0 < n
    · rw [if_pos hgo]
      have hi' : i + 1 < hs.length := by
        by_contra hge
        obtain rfl : i = hs.length - 1 := by omega
        exact hgo.1 hf.last
      rw [hf.next i hi']
      simp only [OpenFile.fetchHeader, Prog.ends_bind, ends_getOpenFile, ends_setOpenFile,
        ends_readSector, System.writing_self, System.writing_putOpenFile, System.writing_disk]
      refine ⟨hf.heads_lt _ hi', ?_⟩
      refine (readAt_header (o := ⟨o.sector, o.currentSector, 0,
        headerOf disk hs (i + 1)⟩) hf hi' rfl
        hgo.2 (by simpa using hn)).mono ?_
      rintro ⟨r, data⟩ _ ⟨rfl, hr, hdata⟩
      simp only [Nat.sub_zero, Nat.add_zero] at hr hdata
      have hfull := hf.full i hi'
      have hend' := hf.header_end_le hi'
      have hle' := (hf.headers _ hi').numBytes_le
      have hpos' : c + result = headerBytes * (i + 1) := by
        rw [hpos, hseek, hfull, hbytes]
        omega
      have hr32 : (0 + r) % 2 ^ 32 = r := by omega
      simp only [System.writing_self, System.writing_putOpenFile, hr32]
      have hinto' : ∀ j, j < result + r → blit into result r data j = fileByte disk hs (c + j) := by
        intro j hj
        by_cases hold : j < result
        · rw [blit_outside (Or.inl hold)]
          exact hinto j hold
        · obtain ⟨l, rfl⟩ := Nat.exists_eq_add_of_le (Nat.le_of_not_lt hold)
          rw [blit_add (by omega), hdata l (by omega), ← hpos', Nat.add_assoc]
      have hzero' : r = 0 → i + 1 = 0 ∨ c + (result + r) = fileLength disk hs := by
        intro h0
        right
        by_contra hne
        have := (hf.header_end_lt hi' (by omega)).2
        omega
      by_cases hmore : n ≤ r
      · -- all bytes are read, in this header
        obtain rfl : n = r := by omega
        cases fuel with
        | zero => omega
        | succ fuel =>
          simp only [OpenFile.readNext]
          rw [if_neg (by omega)]
          simp only [Prog.ends_pure]
          refine ⟨by omega, hinto', _, rfl, i + 1, hi', rfl, ?_, ?_, hzero'⟩
          · simp only
            omega
          · simp only
            omega
      · refine (ih (o := ⟨o.sector, o.currentSector, r, headerOf disk hs (i + 1)⟩)
          (n := n - r) hi' rfl ?_ ?_ hzero' hinto' (by omega)
          (by omega)).mono ?_
        · simp only
          omega
        · simp only
          omega
        · rintro ⟨r', into'⟩ s' ⟨h1, h2, h3⟩
          refine ⟨?_, h2, h3⟩
          simp only at h1 ⊢
          omega
    · rw [if_neg hgo]
      simp only [Prog.ends_pure]
      have hstop : min n (fileLength disk hs - (c + result)) = 0 := by
        by_contra hne
        have := (hf.header_end_lt hi (by omega)).1
        refine hgo ⟨?_, by omega⟩
        rw [hf.next i this]
        exact hf.nonzero _ (by omega) this
      rw [hstop, Nat.add_zero]
      exact ⟨rfl, hinto, o, rfl, i, hi, ho, hpos, hseek.le, hzero⟩

/-- The seek position of a handle that reads byte `c` next. -/
def seekOf (c : ℕ) : ℕ := c - headerBytes * ((c - 1) / headerBytes)

theorem ReadsAt.seek_eq (hr : ReadsAt disk hs o c) (hf : FileOk disk hs)
    (hc : c < fileLength disk hs) : o.seekPosition = seekOf c := by
  have hbytes : headerBytes = 3712 := rfl
  obtain ⟨i, hi, -, hpos, hseek, hzero⟩ := hr
  have hle := (hf.headers i hi).numBytes_le
  unfold seekOf
  rw [hbytes] at hpos hle ⊢
  have hdiv : 3712 * ((c - 1) / 3712) = 3712 * i := by
    by_cases h0 : o.seekPosition = 0
    · have := hzero h0
      omega
    · omega
  omega

/-- **`Read` returns the next bytes of the file**, as many as it is asked for and there
are. -/
theorem read_ends (hf : FileOk disk hs) (hr : ReadsAt disk hs o c) (hn : 0 < n) (hn' : n < 2 ^ 32)
    (hsum : c = fileLength disk hs ∨ seekOf c + n < 2 ^ 32) {into : ℕ → UInt8} :
    (s.writing f disk o).Ends (OpenFile.read f into n false) (fun r s' =>
      r.1 = min n (fileLength disk hs - c) ∧
      (∀ j, j < r.1 → r.2 j = fileByte disk hs (c + j)) ∧
      ∃ o', s' = s.writing f disk o' ∧ ReadsAt disk hs o' (c + r.1)) := by
  have hbytes : headerBytes = 3712 := rfl
  have hr₀ := hr
  obtain ⟨i, hi, ho, hpos, hseek, hzero⟩ := hr
  have hend := hf.header_end_le hi
  have hle := (hf.headers i hi).numBytes_le
  unfold OpenFile.read OpenFile.rewindRead
  simp only [Prog.ends_bind, ends_assert, ends_getOpenFile, System.writing_self, Bool.false_eq_true,
    if_false, Prog.ends_pure]
  refine ⟨hn, ?_⟩
  by_cases hno : o.seekPosition + n < 2 ^ 32
  · refine (readAt_header hf hi ho hn hno).mono ?_
    rintro ⟨r, data⟩ _ ⟨rfl, hr, hdata⟩
    simp only at hr hdata
    have hseek32 : (o.seekPosition + r) % 2 ^ 32 = o.seekPosition + r := by omega
    simp only [ends_setOpenFile, System.writing_self, System.writing_putOpenFile, hseek32,
      Nat.mod_eq_of_lt hno, ho]
    have hinto : ∀ j, j < r → blit into 0 r data j = fileByte disk hs (c + j) := by
      intro j hj
      rw [blit, if_pos (by omega), Nat.sub_zero, hdata j hj, hpos]
    by_cases hmore : (headerOf disk hs i).numBytes < o.seekPosition + n
    · rw [if_pos hmore]
      simp only [Prog.ends_bind, ends_getOpenFile, System.writing_self]
      have hlen := hf.length_le
      refine (readNext_ends (o := ⟨o.sector, o.currentSector, o.seekPosition + r,
        headerOf disk hs i⟩) hf hi rfl ?_ ?_ ?_ hinto (by omega) (by omega)).mono ?_
      · simp only
        omega
      · simp only
        omega
      · simp only
        intro h0
        rcases hzero (by omega) with h | h
        · exact Or.inl h
        · right
          omega
      · rintro ⟨r', into'⟩ s' ⟨h1, h2, h3⟩
        refine ⟨?_, h2, h3⟩
        simp only at h1 ⊢
        omega
    · rw [if_neg hmore]
      simp only [Prog.ends_pure]
      refine ⟨by omega, hinto, _, rfl, i, hi, rfl, ?_, ?_, fun h0 => ?_⟩
      · simp only
        omega
      · simp only
        omega
      · simp only at h0
        omega
  · -- the sum is too large: then there is nothing left to read
    have hc : c = fileLength disk hs := by
      by_contra hne
      have := hr₀.seek_eq hf (by omega)
      omega
    have hat : (headerOf disk hs i).numBytes = o.seekPosition := by omega
    unfold OpenFile.readAt
    simp only [Prog.ends_bind, ends_assert, ends_getOpenFile, System.writing_self, ho, hat]
    refine ⟨hn, ?_⟩
    rw [if_pos le_rfl]
    have hsmall : ¬ o.seekPosition < (o.seekPosition + n) % 2 ^ 32 := by omega
    have hseek32 : (o.seekPosition + 0) % 2 ^ 32 = o.seekPosition := by omega
    simp only [Prog.ends_pure, ends_setOpenFile, System.writing_self, System.writing_putOpenFile,
      hseek32, if_neg hsmall]
    refine ⟨by omega, fun j hj => absurd hj (Nat.not_lt_zero j), o, rfl, i, hi, ho, hpos, hseek,
      hzero⟩

/-- **A sum that is too large.**  While bytes are left, `Read` does not return them. -/
theorem read_overflow (hf : FileOk disk hs) (hr : ReadsAt disk hs o c) (hn' : n < 2 ^ 32)
    (hc : c < fileLength disk hs) (hsum : 2 ^ 32 ≤ seekOf c + n) {into : ℕ → UInt8} :
    ¬ (s.writing f disk o).Ends (OpenFile.read f into n false)
      (fun r _ => r.1 = min n (fileLength disk hs - c)) := by
  intro h
  have hbytes : headerBytes = 3712 := rfl
  have hns : numSectors = 1024 := rfl
  rw [← hr.seek_eq hf hc] at hsum
  obtain ⟨i, hi, ho, hpos, hseek, hzero⟩ := hr
  have hle := (hf.headers i hi).numBytes_le
  have hshort : fileLength disk hs < n := by
    have h1 := hf.length_le
    have h2 := hf.pos
    have h3 := (hf.headers (hs.length - 1) (by omega)).numBytes_le
    unfold fileLength
    rw [hbytes] at h3 hle ⊢
    omega
  have hsmall : ¬ (headerOf disk hs i).numBytes < (o.seekPosition + n) % 2 ^ 32 := by omega
  unfold OpenFile.read OpenFile.rewindRead OpenFile.readAt at h
  simp only [Prog.ends_bind, ends_assert, ends_getOpenFile, System.writing_self, Bool.false_eq_true,
    if_false, Prog.ends_pure, ho, if_neg hsmall] at h
  obtain ⟨-, -, h⟩ := h
  by_cases hat : (headerOf disk hs i).numBytes ≤ o.seekPosition
  · -- the header is read already, and the next one is not looked at
    rw [if_pos hat] at h
    simp only [Prog.ends_pure, ends_setOpenFile] at h
    omega
  · -- all the bytes asked for are copied, from memory past the buffer
    rw [if_neg hat] at h
    simp only [Prog.ends_bind] at h
    obtain ⟨buf, s', -, h⟩ := h
    simp only [ends_assert, Prog.ends_pure, ends_setOpenFile] at h
    omega

end Read

/-! ## What `Read` leaves -/

section Leaves
variable {s : System} {f : ℕ}

theorem readSectors_yields {buf : ℕ → UInt8} {offset i n : ℕ} :
    s.Yields (OpenFile.readSectors f buf offset i n) (fun _ s' => s' = s) := by
  induction n generalizing buf offset i with
  | zero => exact Prog.yields_pure.mpr rfl
  | succ n ih =>
    unfold OpenFile.readSectors
    refine Prog.yields_bind.mpr (yields_getOpenFile.mpr ?_)
    refine Prog.yields_bind.mpr (yields_readSector.mpr fun _ => ?_)
    exact ih

/-- `ReadAt` changes nothing. -/
theorem readAt_yields {n position : ℕ} :
    s.Yields (OpenFile.readAt f n position) (fun _ s' => s' = s) := by
  unfold OpenFile.readAt
  refine Prog.yields_bind.mpr (yields_assert.mpr fun _ => ?_)
  refine Prog.yields_bind.mpr (yields_getOpenFile.mpr ?_)
  dsimp only
  split
  · exact Prog.yields_pure.mpr rfl
  · refine Prog.yields_bind.mpr (readSectors_yields.mono ?_)
    rintro _ _ rfl
    refine Prog.yields_bind.mpr (yields_assert.mpr fun _ => ?_)
    exact Prog.yields_pure.mpr rfl

/-- The state after a `Read`: the position and the header of the open file are others. -/
def Rereads (s : System) (f : ℕ) (s' : System) : Prop :=
  ∃ o, s' = s.writing f s.disk o ∧ o.sector = (s.openFile f).sector ∧
    o.currentSector = (s.openFile f).currentSector

theorem Rereads.put {s' : System} (h : Rereads s f s') {o : OpenFile}
    (hs : o.sector = (s'.openFile f).sector)
    (hc : o.currentSector = (s'.openFile f).currentSector) :
    Rereads s f (s'.putOpenFile f o) := by
  obtain ⟨o', rfl, h1, h2⟩ := h
  rw [System.writing_self] at hs hc
  exact ⟨o, System.writing_putOpenFile .., hs.trans h1, hc.trans h2⟩

theorem Rereads.seek {s' : System} (h : Rereads s f s') (position : ℕ) :
    Rereads s f (s'.putOpenFile f { s'.openFile f with seekPosition := position }) :=
  h.put rfl rfl

theorem Rereads.fetchHeader {s' : System} (h : Rereads s f s') {sector : ℕ} :
    s'.Yields (OpenFile.fetchHeader f sector) (fun _ s'' => Rereads s f s'') := by
  unfold OpenFile.fetchHeader
  refine Prog.yields_bind.mpr (yields_readSector.mpr fun _ => ?_)
  refine Prog.yields_bind.mpr (yields_getOpenFile.mpr ?_)
  exact yields_setOpenFile.mpr (h.put rfl rfl)

theorem readNext_yields {s' : System} (h : Rereads s f s') {fuel nextSector result n : ℕ}
    {into : ℕ → UInt8} :
    s'.Yields (OpenFile.readNext f fuel nextSector into result n) (fun r s'' =>
      (result ≤ r.1 ∧ ∀ j, r.1 ≤ j → r.2 j = into j) ∧ Rereads s f s'') := by
  induction fuel generalizing s' nextSector result n into with
  | zero =>
    exact Prog.yields_bind.mpr yields_fail
  | succ fuel ih =>
    unfold OpenFile.readNext
    split
    · refine Prog.yields_bind.mpr (yields_getOpenFile.mpr ?_)
      refine Prog.yields_bind.mpr (yields_setOpenFile.mpr ?_)
      refine Prog.yields_bind.mpr ((h.seek 0).fetchHeader.mono fun _ s₁ h₁ => ?_)
      refine Prog.yields_bind.mpr (yields_getOpenFile.mpr ?_)
      refine Prog.yields_bind.mpr (readAt_yields.mono ?_)
      rintro ⟨k, data⟩ _ rfl
      refine Prog.yields_bind.mpr (yields_getOpenFile.mpr ?_)
      refine Prog.yields_bind.mpr (yields_setOpenFile.mpr ?_)
      refine Prog.yields_bind.mpr (yields_getOpenFile.mpr ?_)
      refine (ih (h₁.seek _)).mono ?_
      rintro r s₂ ⟨⟨hle, hrest⟩, h₂⟩
      refine ⟨⟨by omega, fun j hj => ?_⟩, h₂⟩
      rw [hrest j hj, blit_outside (Or.inr (by omega))]
    · exact Prog.yields_pure.mpr ⟨⟨le_rfl, fun _ _ => rfl⟩, h⟩

theorem rewindRead_yields {isDirectory : Bool} :
    s.Yields (OpenFile.rewindRead f isDirectory) (fun _ s' => Rereads s f s') := by
  have hself : Rereads s f s := ⟨s.openFile f, (s.writing_start f).symm, rfl, rfl⟩
  unfold OpenFile.rewindRead
  split
  · refine Prog.yields_bind.mpr (yields_getOpenFile.mpr ?_)
    refine Prog.yields_bind.mpr (hself.fetchHeader.mono fun _ s₁ h₁ => ?_)
    refine Prog.yields_bind.mpr (yields_getOpenFile.mpr ?_)
    exact yields_setOpenFile.mpr (h₁.seek 0)
  · exact Prog.yields_pure.mpr hself

/-- **`Read` leaves the rest of the buffer**, and everything but the open file. -/
theorem read_yields {into : ℕ → UInt8} {n : ℕ} {isDirectory : Bool} :
    s.Yields (OpenFile.read f into n isDirectory) (fun r s' =>
      (∀ j, r.1 ≤ j → r.2 j = into j) ∧ Rereads s f s') := by
  unfold OpenFile.read
  refine Prog.yields_bind.mpr (yields_assert.mpr fun _ => ?_)
  refine Prog.yields_bind.mpr (rewindRead_yields.mono fun _ s₁ h₁ => ?_)
  refine Prog.yields_bind.mpr (yields_getOpenFile.mpr ?_)
  refine Prog.yields_bind.mpr (readAt_yields.mono ?_)
  rintro ⟨k, data⟩ _ rfl
  refine Prog.yields_bind.mpr (yields_getOpenFile.mpr ?_)
  refine Prog.yields_bind.mpr (yields_setOpenFile.mpr ?_)
  split
  · refine Prog.yields_bind.mpr (yields_getOpenFile.mpr ?_)
    refine (readNext_yields (h₁.seek _)).mono ?_
    rintro r s₂ ⟨⟨hle, hrest⟩, h₂⟩
    refine ⟨fun j hj => ?_, h₂⟩
    rw [hrest j hj, blit_outside (Or.inr (by omega))]
  · refine Prog.yields_pure.mpr ⟨fun j hj => ?_, h₁.seek _⟩
    have hj : k ≤ j := hj
    exact blit_outside (Or.inr (by omega))

end Leaves

end PaldOs
