import PaldOs.Visibility

/-! # Writes that are refused

`Allocate` counts what it is asked for into the header and only then looks whether there are
as many free sectors.  If there are not, the header stays so, and after `Write` has returned
0 it is the one that `Read` goes by: it has bytes that the file has not, or it is the next
one while the offset is still that in the one before.  The first of the new headers is an
object of its own, but its sector and those of the others are marked on the disk by then.

So no `Write` that is refused leaves all as it was.
-/
namespace PaldOs

open Sys

/-- **`Allocate` finds too few free sectors** in a `Write` of `n` bytes at byte `c`: for the last
of the headers there are, or for the first of those to be made. -/
def Refused (disk : ℕ → Sector) (hs : List ℕ) (freeMap : Bitmap) (c n : ℕ) : Prop :=
  Short disk hs freeMap c n ∨ Wasteful disk hs freeMap c n

/-- **Nothing is left of a call**: the free map and the file are what they were, and any `Read`s
through the handle return what they would have returned. -/
structure Undisturbed (s : System) (m : ℕ) (hs : List ℕ) (f : ℕ) (s' : System) : Prop where
  freeMap : ∀ x, x < numSectors → mapOn s'.disk m x = mapOn s.disk m x
  content : ∃ hs', hs'.getD 0 0 = hs.getD 0 0 ∧ FileOk s'.disk hs' ∧
    fileContent s'.disk hs' = fileContent s.disk hs
  reads : ∀ sizes pieces, (∀ n ∈ sizes, 0 < n ∧ n < 2 ^ 32) →
    s.Ends (runReads f sizes) (fun pieces' _ => pieces' = pieces) →
    s'.Ends (runReads f sizes) (fun pieces' _ => pieces' = pieces)

/-! ## `Allocate` -/

/-- **`Allocate` never leaves the header as it was** when it returns false. -/
theorem RawFileHeader.allocate_changes {h h' : RawFileHeader} {freeMap freeMap' : Bitmap}
    {fileSize : ℕ} (hal : h.allocate freeMap fileSize = some (false, h', freeMap')) :
    h'.numSectors ≠ h.numSectors := by
  unfold allocate at hal
  split at hal
  · dsimp only at hal
    split at hal
    · rename_i hfew
      intro heq
      cases hal
      refine hfew.1 ?_
      simp only at heq
      omega
    · split at hal
      · cases hal
      · cases hal
  · cases hal

/-! ## Reads after a refusal -/

section Reads
variable {s : System} {f m n c : ℕ} {disk : ℕ → Sector} {hs : List ℕ} {o : OpenFile}
  {into : ℕ → UInt8}

/-- How much `Read` returns by a header without a next one, if it does. -/
theorem read_last_count (hlast : o.hdr.nextFileHeader = 0) (hsum : o.seekPosition + n < 2 ^ 32) :
    (s.writing f disk o).Yields (OpenFile.read f into n false)
      (fun r _ => r.1 = min n (o.hdr.numBytes - o.seekPosition)) := by
  have hself : (s.writing f disk o).openFile f = o := System.writing_self ..
  have hat : (s.writing f disk o).Yields (OpenFile.readAt f n o.seekPosition)
      (fun r s' => s' = s.writing f disk o ∧
        r.1 = min n (o.hdr.numBytes - o.seekPosition)) := by
    unfold OpenFile.readAt
    refine Prog.yields_bind.mpr (yields_assert.mpr fun _ => ?_)
    refine Prog.yields_bind.mpr (yields_getOpenFile.mpr ?_)
    rw [hself]
    dsimp only
    split
    · refine Prog.yields_pure.mpr ⟨rfl, ?_⟩
      simp only
      omega
    · refine Prog.yields_bind.mpr (readSectors_yields.mono ?_)
      rintro _ _ rfl
      refine Prog.yields_bind.mpr (yields_assert.mpr fun _ => ?_)
      refine Prog.yields_pure.mpr ⟨rfl, ?_⟩
      dsimp only
      split_ifs <;> omega
  unfold OpenFile.read OpenFile.rewindRead
  refine Prog.yields_bind.mpr (yields_assert.mpr fun _ => ?_)
  rw [if_neg Bool.false_ne_true]
  refine Prog.yields_bind.mpr (Prog.yields_pure.mpr ?_)
  refine Prog.yields_bind.mpr (yields_getOpenFile.mpr ?_)
  rw [hself]
  refine Prog.yields_bind.mpr (hat.mono ?_)
  rintro ⟨r, data⟩ _ ⟨rfl, hr⟩
  refine Prog.yields_bind.mpr (yields_getOpenFile.mpr ?_)
  refine Prog.yields_bind.mpr (yields_setOpenFile.mpr ?_)
  simp only [System.writing_self, System.writing_putOpenFile]
  split
  · refine Prog.yields_bind.mpr (yields_getOpenFile.mpr ?_)
    rw [System.writing_self, hlast]
    unfold OpenFile.readNext
    rw [if_neg (by simp)]
    exact Prog.yields_pure.mpr hr
  · exact Prog.yields_pure.mpr hr

/-- A `Read` that would have returned another number of bytes. -/
theorem Undisturbed.count_eq {s' : System} (h : Undisturbed s m hs f s') (hf : FileOk s.disk hs)
    (hr : ReadsAt s.disk hs (s.openFile f) c) (hn : 0 < n) (hn' : n ≤ headerBytes) :
    ¬ s'.Yields (OpenFile.read f (fun _ => 0) n false)
      (fun r _ => r.1 ≠ min n (fileLength s.disk hs - c)) := by
  have hbytes : headerBytes = 3712 := rfl
  intro hcount
  have hreadable : Readable (fileLength s.disk hs) c [n] := by
    refine ⟨Or.inr ?_, trivial⟩
    unfold seekOf
    rw [hbytes] at hn' ⊢
    omega
  have hsizes : ∀ k ∈ [n], 0 < k ∧ k < 2 ^ 32 := by
    intro k hk
    rw [List.mem_singleton.mp hk]
    omega
  have hpieces : (s.writing f s.disk (s.openFile f)).Ends (runReads f [n]) (fun pieces _ =>
      pieces = cut ((fileContent s.disk hs).drop c) [n]) :=
    (runReads_iff hf hr hsizes).mpr hreadable
  rw [System.writing_start] at hpieces
  refine runReads_ne hcount ?_ (h.reads _ _ hsizes hpieces)
  simp [cut]

/-- **A header that is longer than the last one disturbs `Read`.** -/
theorem Overstated.not_undisturbed (hover : Overstated s.disk hs o) (hreg : RegularFile s.disk hs)
    (hr : ReadsAt s.disk hs (s.openFile f) c) (hcur : CursorAt disk hs o c) (hok : FileOk disk hs)
    (hlate : headerBytes * (hs.length - 1) ≤ c) :
    ¬ Undisturbed s m hs f (s.writing f disk o) := by
  have hbytes : headerBytes = 3712 := rfl
  intro h
  have hlonger := hover.longer
  have hle := hover.le
  have hend : c ≤ fileLength s.disk hs := by
    obtain ⟨i, hi, -, hpos, hseek, -⟩ := hr
    have := hreg.toFileOk.header_end_le hi
    omega
  obtain ⟨i, hi, -, hpos, hseek⟩ := hcur
  have hsmall := (hok.headers i hi).numBytes_le
  have hcases : i = hs.length - 1 ∨ o.seekPosition = headerBytes ∧ i + 1 = hs.length - 1 := by
    rw [hbytes] at hlate hpos hsmall ⊢
    omega
  rcases hcases with rfl | ⟨hfull, hi'⟩
  · -- there seem to be more bytes than there are
    refine h.count_eq hreg.toFileOk hr (n := o.hdr.numBytes - o.seekPosition) (by omega) (by omega)
      ((read_last_count hover.last (by omega)).mono ?_)
    intro r _ hcount
    omega
  · -- the offset is past the bytes of the next header
    have hmore : c < fileLength s.disk hs := by
      have := hreg.filled (by omega)
      rw [hpos, hfull, ← Nat.mul_succ, Nat.succ_eq_add_one, hi']
      exact this
    refine h.count_eq hreg.toFileOk hr (n := 1) (by decide) (by decide)
      ((read_last_count hover.last (by omega)).mono ?_)
    intro r _ hcount
    omega

end Reads

/-! ## `Write` -/

section Write
variable {s : System} {f m n c : ℕ} {hs : List ℕ} {src : ℕ → UInt8}

/-- Sectors that stay reserved are marked on the disk. -/
theorem Progress.not_undisturbed {disk : ℕ → Sector} {hs' reserved : List ℕ}
    {map₀ freeMap : Bitmap} {o : OpenFile}
    (hp : Progress m s.disk hs map₀ disk hs' freeMap reserved) (hne : reserved ≠ [])
    (hmap : ∀ x, x < numSectors → map₀ x = mapOn s.disk m x) :
    ¬ Undisturbed s m hs f (s.writing f disk o) := by
  intro h
  obtain ⟨x, hx⟩ := List.exists_mem_of_ne_nil reserved hne
  have hlt := hp.reserved_lt x hx
  have hafter : mapOn disk m x = true := by
    rw [hp.onDisk x hlt]
    exact (hp.marks x).mpr (Or.inr (Or.inr hx))
  have hbefore : mapOn s.disk m x = false := by
    rw [← hmap x hlt]
    exact hp.reserved_clear x hx
  have hsame : mapOn disk m x = mapOn s.disk m x := h.freeMap x hlt
  rw [hafter, hbefore] at hsame
  cases hsame

/-- What is left where `Allocate` finds too few sectors. -/
theorem OpenForWriting.refused (ho : OpenForWriting s m hs (fun g => g = f) fun _ => c)
    (hreg : RegularFile s.disk hs) (hn : 0 < n) :
    s.Ends (OpenFile.write f src n false) (fun k s' =>
      (Short s.disk hs (mapOn s.disk m) c n → k = 0 ∨ c + k = headerBytes * (hs.length - 1)) ∧
      (Short s.disk hs (mapOn s.disk m) c n → k = 0 → headerBytes * (hs.length - 1) ≤ c ∧
        ∃ disk o, s' = s.writing f disk o ∧ Overstated s.disk hs o ∧ CursorAt disk hs o c ∧
          FileOk disk hs) ∧
      (Wasteful s.disk hs (mapOn s.disk m) c n → ¬ Undisturbed s m hs f s')) := by
  obtain ⟨l, hlock, hfree⟩ := ho.lock
  have hsector := ho.sector f rfl
  have hcursor : CursorAt s.disk hs ((s.openFile f).rewound false) c := ho.cursor f rfl
  refine (write_ends ho.map (ho.apart f rfl) ho.stored (by rw [hsector]; exact hlock) hfree hcursor
    hn).mono ?_
  rintro k _ ⟨map₀, disk, hs', freeMap, reserved, o, rfl, -, hmap, hout, hroomy, -, hmost, -,
    hstop, hover⟩
  refine ⟨hstop, ?_, fun hw =>
    hout.progress.not_undisturbed (fun hnil => hw.not_roomy (hroomy.mpr hnil)) hmap⟩
  rintro hshort rfl
  -- nothing is written, so no header is new
  obtain rfl : hs = hs' := by
    have hin := (CursorAt.le_fileLength hcursor hreg.toFileOk).trans hreg.toFileOk.length_bounds.2
    refine hout.progress.chain.eq_of_length_le ?_
    rcases hout.filled with rfl | hlt
    · exact le_rfl
    · have := Nat.lt_of_mul_lt_mul_left (hlt.trans_le hin)
      omega
  exact ⟨by omega, disk, o, rfl, hover hshort, hout.cursor, hout.progress.ok⟩

/-- **Nothing that is refused leaves all as it was.**  `Allocate` has changed the header whenever
it returns false.  `Write` comes to its end, and if it returns 0 because `Allocate` found too
few free sectors, then the free map or the file is another, or some `Read`s through the
handle return something else than they would have. -/
theorem refused_disturbs (ho : OpenForWriting s m hs (fun g => g = f) fun _ => c)
    (hreg : RegularFile s.disk hs) (hr : ReadsAt s.disk hs (s.openFile f) c) (hn : 0 < n) :
    (∀ (h h' : RawFileHeader) (freeMap freeMap' : Bitmap) (fileSize : ℕ),
      h.allocate freeMap fileSize = some (false, h', freeMap') →
      ¬ (h'.numBytes = h.numBytes ∧ h'.numSectors = h.numSectors ∧
        h'.dataSectors = h.dataSectors)) ∧
    ∀ src, s.Ends (OpenFile.write f src n false) (fun k s' =>
      k = 0 → Refused s.disk hs (mapOn s.disk m) c n → ¬ Undisturbed s m hs f s') := by
  refine ⟨fun h h' freeMap freeMap' fileSize hal hsame => ?_, fun src => ?_⟩
  · exact RawFileHeader.allocate_changes hal hsame.2.1
  · refine (ho.refused hreg hn).mono ?_
    rintro k s' ⟨-, hshort, hwaste⟩ hzero (hs | hw)
    · obtain ⟨hlate, disk, o, rfl, hover, hcur, hok⟩ := hshort hs hzero
      exact hover.not_undisturbed hreg hr hcur hok hlate
    · exact hwaste hw

end Write

/-! ### A full disk -/

/-- The file of 200 bytes on a disk without a free sector, with all handles but that of the free
map at byte `seek`. -/
def fullFileSystem (seek : ℕ) : System :=
  { shortFileSystem with
    disk := Function.update shortFileSystem.disk 2 (Bitmap.toBytes fun _ => true)
    openFile := fun f =>
      if f = 0 then shortFileSystem.openFile 0 else ⟨5, 5, seek, shortFileHeader⟩ }

section Full
variable {seek : ℕ}

theorem headerOf_fullFileSystem : headerOf (fullFileSystem seek).disk [5] 0 = shortFileHeader := by
  rw [← headerOf_shortFileSystem]
  exact headerOf_congr (by simp [fullFileSystem])

theorem headers_fullFileSystem (i : ℕ) (hi : i < [5].length) :
    headerOf (fullFileSystem seek).disk [5] i = headerOf shortFileSystem.disk [5] i := by
  obtain rfl : i = 0 := Nat.lt_one_iff.mp hi
  rw [headerOf_fullFileSystem, headerOf_shortFileSystem]

theorem fileOk_fullFileSystem : FileOk (fullFileSystem seek).disk [5] :=
  fileOk_shortFileSystem.of_headers headers_fullFileSystem

theorem regularFile_fullFileSystem : RegularFile (fullFileSystem seek).disk [5] :=
  ⟨fileOk_fullFileSystem, fun h => absurd h (by decide)⟩

theorem sectorCount_fullFileSystem : sectorCount (fullFileSystem seek).disk [5] = 2 := by
  rw [sectorCount_congr (by decide) headers_fullFileSystem, sectorCount_shortFileSystem]

theorem mapOn_fullFileSystem : mapOn (fullFileSystem seek).disk 2 = fun _ => true := by
  have hdisk : (fullFileSystem seek).disk 2 = Bitmap.toBytes fun _ => true := by
    simp [fullFileSystem]
  rw [mapOn, hdisk, Bitmap.ofBytes_toBytes]

theorem readsAt_fullFileSystem (hseek : seek ≤ 200) :
    ReadsAt (fullFileSystem seek).disk [5] ((fullFileSystem seek).openFile 3) seek := by
  refine ⟨0, by decide, headerOf_fullFileSystem.symm, ?_, ?_, fun _ => Or.inl rfl⟩
  · show seek = 0 + seek
    omega
  · rw [headerOf_fullFileSystem]
    exact hseek

theorem openForWriting_fullFileSystem (hseek : seek ≤ 200) :
    OpenForWriting (fullFileSystem seek) 2 [5] (fun f => f = 3) fun _ => seek := by
  have hmap : mapOn (fullFileSystem seek).disk 2 = fun _ => true := mapOn_fullFileSystem
  refine ⟨⟨rfl, rfl, rfl, by decide⟩, ⟨fileOk_fullFileSystem, fun _ _ => rfl, fun x hx => ?_, ?_,
    fun h => ?_, ?_⟩, ⟨1, rfl, rfl⟩, ?_, ?_, ?_⟩
  · rw [hmap]
  · rw [hmap]
  · rcases h with ⟨i, hi, heq⟩ | ⟨q, hq, heq⟩
    · rw [Nat.lt_one_iff.mp hi] at heq
      exact absurd heq (by decide)
    · rw [sectorCount_fullFileSystem] at hq
      rw [fileOk_shortFileSystem.dataSector_congr headers_fullFileSystem
        (by rw [sectorCount_shortFileSystem]; exact hq), dataSector_shortFileSystem hq] at heq
      omega
  · rw [hmap]
  · intro f hf
    rw [hf]
    show 3 ≠ 0
    decide
  · intro f hf
    rw [hf]
    rfl
  · intro f hf
    rw [hf]
    refine ⟨0, by decide, rfl, ?_, ?_⟩
    · show seek = 0 + seek
      omega
    · rw [headerOf_fullFileSystem]
      exact hseek

/-- There is no sector for a byte past 256. -/
theorem short_fullFileSystem {n : ℕ} (hn : 256 < seek + n) :
    Short (fullFileSystem seek).disk [5] (mapOn (fullFileSystem seek).disk 2) seek n := by
  have hclear : Bitmap.countClear (fun _ => true) = 0 := by decide +kernel
  have hss : sectorSize = 128 := rfl
  have hbytes : headerBytes * [5].length = 3712 := rfl
  rw [Short, mapOn_fullFileSystem, hclear, sectorCount_fullFileSystem,
    lt_divRoundUp_iff (by decide), hss, hbytes]
  omega

end Full

/-- A `Write` of 300 bytes over the file is refused. -/
theorem refused_disturbs_fullFile :
    (fullFileSystem 0).Ends (OpenFile.write 3 (fun _ => 1) 300 false) (fun k s' =>
      k = 0 ∧ ¬ Undisturbed (fullFileSystem 0) 2 [5] 3 s') := by
  have ho : OpenForWriting (fullFileSystem 0) 2 [5] (fun f => f = 3) fun _ => 0 :=
    openForWriting_fullFileSystem (by decide)
  have hr : ReadsAt (fullFileSystem 0).disk [5] ((fullFileSystem 0).openFile 3) 0 :=
    readsAt_fullFileSystem (by decide)
  have hshort : Short (fullFileSystem 0).disk [5] (mapOn (fullFileSystem 0).disk 2) 0 300 :=
    short_fullFileSystem (by decide)
  obtain ⟨k, s', hrun, hstop, -⟩ :
      (fullFileSystem 0).Ends (OpenFile.write 3 (fun _ => 1) 300 false) _ :=
    ho.refused regularFile_fullFileSystem (by decide)
  have hzero : k = 0 := (hstop hshort).elim id fun h => (Nat.add_eq_zero_iff.mp h).2
  have hdist := (refused_disturbs ho regularFile_fullFileSystem hr (n := 300) (by decide)).2
    fun _ => 1
  exact ⟨k, s', hrun, hzero, hdist.of_run hrun hzero (Or.inl hshort)⟩

/-- **A `Read` past the end of the file.**  At byte 200, the end, a `Write` of 100 bytes returns 0;
then a `Read` of 100 bytes does not return 0, as it would have. -/
theorem read_after_refused :
    (fullFileSystem 200).Ends (OpenFile.read 3 (fun _ => 0) 100 false) (fun r _ => r.1 = 0) ∧
    (fullFileSystem 200).Ends (OpenFile.write 3 (fun _ => 1) 100 false) (fun k s' =>
      k = 0 ∧ ¬ s'.Ends (OpenFile.read 3 (fun _ => 0) 100 false) (fun r _ => r.1 = 0)) := by
  have hlength : fileLength (fullFileSystem 200).disk [5] = 200 := by
    rw [fileLength_congr (by decide) headers_fullFileSystem, fileLength_shortFileSystem]
  have hr : ReadsAt (fullFileSystem 200).disk [5] ((fullFileSystem 200).openFile 3) 200 :=
    readsAt_fullFileSystem (by decide)
  have hread : ((fullFileSystem 200).writing 3 (fullFileSystem 200).disk
      ((fullFileSystem 200).openFile 3)).Ends (OpenFile.read 3 (fun _ => 0) 100 false) _ :=
    read_ends fileOk_fullFileSystem hr (by decide) (by decide) (Or.inl hlength.symm)
  rw [System.writing_start] at hread
  refine ⟨hread.mono ?_, ?_⟩
  · rintro r _ ⟨hcount, -⟩
    rw [hcount, hlength]
    rfl
  · have ho : OpenForWriting (fullFileSystem 200) 2 [5] (fun f => f = 3) fun _ => 200 :=
      openForWriting_fullFileSystem (by decide)
    have hshort : Short (fullFileSystem 200).disk [5] (mapOn (fullFileSystem 200).disk 2) 200 100 :=
      short_fullFileSystem (by decide)
    refine (ho.refused regularFile_fullFileSystem (by decide)).mono ?_
    rintro k s' ⟨hstop, hleft, -⟩
    have hzero : k = 0 := by
      have := hstop hshort
      rw [show headerBytes * ([5].length - 1) = 0 from rfl] at this
      omega
    obtain ⟨-, disk, o, rfl, hover, ⟨i, hi, -, hpos, -⟩, -⟩ := hleft hshort hzero
    refine ⟨hzero, ?_⟩
    rintro ⟨r, s', hrun, hnone⟩
    have hseek : o.seekPosition = 200 := by
      rw [Nat.lt_one_iff.mp hi, Nat.mul_zero, Nat.zero_add] at hpos
      exact hpos.symm
    have hlonger := hover.longer
    rw [hlength, show headerBytes * ([5].length - 1) = 0 from rfl] at hlonger
    have hcount := read_last_count (n := 100) hover.last (by rw [hseek]; decide) r s' hrun
    omega

end PaldOs
