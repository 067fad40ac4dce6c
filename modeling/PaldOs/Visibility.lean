import PaldOs.SharedCursor

/-! # Writes seen through another handle

Every handle has a header of the file in memory, fetched when the file was opened, and
`Read` fetches another only when it goes on to the next one.  A header that is full and
has a next one never changes again.  So a handle on a file of two headers or more sees
whatever is written through others; a handle that was opened on a file of one header has
the length of that time, and sees new bytes only before it.
-/
namespace PaldOs

open Sys

/-! ## Reading by a header that is the last -/

section Lone
variable {s : System} {f n : ℕ} {disk : ℕ → Sector} {o : OpenFile} {into : ℕ → UInt8}

/-- `Read` by a header without a next one. -/
theorem read_lone (hok : HeaderOk o.hdr) (hlast : o.hdr.nextFileHeader = 0) (hn : 0 < n)
    (hn' : n < 2 ^ 32)
    (hsum : o.seekPosition = o.hdr.numBytes ∨ o.seekPosition + n < 2 ^ 32) :
    (s.writing f disk o).Ends (OpenFile.read f into n false) (fun r s' =>
      r.1 = min n (o.hdr.numBytes - o.seekPosition) ∧
      (∀ j, j < r.1 → r.2 j = o.hdr.byte disk (o.seekPosition + j)) ∧
      s' = s.writing f disk { o with seekPosition := o.seekPosition + r.1 }) := by
  have hbytes : headerBytes = 3712 := rfl
  have hle := hok.numBytes_le
  unfold OpenFile.read OpenFile.rewindRead
  simp only [Prog.ends_bind, ends_assert, ends_getOpenFile, System.writing_self, Bool.false_eq_true,
    if_false, Prog.ends_pure]
  refine ⟨hn, ?_⟩
  by_cases hno : o.seekPosition + n < 2 ^ 32
  · have hself : ((s.writing f disk o).openFile f).hdr = o.hdr := by rw [System.writing_self]
    have hread : (s.writing f disk o).Ends (OpenFile.readAt f n o.seekPosition) _ :=
      readAt_ends (by rw [hself]; exact hok) hn hno
    refine hread.mono ?_
    rintro ⟨r, data⟩ _ ⟨rfl, hr, hdata⟩
    simp only [System.writing_self, System.writing_disk] at hr hdata
    have hseek32 : (o.seekPosition + r) % 2 ^ 32 = o.seekPosition + r := by omega
    have hinto : ∀ j, j < r → blit into 0 r data j = o.hdr.byte disk (o.seekPosition + j) := by
      intro j hj
      rw [blit, if_pos (by omega), Nat.sub_zero, hdata j hj]
    simp only [ends_setOpenFile, System.writing_self, System.writing_putOpenFile, hseek32]
    split
    · simp only [Prog.ends_bind, ends_getOpenFile, System.writing_self, hlast]
      unfold OpenFile.readNext
      rw [if_neg (by simp)]
      exact Prog.ends_pure.mpr ⟨hr, hinto, rfl⟩
    · exact Prog.ends_pure.mpr ⟨hr, hinto, rfl⟩
  · -- the sum is too large: then there is nothing left to read
    have hat : o.seekPosition = o.hdr.numBytes := hsum.resolve_right hno
    unfold OpenFile.readAt
    simp only [Prog.ends_bind, ends_assert, ends_getOpenFile, System.writing_self, hat]
    refine ⟨hn, ?_⟩
    rw [if_pos le_rfl]
    have hsmall : ¬ o.hdr.numBytes < (o.hdr.numBytes + n) % 2 ^ 32 := by omega
    have hseek32 : (o.hdr.numBytes + 0) % 2 ^ 32 = o.hdr.numBytes + 0 := by omega
    simp only [Prog.ends_pure, ends_setOpenFile, System.writing_self, System.writing_putOpenFile,
      hseek32, if_neg hsmall, hat]
    exact ⟨by omega, fun j hj => absurd hj (Nat.not_lt_zero j), trivial⟩

/-- A sum that is too large, while bytes are left. -/
theorem read_lone_overflow (hle : o.hdr.numBytes ≤ headerBytes)
    (hseek : o.seekPosition < o.hdr.numBytes) (hn' : n < 2 ^ 32)
    (hsum : 2 ^ 32 ≤ o.seekPosition + n) :
    (s.writing f disk o).Yields (OpenFile.read f into n false) (fun r _ => r.1 = n) := by
  have hbytes : headerBytes = 3712 := rfl
  unfold OpenFile.read OpenFile.rewindRead
  refine Prog.yields_bind.mpr (yields_assert.mpr fun _ => ?_)
  rw [if_neg Bool.false_ne_true]
  refine Prog.yields_bind.mpr (Prog.yields_pure.mpr ?_)
  refine Prog.yields_bind.mpr (yields_getOpenFile.mpr ?_)
  rw [System.writing_self]
  have hself : (s.writing f disk o).openFile f = o := System.writing_self ..
  refine Prog.yields_bind.mpr ((readAt_count (by rw [hself]; exact hseek.le)
    (by rw [hself]; omega) hn').mono ?_)
  rintro ⟨r, data⟩ _ ⟨rfl, hr⟩
  simp only [hself] at hr
  rw [if_neg (by omega), if_neg (by omega)] at hr
  refine Prog.yields_bind.mpr (yields_getOpenFile.mpr ?_)
  refine Prog.yields_bind.mpr (yields_setOpenFile.mpr ?_)
  rw [if_neg (by omega)]
  exact Prog.yields_pure.mpr hr

end Lone

/-! ## Reading by an old header -/

section Stale
variable {s : System} {f : ℕ} {disk : ℕ → Sector} {hs : List ℕ} {o : OpenFile}

/-- A file is shorter than any size that is too large. -/
theorem FileOk.fileLength_lt (hf : FileOk disk hs) : fileLength disk hs < 2 ^ 32 - headerBytes := by
  have hbytes : headerBytes = 3712 := rfl
  have hns : numSectors = 1024 := rfl
  have hmany := hf.length_le
  have hpos := hf.pos
  have hlast := (hf.headers (hs.length - 1) (by omega)).numBytes_le
  unfold fileLength
  rw [hbytes] at hlast ⊢
  omega

/-- Within the first header the position is that in the file. -/
theorem seekOf_of_le {c : ℕ} (hc : c ≤ headerBytes) : seekOf c = c := by
  have hbytes : headerBytes = 3712 := rfl
  unfold seekOf
  rw [hbytes] at hc ⊢
  omega

/-- A first piece of another length. -/
theorem runReads_ne {n : ℕ} {sizes : List ℕ} {pieces : List (List UInt8)} {length : ℕ}
    (h : s.Yields (OpenFile.read f (fun _ => 0) n false) (fun r _ => r.1 ≠ length))
    (hlength : (pieces.head?.map List.length) = some length) :
    ¬ s.Ends (runReads f (n :: sizes)) (fun pieces' _ => pieces' = pieces) := by
  intro hends
  rw [runReads_cons] at hends
  obtain ⟨⟨r, into⟩, s', hrun, hrest⟩ := Prog.ends_bind.mp hends
  obtain ⟨rest, s'', -, heq⟩ := Prog.ends_bind.mp hrest
  have hpieces := Prog.ends_pure.mp heq
  have hne : r ≠ length := h _ _ hrun
  rw [← hpieces] at hlength
  simp only [List.head?_cons, Option.map_some, List.length_map, List.length_range,
    Option.some.injEq] at hlength
  exact hne hlength

/-- **Reading by the only header there was.**  The pieces are those of the contents exactly if
the length is what it was, or nothing is asked for past the length there was. -/
theorem stale_reads_iff (hf : FileOk disk hs) (hok : HeaderOk o.hdr)
    (hlast : o.hdr.nextFileHeader = 0) (hseek : o.seekPosition ≤ o.hdr.numBytes)
    (hlen : o.hdr.numBytes ≤ fileLength disk hs)
    (hbyte : ∀ p, p < o.hdr.numBytes → o.hdr.byte disk p = fileByte disk hs p) {sizes : List ℕ}
    (hsizes : ∀ n ∈ sizes, 0 < n ∧ n < 2 ^ 32) :
    (s.writing f disk o).Ends (runReads f sizes)
        (fun pieces _ => pieces = cut ((fileContent disk hs).drop o.seekPosition) sizes) ↔
      Readable (fileLength disk hs) o.seekPosition sizes ∧
        (fileLength disk hs = o.hdr.numBytes ∨ o.seekPosition + sizes.sum ≤ o.hdr.numBytes) := by
  have hbytes : headerBytes = 3712 := rfl
  have hle := hok.numBytes_le
  have hshort := hf.fileLength_lt
  induction sizes generalizing o with
  | nil =>
    simp only [runReads, Prog.ends_pure, List.sum_nil, Nat.add_zero]
    exact ⟨fun _ => ⟨trivial, Or.inr hseek⟩, fun _ => rfl⟩
  | cons n sizes ih =>
    obtain ⟨hn, hn'⟩ := hsizes n List.mem_cons_self
    have hseekOf : seekOf o.seekPosition = o.seekPosition := seekOf_of_le (by omega)
    have hcut : cut ((fileContent disk hs).drop o.seekPosition) (n :: sizes) =
        ((fileContent disk hs).drop o.seekPosition).take n ::
          cut (((fileContent disk hs).drop o.seekPosition).drop n) sizes := rfl
    have hreadable : Readable (fileLength disk hs) o.seekPosition (n :: sizes) =
        ((o.seekPosition = fileLength disk hs ∨ seekOf o.seekPosition + n < 2 ^ 32) ∧
          Readable (fileLength disk hs) (min (fileLength disk hs) (o.seekPosition + n)) sizes) :=
      rfl
    have hlength : (((fileContent disk hs).drop o.seekPosition).take n).length =
        min n (fileLength disk hs - o.seekPosition) := by
      rw [List.length_take, List.length_drop, length_fileContent]
    rw [hcut, hreadable, hseekOf, List.sum_cons]
    by_cases hsum : o.seekPosition = o.hdr.numBytes ∨ o.seekPosition + n < 2 ^ 32
    · by_cases hfit : min n (o.hdr.numBytes - o.seekPosition) =
          min n (fileLength disk hs - o.seekPosition)
      · obtain ⟨⟨r, into⟩, _, hrun, hr, hinto, rfl⟩ :=
          (read_lone hok hlast hn hn' hsum :
            (s.writing f disk o).Ends (OpenFile.read f (fun _ => 0) n false) _)
        simp only at hr hinto
        have hinto' : ∀ j, j < r → into j = fileByte disk hs (o.seekPosition + j) := by
          intro j hj
          rw [hinto j hj, hbyte _ (by omega)]
        have hdrop : ((fileContent disk hs).drop o.seekPosition).drop n =
            (fileContent disk hs).drop (o.seekPosition + r) := by
          rw [List.drop_drop]
          by_cases hin : o.seekPosition + n ≤ fileLength disk hs
          · congr 1
            omega
          · rw [List.drop_eq_nil_of_le (by rw [length_fileContent]; omega),
              List.drop_eq_nil_of_le (by rw [length_fileContent]; omega)]
        have hnext := ih (o := { o with seekPosition := o.seekPosition + r }) hok hlast
          (by simp only; omega) hlen hbyte
          (fun k hk => hsizes k (List.mem_cons_of_mem _ hk)) hle
        simp only at hnext
        rw [runReads_cons, System.Ends, Prog.ends_bind_run hrun]
        simp only [Prog.ends_bind, Prog.ends_pure, take_drop_fileContent (hr.trans hfit) hinto',
          List.cons.injEq, true_and, hdrop]
        have hmin : min (fileLength disk hs) (o.seekPosition + n) = o.seekPosition + r := by omega
        rw [hmin]
        refine Iff.trans hnext ?_
        constructor
        · rintro ⟨hread, hend⟩
          exact ⟨⟨by omega, hread⟩, by omega⟩
        · rintro ⟨⟨-, hread⟩, hend⟩
          exact ⟨hread, by omega⟩
      · refine iff_of_false (runReads_ne ?_ (by rw [List.head?_cons, Option.map_some, hlength])) ?_
        · refine (read_lone hok hlast hn hn' hsum).yields.mono ?_
          rintro r _ ⟨hr, -⟩
          rw [hr]
          exact hfit
        · rintro ⟨-, hend⟩
          omega
    · refine iff_of_false (runReads_ne ?_ (by rw [List.head?_cons, Option.map_some, hlength])) ?_
      · refine (read_lone_overflow hle (by omega) hn' (by omega)).mono ?_
        rintro r _ hr
        omega
      · rintro ⟨⟨hread, -⟩, -⟩
        omega

end Stale

/-! ## Two handles -/

/-- A header that is not the last stays what it is. -/
theorem GrownFile.header_eq {disk disk' : ℕ → Sector} {hs hs' : List ℕ}
    (hg : GrownFile disk hs disk' hs') (hf : FileOk disk hs) (hf' : FileOk disk' hs')
    (hlong : 1 < hs.length) : headerOf disk' hs' 0 = headerOf disk hs 0 := by
  have hlong' : 1 < hs'.length := hlong.trans_le hg.chain.length_le
  have hbytes : (headerOf disk' hs' 0).numBytes = (headerOf disk hs 0).numBytes := by
    rw [hf'.full 0 hlong', hf.full 0 hlong]
  have hsectors : (headerOf disk' hs' 0).numSectors = (headerOf disk hs 0).numSectors := by
    rw [(hf'.headers 0 hf'.pos).numSectors_eq, (hf.headers 0 hf.pos).numSectors_eq, hbytes]
  have hnext : (headerOf disk' hs' 0).nextFileHeader = (headerOf disk hs 0).nextFileHeader := by
    rw [hf'.next 0 hlong', hf.next 0 hlong, getD_of_chain hg.chain hlong]
  have hdata : (headerOf disk' hs' 0).dataSectors = (headerOf disk hs 0).dataSectors := by
    funext j
    by_cases hj : j < numDirect
    · have hcount : numDirect ≤ sectorCount disk hs := by
        have hone : numDirect * 1 ≤ numDirect * (hs.length - 1) :=
          Nat.mul_le_mul_left _ (by omega)
        rw [Nat.mul_one] at hone
        exact hone.trans (Nat.le_add_right _ _)
      rw [← dataSector_index (i := 0) hj, ← dataSector_index (i := 0) hj, Nat.mul_zero,
        Nat.zero_add]
      exact hg.data j (hj.trans_le hcount)
    · have hmore := Nat.not_lt.mp hj
      exact ((RawFileHeader.fits_ofSector _).noMore j hmore).trans
        ((RawFileHeader.fits_ofSector _).noMore j hmore).symm
  cases h : headerOf disk' hs' 0
  cases h' : headerOf disk hs 0
  rw [h, h'] at hbytes hsectors hnext hdata
  simp only at hbytes hsectors hnext hdata
  rw [hbytes, hsectors, hnext, hdata]

/-- What the only header there was tells of the bytes there were. -/
theorem GrownFile.byte_eq {disk disk' : ℕ → Sector} {hs hs' : List ℕ}
    (hg : GrownFile disk hs disk' hs') (hf : FileOk disk hs) (hone : hs.length = 1) {p : ℕ}
    (hp : p < (headerOf disk hs 0).numBytes) :
    (headerOf disk hs 0).byte disk' p = fileByte disk' hs' p := by
  have hss : sectorSize = 128 := rfl
  have hnd : numDirect = 29 := rfl
  have hbytes : headerBytes = 3712 := rfl
  have hle := (hf.headers 0 hf.pos).numBytes_le
  have hlength : fileLength disk hs = (headerOf disk hs 0).numBytes := by
    rw [fileLength, hone, Nat.sub_self, Nat.mul_zero, Nat.zero_add]
  have hq := hf.sector_of_byte (hp.trans_le hlength.ge)
  have hj : p / sectorSize < numDirect := by
    rw [hss, hnd]
    omega
  have hsector : dataSector disk hs (p / sectorSize) =
      (headerOf disk hs 0).dataSectors (p / sectorSize) := by
    rw [← dataSector_index (i := 0) hj, Nat.mul_zero, Nat.zero_add]
  rw [fileByte, hg.data _ hq, hsector, RawFileHeader.byte]

section Handles
variable {s s' : System} {m a b : ℕ} {hs hs' : List ℕ} {cursor : ℕ → ℕ}

/-- **What a handle sees of a file that has grown since it was opened.** -/
theorem JustOpened.reads_grown_iff (hopen : JustOpened s hs b)
    (hsame : s'.openFile b = s.openFile b)
    (hf : FileOk s.disk hs) (hf' : FileOk s'.disk hs') (hg : GrownFile s.disk hs s'.disk hs')
    {sizes : List ℕ} (hsizes : ∀ n ∈ sizes, 0 < n ∧ n < 2 ^ 32) :
    s'.Ends (PaldOs.runReads b sizes)
      (fun pieces _ => pieces = cut (fileContent s'.disk hs') sizes) ↔
      Readable (fileLength s'.disk hs') 0 sizes ∧
        (1 < hs.length ∨ fileLength s'.disk hs' = fileLength s.disk hs ∨
          sizes.sum ≤ fileLength s.disk hs) := by
  have hb : s'.openFile b = ⟨hs.getD 0 0, hs.getD 0 0, 0, headerOf s.disk hs 0⟩ :=
    hsame.trans hopen
  rw [← s'.writing_start b, System.writing_disk]
  by_cases hlong : 1 < hs.length
  · have hreads : ReadsAt s'.disk hs' (s'.openFile b) 0 := by
      rw [hb]
      exact ⟨0, hf'.pos, (hg.header_eq hf hf' hlong).symm, rfl, Nat.zero_le _, fun _ => Or.inl rfl⟩
    have hiff : (s'.writing b s'.disk (s'.openFile b)).Ends (PaldOs.runReads b sizes)
        (fun pieces _ => pieces = cut ((fileContent s'.disk hs').drop 0) sizes) ↔
        Readable (fileLength s'.disk hs') 0 sizes := runReads_iff hf' hreads hsizes
    refine Iff.trans hiff ⟨fun h => ⟨h, Or.inl hlong⟩, And.left⟩
  · have hone : hs.length = 1 := by
      have := hf.pos
      omega
    have hlength : fileLength s.disk hs = (headerOf s.disk hs 0).numBytes := by
      rw [fileLength, hone, Nat.sub_self, Nat.mul_zero, Nat.zero_add]
    have hlast : (headerOf s.disk hs 0).nextFileHeader = 0 := by
      have := hf.last
      rwa [hone] at this
    rw [hb]
    have hiff : (s'.writing b s'.disk ⟨hs.getD 0 0, hs.getD 0 0, 0, headerOf s.disk hs 0⟩).Ends
        (PaldOs.runReads b sizes) (fun pieces _ =>
          pieces = cut ((fileContent s'.disk hs').drop 0) sizes) ↔
        Readable (fileLength s'.disk hs') 0 sizes ∧
          (fileLength s'.disk hs' = (headerOf s.disk hs 0).numBytes ∨
            0 + sizes.sum ≤ (headerOf s.disk hs 0).numBytes) :=
      stale_reads_iff hf' (hf.headers 0 hf.pos) hlast (Nat.zero_le _)
        (hlength.symm.le.trans hg.length_le) (fun p hp => hg.byte_eq hf hone hp) hsizes
    rw [← hlength, Nat.zero_add] at hiff
    refine Iff.trans hiff (and_congr_right fun _ => ?_)
    exact ⟨Or.inr, fun h => h.resolve_left hlong⟩

/-- **Writes are seen through another handle exactly if** that handle was opened on a file of
more than one header, or the file is as long as it was then, or nothing is read past the
length it had; and no `Read` asks for too much. -/
theorem reads_see_writes_iff (ho : OpenForWriting s m hs (fun g => g = a) cursor)
    (hopen : JustOpened s hs b) (hne : b ≠ a) {calls : List WriteCall}
    (hcalls : ∀ w ∈ calls, w.handle = a ∧ 0 < w.numBytes) {results : List ℕ}
    (hrun : (runWrites calls).run System.act s = some (results, s'))
    (hhead : hs'.getD 0 0 = hs.getD 0 0) (hf' : FileOk s'.disk hs') {sizes : List ℕ}
    (hsizes : ∀ n ∈ sizes, 0 < n ∧ n < 2 ^ 32) :
    s'.Ends (runReads b sizes) (fun pieces _ => pieces = cut (fileContent s'.disk hs') sizes) ↔
      Readable (fileLength s'.disk hs') 0 sizes ∧
        (1 < hs.length ∨ fileLength s'.disk hs' = fileLength s.disk hs ∨
          sizes.sum ≤ fileLength s.disk hs) := by
  obtain ⟨-, hs'', cursor', hhead'', ho', -, hg, hothers⟩ := (ho.runWrites hcalls).of_run hrun
  obtain rfl := ho'.stored.ok.toChainOk.eq hf'.toChainOk (hhead.trans hhead''.symm)
  refine hopen.reads_grown_iff (hothers b fun w hw => ?_) ho.stored.ok hf' hg hsizes
  rw [(hcalls w hw).1]
  exact hne

end Handles

/-- Handles 3 and 4 are open on the same file. -/
theorem justOpened_shortFileSystem_other : JustOpened shortFileSystem [5] 4 := by
  rw [JustOpened, headerOf_shortFileSystem]
  rfl

/-- The file keeps its length when the first 10 bytes are written through handle 3, and handle 4
reads all of it. -/
theorem reads_see_writes_iff_shortFile : ∃ results s' hs',
    (runWrites [⟨3, fun _ => 1, 10⟩]).run System.act shortFileSystem = some (results, s') ∧
      fileLength s'.disk hs' = 200 ∧
      s'.Ends (runReads 4 [100, 300]) (fun pieces _ =>
        pieces = cut (fileContent s'.disk hs') [100, 300]) := by
  have ho := openForWriting_shortFileSystem
  have hcalls : ∀ w ∈ [(⟨3, fun _ => 1, 10⟩ : WriteCall)], w.handle = 3 ∧ 0 < w.numBytes := by simp
  obtain ⟨results, s', hrun, hle, hs', cursor', hhead, ho', hcontent, -⟩ := ho.runWrites hcalls
  obtain ⟨k, rest, hk, hrest, rfl⟩ := List.forall₂_cons_right_iff.mp hle
  have hlen : fileLength s'.disk hs' = 200 := by
    have := congrArg List.length hcontent
    simp only [evolve, overwrite, List.length_append, List.length_take, List.length_drop,
      length_fileContent, fileLength_shortFileSystem, WriteCall.chunk, List.length_map,
      List.length_range] at this
    simp only at hk
    omega
  refine ⟨_, s', hs', hrun, hlen, ?_⟩
  refine (reads_see_writes_iff ho justOpened_shortFileSystem_other (by decide) hcalls hrun hhead
    ho'.stored.ok (by simp)).mpr ⟨?_, Or.inr (Or.inl ?_)⟩
  · rw [hlen]
    exact ⟨Or.inr (by decide), Or.inr (by decide), trivial⟩
  · rw [hlen, fileLength_shortFileSystem]

/-- **Bytes that are not seen.**  After 300 bytes are written through handle 3 the file has 300,
and handle 4 still reads 200. -/
theorem reads_miss_writes :
    shortFileSystem.Ends (runWrites [⟨3, fun _ => 1, 300⟩]) (fun _ s' =>
      ∃ hs', hs'.getD 0 0 = 5 ∧ FileOk s'.disk hs' ∧ fileLength s'.disk hs' = 300 ∧
        ¬ s'.Ends (runReads 4 [300]) (fun pieces _ =>
          pieces = cut (fileContent s'.disk hs') [300])) := by
  have ho := openForWriting_shortFileSystem
  have hcur : LeftAt shortFileSystem.disk [5] (shortFileSystem.openFile 3) 0 := by
    rw [justOpened_shortFileSystem]
    exact Or.inl ⟨0, by decide, rfl, rfl, Nat.zero_le _, fun _ => Or.inl rfl⟩
  have hwrite := hcur.write ho rfl rfl (n := 300) (by decide) fun _ => 1
  rw [System.writing_start] at hwrite
  obtain ⟨k, s', hrun, -, hall⟩ := hwrite
  obtain rfl : k = 300 := by
    refine hall ⟨?_, Nat.zero_le _⟩
    rw [Short, sectorCount_shortFileSystem, mapOn_shortFileSystem]
    decide +kernel
  obtain ⟨-, hs', hhead, ho', hcontent, hg, hothers⟩ :=
    (ho.write (w := ⟨3, fun _ => 1, 300⟩) rfl (by decide)).of_run hrun
  have hlen : fileLength s'.disk hs' = 300 := by
    have := congrArg List.length hcontent
    simp only [overwrite, List.length_append, List.length_take, List.length_drop,
      length_fileContent, fileLength_shortFileSystem, WriteCall.chunk, List.length_map,
      List.length_range] at this
    omega
  simp only [runWrites, Prog.ends_bind, Prog.ends_pure]
  refine ⟨300, s', hrun, hs', hhead, ho'.stored.ok, hlen, fun hreads => ?_⟩
  have hseen := (justOpened_shortFileSystem_other.reads_grown_iff (hothers 4 (by decide))
    ho.stored.ok ho'.stored.ok hg (by simp)).mp hreads
  rw [hlen, fileLength_shortFileSystem] at hseen
  exact absurd hseen.2 (by decide)

end PaldOs
