import PaldOs.RoundTrip

/-! # Reading and writing through one handle

A handle keeps its place in a file as an offset in one of the headers.  Which header is
kept twice: `Read` goes on from the header in memory, `hdr`, and `Write` fetches the
header at `currentSector`, which `Read` does not move.  So a handle that has read past
its first header writes at the offset it has reached, but in the first header again.

`LeftAt.runReads` says where any sequence of `Read`s leaves the handle, whatever sizes they
ask for.  Sizes that pass the end of a word with the offset are served with nothing or
with memory past the end, `2 ^ 32 - headerBytes` bytes or more; with all others the bytes
returned and the place of the handle agree.  `write_after_reads_iff` then says that a
`Write` goes to the byte after those read exactly if these are not more than a header
holds.
-/
namespace PaldOs

open Sys

/-! ## Regular files -/

section Chain
variable {disk : ℕ → Sector} {hs hs' : List ℕ}

theorem ChainOk.getD_eq (h : ChainOk disk hs) (h' : ChainOk disk hs')
    (hhead : hs'.getD 0 0 = hs.getD 0 0) {i : ℕ} (hi : i < hs.length) :
    i < hs'.length ∧ hs'.getD i 0 = hs.getD i 0 := by
  induction i with
  | zero => exact ⟨h'.pos, hhead⟩
  | succ i ih =>
    obtain ⟨hi', heq⟩ := ih (by omega)
    have hsame : headerOf disk hs' i = headerOf disk hs i := by rw [headerOf, heq, headerOf]
    have hnext := h.next i hi
    have hmore : i + 1 < hs'.length := by
      by_contra hge
      obtain rfl : i = hs'.length - 1 := by omega
      have hlast := h'.last
      rw [hsame, hnext] at hlast
      exact h.nonzero _ (Nat.succ_pos _) hi hlast
    refine ⟨hmore, ?_⟩
    rw [← h'.next i hmore, hsame, hnext]

/-- **The headers of a file follow from the first.** -/
theorem ChainOk.eq (h : ChainOk disk hs) (h' : ChainOk disk hs')
    (hhead : hs'.getD 0 0 = hs.getD 0 0) : hs' = hs := by
  have hle : hs.length ≤ hs'.length := by
    have hpos := h.pos
    have := (h.getD_eq h' hhead (i := hs.length - 1) (by omega)).1
    omega
  have hge : hs'.length ≤ hs.length := by
    have hpos := h'.pos
    have := (h'.getD_eq h hhead.symm (i := hs'.length - 1) (by omega)).1
    omega
  refine List.ext_getElem (by omega) fun i hi' hi => ?_
  have heq := (h.getD_eq h' hhead hi).2
  rwa [List.getD_eq_getElem _ _ hi', List.getD_eq_getElem _ _ hi] at heq

end Chain

/-- **A file as `Create` and `Write` make it**: a header that is not the first is made when
there are bytes for it. -/
structure RegularFile (disk : ℕ → Sector) (hs : List ℕ) : Prop extends FileOk disk hs where
  filled : 1 < hs.length → headerBytes * (hs.length - 1) < fileLength disk hs

/-- A `Write` keeps a file regular. -/
theorem Outcome.regular {m : ℕ} {disk₀ disk : ℕ → Sector} {hs₀ hs reserved : List ℕ}
    {map₀ freeMap : Bitmap} {c n k : ℕ} {src : ℕ → UInt8} {o : OpenFile}
    (hout : Outcome m disk₀ hs₀ map₀ c src n k disk hs freeMap reserved o)
    (hreg : RegularFile disk₀ hs₀) : RegularFile disk hs := by
  refine ⟨hout.progress.ok, fun hlong => ?_⟩
  rw [hout.holds.length]
  rcases hout.filled with rfl | hlt
  · exact lt_max_of_lt_left (hreg.filled hlong)
  · exact lt_max_of_lt_right hlt

/-! ## Where `Read` leaves a handle -/

/-- The handle is in one of the headers. -/
def InHeader (disk : ℕ → Sector) (hs : List ℕ) (o : OpenFile) : Prop :=
  ∃ i, i < hs.length ∧ o.hdr = headerOf disk hs i ∧
    o.seekPosition ≤ (headerOf disk hs i).numBytes

section Read
variable {s : System} {f n c : ℕ} {disk : ℕ → Sector} {hs : List ℕ} {o : OpenFile}
  {into : ℕ → UInt8}

theorem ReadsAt.inHeader (h : ReadsAt disk hs o c) : InHeader disk hs o := by
  obtain ⟨i, hi, ho, -, hseek, -⟩ := h
  exact ⟨i, hi, ho, hseek⟩

/-- How much `ReadAt` returns, if it does. -/
theorem readAt_count {position : ℕ} (hle : position ≤ (s.openFile f).hdr.numBytes)
    (hlt : (s.openFile f).hdr.numBytes < 2 ^ 32) (hn : n < 2 ^ 32) :
    s.Yields (OpenFile.readAt f n position) (fun r s' => s' = s ∧ r.1 =
      if position + n < 2 ^ 32 then min n ((s.openFile f).hdr.numBytes - position)
      else if (s.openFile f).hdr.numBytes = position then 0 else n) := by
  unfold OpenFile.readAt
  refine Prog.yields_bind.mpr (yields_assert.mpr fun _ => ?_)
  refine Prog.yields_bind.mpr (yields_getOpenFile.mpr ?_)
  dsimp only
  split
  · refine Prog.yields_pure.mpr ⟨rfl, ?_⟩
    split_ifs <;> omega
  · refine Prog.yields_bind.mpr (readSectors_yields.mono ?_)
    rintro _ _ rfl
    refine Prog.yields_bind.mpr (yields_assert.mpr fun _ => ?_)
    refine Prog.yields_pure.mpr ⟨rfl, ?_⟩
    dsimp only
    split_ifs <;> omega

/-- The loop of `Read` goes from header to header. -/
theorem readNext_inHeader (hf : FileOk disk hs) {fuel i result : ℕ} (hi : i < hs.length)
    (ho : o.hdr = headerOf disk hs i) (hseek : o.seekPosition ≤ (headerOf disk hs i).numBytes)
    (hn : n < 2 ^ 32) :
    (s.writing f disk o).Yields
      (OpenFile.readNext f fuel (headerOf disk hs i).nextFileHeader into result n) (fun _ s' =>
        ∃ o', s' = s.writing f disk o' ∧ InHeader disk hs o') := by
  induction fuel generalizing i result into n o with
  | zero => exact Prog.yields_bind.mpr yields_fail
  | succ fuel ih =>
    unfold OpenFile.readNext
    split
    · rename_i hgo
      have hi' : i + 1 < hs.length := by
        by_contra hge
        obtain rfl : i = hs.length - 1 := by omega
        exact hgo.1 hf.last
      have hle := (hf.headers _ hi').numBytes_le
      have hbytes : headerBytes = 3712 := rfl
      rw [hf.next i hi']
      refine Prog.yields_bind.mpr (yields_getOpenFile.mpr ?_)
      refine Prog.yields_bind.mpr (yields_setOpenFile.mpr ?_)
      refine Prog.yields_bind.mpr (Prog.yields_bind.mpr (yields_readSector.mpr fun _ => ?_))
      refine Prog.yields_bind.mpr (yields_getOpenFile.mpr ?_)
      refine yields_setOpenFile.mpr ?_
      refine Prog.yields_bind.mpr (yields_getOpenFile.mpr ?_)
      simp only [System.writing_self, System.writing_putOpenFile, System.writing_disk]
      refine Prog.yields_bind.mpr ((readAt_count (Nat.zero_le _) ?_ hn).mono ?_)
      · rw [System.writing_self]
        show (headerOf disk hs (i + 1)).numBytes < 2 ^ 32
        omega
      rintro ⟨r, data⟩ _ ⟨rfl, hr⟩
      rw [System.writing_self, if_pos (by omega)] at hr
      refine Prog.yields_bind.mpr (yields_getOpenFile.mpr ?_)
      refine Prog.yields_bind.mpr (yields_setOpenFile.mpr ?_)
      refine Prog.yields_bind.mpr (yields_getOpenFile.mpr ?_)
      simp only [System.writing_self, System.writing_putOpenFile]
      refine ih hi' rfl ?_ (by omega)
      have hr' : r = min n ((headerOf disk hs (i + 1)).numBytes - 0) := hr
      simp only
      omega
    · exact Prog.yields_pure.mpr ⟨o, rfl, i, hi, ho, hseek⟩

/-- **`Read` leaves the handle in one of the headers.**  A size that is too large is served with
nothing or with as many bytes. -/
theorem read_inHeader (hf : FileOk disk hs) (ho : InHeader disk hs o) (hn : n < 2 ^ 32) :
    (s.writing f disk o).Yields (OpenFile.read f into n false) (fun r s' =>
      ∃ o', s' = s.writing f disk o' ∧ InHeader disk hs o' ∧
        (2 ^ 32 ≤ o.seekPosition + n → r.1 = 0 ∧ o' = o ∨ r.1 = n)) := by
  obtain ⟨i, hi, hhdr, hseek⟩ := ho
  have hle := (hf.headers _ hi).numBytes_le
  have hbytes : headerBytes = 3712 := rfl
  unfold OpenFile.read OpenFile.rewindRead
  refine Prog.yields_bind.mpr (yields_assert.mpr fun _ => ?_)
  rw [if_neg Bool.false_ne_true]
  refine Prog.yields_bind.mpr (Prog.yields_pure.mpr ?_)
  refine Prog.yields_bind.mpr (yields_getOpenFile.mpr ?_)
  rw [System.writing_self]
  have hself : ((s.writing f disk o).openFile f).hdr = headerOf disk hs i := by
    rw [System.writing_self, hhdr]
  refine Prog.yields_bind.mpr ((readAt_count (by rw [hself]; exact hseek)
    (by rw [hself]; omega) hn).mono ?_)
  rintro ⟨r, data⟩ _ ⟨rfl, hr⟩
  simp only [hself] at hr
  refine Prog.yields_bind.mpr (yields_getOpenFile.mpr ?_)
  refine Prog.yields_bind.mpr (yields_setOpenFile.mpr ?_)
  simp only [System.writing_self, System.writing_putOpenFile, hhdr]
  by_cases hsum : o.seekPosition + n < 2 ^ 32
  · rw [if_pos hsum] at hr
    have hr32 : (o.seekPosition + r) % 2 ^ 32 = o.seekPosition + r := by omega
    rw [hr32]
    split
    · refine Prog.yields_bind.mpr (yields_getOpenFile.mpr ?_)
      rw [System.writing_self]
      refine (readNext_inHeader hf hi rfl (by simp only; omega) (by omega)).mono ?_
      rintro r' _ ⟨o', rfl, ho'⟩
      exact ⟨o', rfl, ho', fun h => absurd hsum (Nat.not_lt.mpr h)⟩
    · refine Prog.yields_pure.mpr
        ⟨_, rfl, ⟨i, hi, rfl, ?_⟩, fun h => absurd hsum (Nat.not_lt.mpr h)⟩
      simp only
      omega
  · -- the sum is too large, so the header seems to have all that is asked for
    rw [if_neg hsum] at hr
    rw [if_neg (by omega)]
    refine Prog.yields_pure.mpr ⟨_, rfl, ⟨i, hi, rfl, ?_⟩, fun _ => ?_⟩
    · simp only
      split_ifs at hr <;> omega
    · split_ifs at hr
      · refine Or.inl ⟨hr, ?_⟩
        have hr32 : (o.seekPosition + r) % 2 ^ 32 = o.seekPosition := by omega
        rw [hr32, ← hhdr]
      · exact Or.inr hr

/-- The handle reads byte `p` next; or a size that was too large has been served before. -/
def LeftAt (disk : ℕ → Sector) (hs : List ℕ) (o : OpenFile) (p : ℕ) : Prop :=
  ReadsAt disk hs o p ∨ InHeader disk hs o ∧ 2 ^ 32 - headerBytes ≤ p

/-- One `Read` of any size. -/
theorem LeftAt.read (h : LeftAt disk hs o c) (hf : FileOk disk hs) (hn : 0 < n)
    (hn' : n < 2 ^ 32) :
    (s.writing f disk o).Yields (OpenFile.read f into n false) (fun r s' =>
      ∃ o', s' = s.writing f disk o' ∧ LeftAt disk hs o' (c + r.1)) := by
  have hbytes : headerBytes = 3712 := rfl
  rcases h with hr | ⟨hin, hlarge⟩
  · by_cases hsum : c = fileLength disk hs ∨ seekOf c + n < 2 ^ 32
    · refine (read_ends hf hr hn hn' hsum).yields.mono ?_
      rintro r _ ⟨-, -, o', rfl, hr'⟩
      exact ⟨o', rfl, Or.inl hr'⟩
    · have hc : c < fileLength disk hs := by
        obtain ⟨i, hi, -, hpos, hseek, -⟩ := hr
        have := hf.header_end_le hi
        omega
      have hseek := hr.seek_eq hf hc
      obtain ⟨i, hi, -, -, hle, -⟩ := id hr
      have hfull := (hf.headers i hi).numBytes_le
      refine (read_inHeader hf hr.inHeader hn').mono ?_
      rintro ⟨r, data⟩ _ ⟨o', rfl, hin, hcases⟩
      refine ⟨o', rfl, ?_⟩
      rcases hcases (by omega) with ⟨h0, rfl⟩ | hall
      · simp only at h0
        rw [h0]
        exact Or.inl hr
      · refine Or.inr ⟨hin, ?_⟩
        simp only at hall ⊢
        omega
  · refine (read_inHeader hf hin hn').mono ?_
    rintro ⟨r, data⟩ _ ⟨o', rfl, hin', -⟩
    exact ⟨o', rfl, Or.inr ⟨hin', by omega⟩⟩

/-- How many bytes there are in some pieces. -/
def totalLength (pieces : List (List UInt8)) : ℕ := (pieces.map List.length).sum

/-- **Any `Read`s.** -/
theorem LeftAt.runReads (h : LeftAt disk hs o c) (hf : FileOk disk hs) {sizes : List ℕ}
    (hsizes : ∀ n ∈ sizes, 0 < n ∧ n < 2 ^ 32) :
    (s.writing f disk o).Yields (runReads f sizes) (fun pieces s' =>
      ∃ o', s' = s.writing f disk o' ∧ o'.sector = o.sector ∧
        o'.currentSector = o.currentSector ∧ LeftAt disk hs o' (c + totalLength pieces)) := by
  induction sizes generalizing o c with
  | nil => exact Prog.yields_pure.mpr ⟨o, rfl, rfl, rfl, h⟩
  | cons n sizes ih =>
    obtain ⟨hn, hn'⟩ := hsizes n List.mem_cons_self
    rw [runReads_cons]
    have hboth : (s.writing f disk o).Yields (OpenFile.read f (fun _ => 0) n false) (fun r s' =>
        ∃ o', s' = s.writing f disk o' ∧ o'.sector = o.sector ∧
          o'.currentSector = o.currentSector ∧ LeftAt disk hs o' (c + r.1)) := by
      intro r s' hrun
      obtain ⟨o', rfl, hleft⟩ := h.read hf hn hn' r s' hrun
      obtain ⟨-, o'', heq, hsec, hcur⟩ := read_yields r _ hrun
      rw [System.writing_self] at hsec hcur
      have hopen := congrArg (fun t => System.openFile t f) heq
      simp only [System.writing_self] at hopen
      subst hopen
      exact ⟨o', rfl, hsec, hcur, hleft⟩
    refine Prog.yields_bind.mpr (hboth.mono ?_)
    rintro ⟨r, into⟩ _ ⟨o', rfl, hsec, hcur, hleft⟩
    refine Prog.yields_bind.mpr
      ((ih hleft fun k hk => hsizes k (List.mem_cons_of_mem _ hk)).mono ?_)
    rintro pieces _ ⟨o'', rfl, hsec', hcur', hleft'⟩
    refine Prog.yields_pure.mpr ⟨o'', rfl, hsec'.trans hsec, hcur'.trans hcur, ?_⟩
    have htotal : totalLength ((List.range r).map into :: pieces) = r + totalLength pieces := by
      rw [totalLength, List.map_cons, List.sum_cons, List.length_map, List.length_range,
        totalLength]
    rw [htotal, ← Nat.add_assoc]
    exact hleft'

end Read

/-! ## Where `Write` goes on -/

/-- Handle `f` has just been opened on the file. -/
def JustOpened (s : System) (hs : List ℕ) (f : ℕ) : Prop :=
  s.openFile f = ⟨hs.getD 0 0, hs.getD 0 0, 0, headerOf s.disk hs 0⟩

/-- After the call the file holds the `n` bytes of `src` at byte `p`, and elsewhere what it
held. -/
def WrittenAt (s : System) (hs : List ℕ) (p : ℕ) (src : ℕ → UInt8) (n : ℕ) (s' : System) : Prop :=
  ∃ hs', hs'.getD 0 0 = hs.getD 0 0 ∧ FileOk s'.disk hs' ∧ Holds s.disk hs p src n s'.disk hs'

section Write
variable {s s₁ : System} {f m n : ℕ} {hs : List ℕ}

/-- A handle that still has the first header for writing writes at its offset there. -/
theorem LeftAt.cursor {o : OpenFile} {p : ℕ} {disk : ℕ → Sector} (h : LeftAt disk hs o p)
    (hf : FileOk disk hs) (hcur : o.currentSector = hs.getD 0 0) :
    CursorAt disk hs o o.seekPosition := by
  have hin : InHeader disk hs o := by
    rcases h with h | h
    · exact h.inHeader
    · exact h.1
  obtain ⟨i, hi, -, hseek⟩ := hin
  refine ⟨0, hf.pos, hcur, by omega, ?_⟩
  by_cases h0 : i = 0
  · rwa [h0] at hseek
  · rw [hf.full 0 (by omega)]
    exact hseek.trans (hf.headers i hi).numBytes_le

/-- What has been read is the offset in the first header exactly if it is not more than that
header holds. -/
theorem LeftAt.seek_eq {o : OpenFile} {p : ℕ} {disk : ℕ → Sector} (h : LeftAt disk hs o p)
    (hf : RegularFile disk hs) : (p ≤ headerBytes → o.seekPosition = p) ∧
      o.seekPosition ≤ headerBytes := by
  have hbytes : headerBytes = 3712 := rfl
  rcases h with ⟨i, hi, -, hpos, hseek, hzero⟩ | ⟨⟨i, hi, -, hseek⟩, hlarge⟩
  · have hle := (hf.headers i hi).numBytes_le
    refine ⟨fun hp => ?_, hseek.trans hle⟩
    have hfilled := hf.filled
    rw [hbytes] at hpos hp hfilled
    by_cases h0 : i = 0
    · rw [hpos, h0]
      omega
    · -- only the first byte of the second header is left, and that header has bytes
      exfalso
      rcases hzero (by omega) with h | h
      · exact h0 h
      · have := hfilled (by omega)
        omega
  · have hle := (hf.headers i hi).numBytes_le
    exact ⟨fun hp => by omega, hseek.trans hle⟩

/-- Two `Write`s at different places do not leave the same, for some of the bytes that can be
written. -/
theorem not_written_elsewhere {disk₀ disk : ℕ → Sector} {hs₀ hs : List ℕ} {q k p : ℕ}
    {src : ℕ → UInt8} (hq : Holds disk₀ hs₀ q src k disk hs) (hp : Holds disk₀ hs₀ p src n disk hs)
    (hlt : q < p) (hn : 0 < n) (hsrc : src 0 ≠ fileByte disk₀ hs₀ q)
    (hsrc' : src 0 ≠ fileByte disk₀ hs₀ p) : False := by
  have hlen := hq.length
  have hlen' := hp.length
  by_cases hk : k = 0
  · have h1 := hq.byte p (by omega)
    have h2 := hp.byte p (by omega)
    rw [if_neg (by omega)] at h1
    rw [if_pos (by omega), Nat.sub_self] at h2
    exact hsrc' (h2.symm.trans h1)
  · have h1 := hq.byte q (by omega)
    have h2 := hp.byte q (by omega)
    rw [if_pos (by omega), Nat.sub_self] at h1
    rw [if_neg (by omega)] at h2
    exact hsrc (h1.symm.trans h2)

/-- A byte that is neither of two. -/
theorem exists_other_byte (a b : UInt8) : ∃ x : UInt8, x ≠ a ∧ x ≠ b := by
  by_cases h0 : (0 : UInt8) ≠ a ∧ (0 : UInt8) ≠ b
  · exact ⟨0, h0⟩
  · by_cases h1 : (1 : UInt8) ≠ a ∧ (1 : UInt8) ≠ b
    · exact ⟨1, h1⟩
    · refine ⟨2, ?_, ?_⟩
      · rintro rfl
        have hb0 : (0 : UInt8) = b := by simpa using h0
        have hb1 : (1 : UInt8) = b := by simpa using h1
        exact absurd (hb0.trans hb1.symm) (by decide)
      · rintro rfl
        have ha0 : (0 : UInt8) = a := by simpa using h0
        have ha1 : (1 : UInt8) = a := by simpa using h1
        exact absurd (ha0.trans ha1.symm) (by decide)

/-- Where the `Read`s through a handle just opened leave it. -/
theorem JustOpened.runReads (hopen : JustOpened s hs f) (hf : FileOk s.disk hs) {sizes : List ℕ}
    (hsizes : ∀ k ∈ sizes, 0 < k ∧ k < 2 ^ 32) {pieces : List (List UInt8)}
    (hrun : (runReads f sizes).run System.act s = some (pieces, s₁)) :
    ∃ o, s₁ = s.writing f s.disk o ∧ o.sector = hs.getD 0 0 ∧ o.currentSector = hs.getD 0 0 ∧
      LeftAt s.disk hs o (totalLength pieces) := by
  have hstart : LeftAt s.disk hs (s.openFile f) 0 := by
    rw [hopen]
    exact Or.inl ⟨0, hf.pos, rfl, rfl, Nat.zero_le _, fun _ => Or.inl rfl⟩
  rw [← s.writing_start f] at hrun
  obtain ⟨o, rfl, hsec, hcur, hleft⟩ := hstart.runReads hf hsizes pieces s₁ hrun
  rw [Nat.zero_add] at hleft
  rw [hopen] at hsec hcur
  exact ⟨o, rfl, hsec, hcur, hleft⟩

section Left
variable {o : OpenFile} {p : ℕ}

/-- The `Write` goes to the offset of the handle, in the first header. -/
theorem LeftAt.write (hleft : LeftAt s.disk hs o p)
    (ho : OpenForWriting s m hs (fun g => g = f) fun _ => 0) (hsec : o.sector = hs.getD 0 0)
    (hcur : o.currentSector = hs.getD 0 0) (hn : 0 < n) (src : ℕ → UInt8) :
    (s.writing f s.disk o).Ends (OpenFile.write f src n false) (fun k s' =>
      (∃ hs', hs'.getD 0 0 = hs.getD 0 0 ∧ FileOk s'.disk hs' ∧
        Holds s.disk hs o.seekPosition src k s'.disk hs') ∧
      (Ample s.disk hs (mapOn s.disk m) o.seekPosition n → k = n)) := by
  have hf := ho.stored.ok
  have hfree : f ≠ s.freeMapFile := ho.apart f rfl
  obtain ⟨l, hlock, hheld⟩ := ho.lock
  refine (write_ends (ho.map.writing hfree _ _) hfree ho.stored
    (by rw [System.writing_self, hsec]; exact hlock) hheld
    (by rw [System.writing_self]; exact hleft.cursor hf hcur) hn).mono ?_
  rintro k _ ⟨map₀, disk, hs', freeMap, reserved, o', rfl, -, -, hout, -, -, -, hample, -⟩
  exact ⟨⟨hs', getD_of_chain hout.progress.chain hf.pos, hout.progress.ok, hout.holds⟩, hample⟩

/-- **Past the first header a `Write` goes to the wrong place.** -/
theorem LeftAt.not_written (hleft : LeftAt s.disk hs o p)
    (ho : OpenForWriting s m hs (fun g => g = f) fun _ => 0) (hreg : RegularFile s.disk hs)
    (hsec : o.sector = hs.getD 0 0) (hcur : o.currentSector = hs.getD 0 0) (hn : 0 < n)
    (hgt : headerBytes < p) :
    ¬ ∀ src, (s.writing f s.disk o).Ends (OpenFile.write f src n false) (fun _ s' =>
      WrittenAt s hs p src n s') := by
  intro hall
  have hsmall := (hleft.seek_eq hreg).2
  obtain ⟨x, hx, hx'⟩ := exists_other_byte (fileByte s.disk hs o.seekPosition)
    (fileByte s.disk hs p)
  obtain ⟨k, s', hrun, ⟨hs', hhead, hok', hq⟩, -⟩ := hleft.write ho hsec hcur hn fun _ => x
  obtain ⟨hs'', hhead', hok'', hp⟩ := (hall fun _ => x).of_run hrun
  obtain rfl := hok'.toChainOk.eq hok''.toChainOk (hhead'.trans hhead.symm)
  exact not_written_elsewhere hq hp (by omega) hn hx hx'

end Left

/-- **Reads and writes share one cursor exactly within the first header.**  After any `Read`s
through a handle just opened, which returned `p` bytes, a `Write` with enough space
replaces or extends exactly the bytes from `p` on, for all bytes that can be written, if and
only if `p` is not more than a header holds. -/
theorem write_after_reads_iff (ho : OpenForWriting s m hs (fun g => g = f) fun _ => 0)
    (hreg : RegularFile s.disk hs) (hopen : JustOpened s hs f) {sizes : List ℕ}
    (hsizes : ∀ k ∈ sizes, 0 < k ∧ k < 2 ^ 32) {pieces : List (List UInt8)}
    (hrun : (runReads f sizes).run System.act s = some (pieces, s₁)) (hn : 0 < n)
    (hroom : Ample s.disk hs (mapOn s.disk m) (totalLength pieces) n) :
    (∀ src, s₁.Ends (OpenFile.write f src n false) (fun _ s' =>
      WrittenAt s hs (totalLength pieces) src n s')) ↔ totalLength pieces ≤ headerBytes := by
  obtain ⟨o, rfl, hsec, hcur, hleft⟩ := hopen.runReads hreg.toFileOk hsizes hrun
  constructor
  · intro hall
    by_contra hgt
    exact hleft.not_written ho hreg hsec hcur hn (Nat.not_le.mp hgt) hall
  · intro hle src
    refine (hleft.write ho hsec hcur hn src).mono ?_
    rintro k s' ⟨⟨hs', hhead, hok, hholds⟩, hall⟩
    have heq := (hleft.seek_eq hreg).1 hle
    rw [heq] at hall hholds
    rw [hall hroom] at hholds
    exact ⟨hs', hhead, hok, hholds⟩

end Write

theorem justOpened_shortFileSystem : JustOpened shortFileSystem [5] 3 := by
  rw [JustOpened, headerOf_shortFileSystem]
  rfl

/-- After 100 of the 200 bytes are read, 50 bytes are written from byte 100 on. -/
theorem write_after_reads_iff_shortFile : ∃ pieces s₁,
    (runReads 3 [100]).run System.act shortFileSystem = some (pieces, s₁) ∧
      totalLength pieces = 100 ∧
      ∀ src, s₁.Ends (OpenFile.write 3 src 50 false) (fun _ s' =>
        WrittenAt shortFileSystem [5] 100 src 50 s') := by
  have hf := fileOk_shortFileSystem
  have hreg : RegularFile shortFileSystem.disk [5] := ⟨hf, fun h => absurd h (by decide)⟩
  have hopen := justOpened_shortFileSystem
  have hreads : ReadsAt shortFileSystem.disk [5] (shortFileSystem.openFile 3) 0 := by
    rw [hopen]
    exact ⟨0, by decide, rfl, rfl, Nat.zero_le _, fun _ => Or.inl rfl⟩
  have hread : (shortFileSystem.writing 3 shortFileSystem.disk (shortFileSystem.openFile 3)).Ends
      (runReads 3 [100]) (fun pieces _ =>
        pieces = cut ((fileContent shortFileSystem.disk [5]).drop 0) [100]) :=
    (runReads_iff hf hreads (by simp)).mpr ⟨Or.inr (by decide), trivial⟩
  rw [System.writing_start] at hread
  obtain ⟨pieces, s₁, hrun, hpieces⟩ := hread
  have htotal : totalLength pieces = 100 := by
    rw [hpieces]
    simp [cut, totalLength, fileLength_shortFileSystem]
  refine ⟨pieces, s₁, hrun, htotal, ?_⟩
  rw [← htotal]
  refine (write_after_reads_iff openForWriting_shortFileSystem hreg hopen (by simp) hrun
    (by decide) ?_).mpr (by rw [htotal]; decide)
  rw [htotal, Ample, Short, sectorCount_shortFileSystem]
  refine ⟨?_, Nat.zero_le _⟩
  have hneed : divRoundUp (min (100 + 50) (headerBytes * [5].length)) sectorSize = 2 := by decide
  omega

/-! ### A file of two headers -/

/-- A volume with the free map in sector 2 and a file of 3840 bytes, with its headers in sectors
5 and 6, which is open as handle 3. -/
def longFileSystem : System where
  disk x :=
    if x = 5 then RawFileHeader.toSector ⟨3712, 29, fun i => if i < 29 then 10 + i else 0, 6⟩
    else if x = 6 then RawFileHeader.toSector ⟨128, 1, fun i => if i = 0 then 39 else 0, 0⟩
    else if x = 2 then Bitmap.toBytes (fun i => decide (i < 40))
    else fun _ => 0
  openFilesTable _ := ⟨some 2, some 1, some 3, false, false, 1⟩
  openFile f :=
    if f = 0 then ⟨0, 0, 0, ⟨128, 1, fun i => if i = 0 then 2 else 0, 0⟩⟩
    else ⟨5, 5, 0, ⟨3712, 29, fun i => if i < 29 then 10 + i else 0, 6⟩⟩
  nextOpenFile := 4
  freeMapFile := 0
  directoryFile := 1
  directorySize := 10
  held _ := false
  nextLock := 4
  heap _ := 0

theorem headerOf_longFileSystem_zero : headerOf longFileSystem.disk [5, 6] 0 =
    ⟨3712, 29, fun i => if i < 29 then 10 + i else 0, 6⟩ := by
  refine RawFileHeader.ofSector_toSector
    ⟨by decide, by decide, fun i => ?_, fun i hi => ?_, by decide⟩
  · dsimp only
    split <;> omega
  · have : 29 ≤ i := hi
    dsimp only
    rw [if_neg (by omega)]

theorem headerOf_longFileSystem_one : headerOf longFileSystem.disk [5, 6] 1 =
    ⟨128, 1, fun i => if i = 0 then 39 else 0, 0⟩ := by
  refine RawFileHeader.ofSector_toSector
    ⟨by decide, by decide, fun i => ?_, fun i hi => ?_, by decide⟩
  · dsimp only
    split <;> omega
  · have : 29 ≤ i := hi
    dsimp only
    rw [if_neg (by omega)]

theorem sectorCount_longFileSystem : sectorCount longFileSystem.disk [5, 6] = 30 := by
  show numDirect * 1 + (headerOf longFileSystem.disk [5, 6] 1).numSectors = 30
  rw [headerOf_longFileSystem_one]
  rfl

theorem fileLength_longFileSystem : fileLength longFileSystem.disk [5, 6] = 3840 := by
  show headerBytes * 1 + (headerOf longFileSystem.disk [5, 6] 1).numBytes = 3840
  rw [headerOf_longFileSystem_one]
  rfl

theorem dataSector_longFileSystem {q : ℕ} (hq : q < 30) :
    dataSector longFileSystem.disk [5, 6] q = 10 + q := by
  have hnd : numDirect = 29 := rfl
  rw [dataSector, hnd]
  by_cases h29 : q < 29
  · rw [Nat.div_eq_of_lt h29, Nat.mod_eq_of_lt h29, headerOf_longFileSystem_zero]
    exact if_pos h29
  · obtain rfl : q = 29 := by omega
    rw [Nat.div_self (by decide), Nat.mod_self, headerOf_longFileSystem_one]
    rfl

theorem fileOk_longFileSystem : FileOk longFileSystem.disk [5, 6] := by
  have hzero := headerOf_longFileSystem_zero
  have hone := headerOf_longFileSystem_one
  have hcount := sectorCount_longFileSystem
  have htwo : ∀ i, i < [5, 6].length → i = 0 ∨ i = 1 := by
    intro i hi
    have : i < 2 := hi
    omega
  have hfirst : ∀ i, i + 1 < [5, 6].length → i = 0 := by
    intro i hi
    have : i + 1 < 2 := hi
    omega
  have hheads : ∀ i, i < [5, 6].length → [5, 6].getD i 0 = 5 + i := by
    intro i hi
    rcases htwo i hi with rfl | rfl <;> rfl
  refine ⟨⟨by decide, ?_, ?_, ?_, ?_, ?_, ?_⟩, ?_, ?_, ?_⟩
  · intro i hi
    rcases htwo i hi with rfl | rfl
    · rw [hzero]
      refine ⟨by decide, by decide, fun j hj => ?_⟩
      have hj' : j < 29 := hj
      show (if j < 29 then 10 + j else 0) < 1024
      rw [if_pos hj']
      omega
    · rw [hone]
      refine ⟨by decide, by decide, fun j hj => ?_⟩
      have hj' : j < 1 := hj
      show (if j = 0 then 39 else 0) < 1024
      split <;> decide
  · intro i hi
    rw [hfirst i hi, hzero]
    rfl
  · intro i hi
    rw [hfirst i hi, hzero]
    rfl
  · show (headerOf longFileSystem.disk [5, 6] 1).nextFileHeader = 0
    rw [hone]
  · intro i _ hi
    rw [hheads i hi]
    omega
  · intro i hi
    rw [hheads i hi]
    rcases htwo i hi with rfl | rfl <;> decide
  · intro i j hi hj heq
    rw [hheads i hi, hheads j hj] at heq
    omega
  · intro q q' hq hq' heq
    rw [hcount] at hq hq'
    rw [dataSector_longFileSystem hq, dataSector_longFileSystem hq'] at heq
    omega
  · intro i q hi hq
    rw [hcount] at hq
    rw [hheads i hi, dataSector_longFileSystem hq]
    have : i < 2 := hi
    omega

theorem openForWriting_longFileSystem :
    OpenForWriting longFileSystem 2 [5, 6] (fun f => f = 3) fun _ => 0 := by
  have howned : ∀ x, Owned longFileSystem.disk [5, 6] x → 5 ≤ x ∧ x < 40 := by
    rintro x (⟨i, hi, rfl⟩ | ⟨q, hq, rfl⟩)
    · have hi' : i < 2 := hi
      interval_cases i <;> decide
    · rw [sectorCount_longFileSystem] at hq
      rw [dataSector_longFileSystem hq]
      omega
  have hdisk : longFileSystem.disk 2 = Bitmap.toBytes (fun i => decide (i < 40)) := by
    simp [longFileSystem]
  have hmap : mapOn longFileSystem.disk 2 = fun i => decide (i < 40) := by
    rw [mapOn, hdisk, Bitmap.ofBytes_toBytes]
  refine ⟨⟨rfl, rfl, rfl, by decide⟩, ⟨fileOk_longFileSystem, fun _ _ => rfl, fun x hx => ?_, ?_,
    fun h => ?_, ?_⟩, ⟨1, rfl, rfl⟩, ?_, ?_, ?_⟩
  · rw [hmap]
    exact decide_eq_true (howned x hx).2
  · rw [hmap]
    rfl
  · exact absurd (howned 2 h).1 (by decide)
  · rw [hmap]
    rfl
  · rintro f rfl
    decide
  · rintro f rfl
    rfl
  · rintro f rfl
    exact ⟨0, by decide, rfl, rfl, Nat.zero_le _⟩

/-- **A `Write` in the wrong header.**  After 3800 of the 3840 bytes are read, 10 bytes are not
written from byte 3800 on. -/
theorem write_in_first_header : ∃ pieces s₁,
    (runReads 3 [3800]).run System.act longFileSystem = some (pieces, s₁) ∧
      totalLength pieces = 3800 ∧
      Ample longFileSystem.disk [5, 6] (mapOn longFileSystem.disk 2) 3800 10 ∧
      ¬ ∀ src, s₁.Ends (OpenFile.write 3 src 10 false) (fun _ s' =>
        WrittenAt longFileSystem [5, 6] 3800 src 10 s') := by
  have hf := fileOk_longFileSystem
  have hreg : RegularFile longFileSystem.disk [5, 6] := by
    refine ⟨hf, fun _ => ?_⟩
    rw [fileLength_longFileSystem]
    decide
  have hopen : JustOpened longFileSystem [5, 6] 3 := by
    rw [JustOpened, headerOf_longFileSystem_zero]
    rfl
  have hreads : ReadsAt longFileSystem.disk [5, 6] (longFileSystem.openFile 3) 0 := by
    rw [hopen]
    exact ⟨0, by decide, rfl, rfl, Nat.zero_le _, fun _ => Or.inl rfl⟩
  have hread : (longFileSystem.writing 3 longFileSystem.disk (longFileSystem.openFile 3)).Ends
      (runReads 3 [3800]) (fun pieces _ =>
        pieces = cut ((fileContent longFileSystem.disk [5, 6]).drop 0) [3800]) :=
    (runReads_iff hf hreads (by simp)).mpr ⟨Or.inr (by decide), trivial⟩
  rw [System.writing_start] at hread
  obtain ⟨pieces, s₁, hrun, hpieces⟩ := hread
  have htotal : totalLength pieces = 3800 := by
    rw [hpieces]
    simp [cut, totalLength, fileLength_longFileSystem]
  obtain ⟨o, rfl, hsec, hcur, hleft⟩ := hopen.runReads hf (by simp) hrun
  rw [htotal] at hleft
  refine ⟨pieces, _, hrun, htotal, ?_, hleft.not_written openForWriting_longFileSystem hreg hsec
    hcur (by decide) (by decide)⟩
  rw [Ample, Short, sectorCount_longFileSystem]
  refine ⟨?_, Nat.zero_le _⟩
  have hneed : divRoundUp (min (3800 + 10) (headerBytes * [5, 6].length)) sectorSize = 30 := by
    decide
  omega

end PaldOs
