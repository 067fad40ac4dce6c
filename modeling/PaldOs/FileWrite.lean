import PaldOs.Writing

/-! # New headers, and `Write` as a whole

The third part of `Write` reserves the sectors of all the headers it will need, and
then links one header after the other, each with its data, until a sector is missing.
With it the whole of `Write` is described: it always comes to its end, and its outcome
is an `Outcome`.

Sectors stay reserved and belong to no file if the data sectors run out before the
headers do.  `Roomy` says in terms of the free sectors before the `Write` that this does
not happen.
-/
namespace PaldOs

open Sys

/-! ## The sectors of the new headers -/

section Reserve
variable {s : System} {f m : ℕ} {disk₀ disk disk' : ℕ → Sector} {hs₀ hs : List ℕ}
  {map₀ freeMap : Bitmap} {reserved : List ℕ} {o : OpenFile}

/-- One more sector is marked in the free map. -/
theorem Progress.reserve (hp : Progress m disk₀ hs₀ map₀ disk hs freeMap reserved)
    (hst : Stored m disk₀ hs₀ map₀) {x : ℕ} (hx : x < numSectors) (hclear : freeMap x = false)
    {data : Sector} (hdata : ∀ y, y < numSectors → Bitmap.ofBytes data y = freeMap.mark x y)
    (hdisk : disk' = Function.update disk m data) :
    Progress m disk₀ hs₀ map₀ disk' hs (freeMap.mark x) (reserved ++ [x]) ∧
      ∀ y, Owned disk hs y → disk' y = disk y := by
  have hapart := hp.map_apart hst
  have hout : ∀ y, y ≠ m → disk' y = disk y := by
    intro y hy
    rw [hdisk, Function.update_of_ne hy]
  have hkept : ∀ y, Owned disk hs y → disk' y = disk y :=
    fun y hy => hout y fun heq => hapart (heq ▸ hy)
  have hheaders : ∀ i, i < hs.length → headerOf disk' hs i = headerOf disk hs i :=
    fun i hi => headerOf_of_owned hkept hi
  have hcount := sectorCount_congr hp.ok.pos hheaders
  have howned := hp.ok.owned_congr hheaders
  -- what is clear in the free map is clear in the first one, unowned and not reserved
  have hnot : ¬ (map₀ x = true ∨ Owned disk hs x ∨ x ∈ reserved) := by
    intro h
    rw [(hp.marks x).mpr h] at hclear
    cases hclear
  refine ⟨⟨hp.ok.of_headers hheaders, hp.chain, hcount ▸ hp.count_le, fun q hq => ?_,
    fun y hy => hp.fresh y ((howned y).mp hy), fun y hy => ?_, fun y => ?_, fun y hy => ?_,
    fun y hy => ?_, fun y hy => ?_, ?_, fun y hym hy => ?_, ?_⟩, hkept⟩
  · rw [hp.ok.dataSector_congr hheaders (lt_of_lt_of_le hq hp.count_le)]
    exact hp.data q hq
  · rw [mapOn, hdisk, Function.update_self]
    exact hdata y hy
  · rw [howned y, List.mem_append, List.mem_singleton]
    by_cases hyx : y = x
    · simp [hyx, Bitmap.mark]
    · rw [Bitmap.mark, Function.update_of_ne hyx, hp.marks y]
      tauto
  · rcases List.mem_append.mp hy with hy | hy
    · exact hp.reserved_lt y hy
    · rw [List.mem_singleton.mp hy]
      exact hx
  · rcases List.mem_append.mp hy with hy | hy
    · exact hp.reserved_clear y hy
    · rw [List.mem_singleton.mp hy]
      exact Bool.eq_false_of_not_eq_true fun h => hnot (Or.inl h)
  · rw [howned y]
    rcases List.mem_append.mp hy with hy | hy
    · exact hp.reserved_apart y hy
    · rw [List.mem_singleton.mp hy]
      exact fun h => hnot (Or.inr (Or.inl h))
  · refine List.nodup_append.mpr ⟨hp.reserved_nodup, List.pairwise_singleton _ x, ?_⟩
    rintro y hy z hz rfl
    rw [List.mem_singleton.mp hz] at hy
    exact hnot (Or.inr (Or.inr hy))
  · rw [howned y] at hy
    rw [hout y hym]
    exact hp.frame y hym hy
  · have hfree := hp.free
    have hmark := Bitmap.countClear_mark hx hclear
    rw [hcount, List.length_append, List.length_singleton]
    omega

/-- The sectors of `j` headers. -/
theorem reserve_ends (hm : FreeMapOk s m) (hfm : f ≠ s.freeMapFile)
    (hst : Stored m disk₀ hs₀ map₀) (hp : Progress m disk₀ hs₀ map₀ disk hs freeMap reserved)
    {j : ℕ} (hj : j ≤ freeMap.countClear) :
    (s.writing f disk o).Ends (OpenFile.reserve freeMap j) (fun r s' =>
      ∃ disk', s' = s.writing f disk' o ∧ r.1.length = j ∧
        Progress m disk₀ hs₀ map₀ disk' hs r.2 (reserved ++ r.1) ∧
        ∀ y, Owned disk hs y → disk' y = disk y) := by
  induction j generalizing disk freeMap reserved with
  | zero =>
    simp only [OpenFile.reserve, Prog.ends_pure]
    exact ⟨disk, rfl, rfl, by rw [List.append_nil]; exact hp, fun _ _ => rfl⟩
  | succ j ih =>
    obtain ⟨x, freeMap', hfind⟩ := Bitmap.exists_find (show 0 < freeMap.countClear by omega)
    obtain ⟨hx, hclear, rfl⟩ := Bitmap.find_eq_some hfind
    have hmark := Bitmap.countClear_mark hx hclear
    simp only [OpenFile.reserve, hfind, Prog.ends_bind]
    refine (writeBackFreeMap_ends (hm.writing hfm _ _) _).mono ?_
    rintro _ _ ⟨data, rfl, hdata⟩
    rw [System.writing_putSector]
    obtain ⟨hp', hkept⟩ := hp.reserve hst hx hclear hdata rfl
    refine (ih hp' (by omega)).mono ?_
    rintro ⟨sectors, freeMap''⟩ _ ⟨disk', rfl, hlen, hp'', hkept'⟩
    simp only [Prog.ends_pure]
    refine ⟨disk', rfl, by rw [List.length_cons, hlen], ?_, fun y hy => ?_⟩
    · simpa only [List.append_assoc, List.singleton_append] using hp''
    · have hheaders : ∀ i, i < hs.length → headerOf _ hs i = headerOf disk hs i :=
        fun i hi => headerOf_of_owned hkept hi
      rw [hkept' y ((hp.ok.owned_congr hheaders y).mpr hy), hkept y hy]

end Reserve

/-! ## The headers -/

section Append
variable {s : System} {f m : ℕ} {disk₀ : ℕ → Sector} {hs₀ : List ℕ} {map₀ : Bitmap} {c n : ℕ}
  {src : ℕ → UInt8}

/-- A new header with the next `b` bytes. -/
theorem appendHeader_ends (hm : FreeMapOk s m) (hfm : f ≠ s.freeMapFile)
    (hst : Stored m disk₀ hs₀ map₀) {k b x : ℕ} {disk : ℕ → Sector} {hs rest : List ℕ}
    {freeMap freeMap' : Bitmap} {o : OpenFile} {h' : RawFileHeader}
    (hp : Progress m disk₀ hs₀ map₀ disk hs freeMap (x :: rest))
    (hh : Holds disk₀ hs₀ c src k disk hs) (ho : o.hdr = headerOf disk hs (hs.length - 1))
    (hfull : (headerOf disk hs (hs.length - 1)).numBytes = headerBytes)
    (hpos : c + k = headerBytes * hs.length)
    (hg : RawFileHeader.empty.Grows freeMap b h' freeMap') (hb : 0 < b) (hle : b ≤ headerBytes) :
    (s.writing f disk o).Ends
      (OpenFile.appendHeader f (hs.getD (hs.length - 1) 0) x h' b (Pending.after src n k freeMap'))
      (fun w s' => w = Pending.after src n (k + b) freeMap' ∧
        ∃ disk', s' = s.writing f disk' { o with
            hdr := headerOf disk' (hs ++ [x]) hs.length
            seekPosition := b } ∧
          Progress m disk₀ hs₀ map₀ disk' (hs ++ [x]) freeMap' rest ∧
          Holds disk₀ hs₀ c src (k + b) disk' (hs ++ [x]) ∧
          (headerOf disk' (hs ++ [x]) hs.length).numBytes = b) := by
  have hlast := hp.ok.pos
  have hbytes : headerBytes = 3712 := rfl
  have hx := hp.reserved_lt x List.mem_cons_self
  unfold OpenFile.appendHeader OpenFile.writeBackHeader
  simp only [Prog.ends_bind]
  refine (writeBackFreeMap_ends (hm.writing hfm _ _) freeMap').mono ?_
  rintro _ _ ⟨data, rfl, hdata⟩
  simp only [ends_writeSector, ends_getOpenFile, ends_setOpenFile, System.writing_self,
    System.writing_putSector, System.writing_putOpenFile]
  refine ⟨hx, hp.ok.heads_lt _ (by omega), ?_⟩
  rw [ho]
  obtain ⟨hp', hhdr, hlen, hkept⟩ := hp.append hst hfull hg hle hdata rfl
  generalize Function.update (Function.update (Function.update disk m data) x h'.toSector) _ _ =
    disk₁ at hp' hhdr hlen hkept ⊢
  have hnum := hg.numBytes_of_empty
  have hin : hs.length < (hs ++ [x]).length := by simp
  have hlen₁ : fileLength disk₁ (hs ++ [x]) = max (fileLength disk hs) (c + k + b) := by
    have hmul : headerBytes * hs.length = headerBytes * (hs.length - 1) + headerBytes := by
      rw [hbytes]
      omega
    have hdef : fileLength disk hs = headerBytes * (hs.length - 1) +
      (headerOf disk hs (hs.length - 1)).numBytes := rfl
    omega
  refine (transfer_holds (o := { o with hdr := h', seekPosition := 0 }) hst hh hp' hlen₁ hkept hin
    hhdr.symm hpos hb (by rw [hhdr, hnum]; exact (Nat.zero_add b).le)).mono ?_
  rintro _ _ ⟨rfl, disk', rfl, hp'', hh', hheaders⟩
  have hhdr' : headerOf disk' (hs ++ [x]) hs.length = h' := (hheaders _ hin).trans hhdr
  refine ⟨rfl, disk', ?_, hp'', hh', by rw [hhdr', hnum]⟩
  rw [hhdr']
  simp only [Nat.zero_add]

/-- Where the loop over the new headers is. -/
structure Linking (m : ℕ) (disk₀ : ℕ → Sector) (hs₀ : List ℕ) (map₀ : Bitmap) (c : ℕ)
    (src : ℕ → UInt8) (n k : ℕ) (disk : ℕ → Sector) (hs : List ℕ) (freeMap : Bitmap)
    (rest : List ℕ) (o : OpenFile) : Prop where
  progress : Progress m disk₀ hs₀ map₀ disk hs freeMap rest
  holds : Holds disk₀ hs₀ c src k disk hs
  hdr : o.hdr = headerOf disk hs (hs.length - 1)
  position : c + k = headerBytes * (hs.length - 1) + o.seekPosition
  seek_eq : (headerOf disk hs (hs.length - 1)).numBytes = o.seekPosition
  started : 0 < o.seekPosition
  le : k ≤ n
  full : k = n ∨ o.seekPosition = headerBytes ∨
    freeMap.countClear = 0 ∧ o.seekPosition % sectorSize = 0

/-- The bytes for which the next of the new headers gets space. -/
def Pending.bytesToAllocate (w : Pending) : ℕ :=
  if w.freeMap.countClear < divRoundUp (min w.numBytes headerBytes) sectorSize then
    w.freeMap.countClear * sectorSize
  else min w.numBytes headerBytes

/-- A turn of the loop over the new headers. -/
theorem writeHeaders_cons (f previous sector : ℕ) (rest : List ℕ) (w : Pending) :
    OpenFile.writeHeaders f previous (sector :: rest) w =
      if 0 < w.bytesToAllocate then
        match RawFileHeader.empty.allocate w.freeMap w.bytesToAllocate with
        | none => do
            fail
            return (previous, w)
        | some (false, _, _) => return (previous, { w with success := false })
        | some (true, hdr, freeMap) => do
            let w ← OpenFile.appendHeader f previous sector hdr w.bytesToAllocate
              { w with freeMap := freeMap }
            OpenFile.writeHeaders f sector rest w
      else return (previous, { w with success := false }) := rfl

theorem Pending.bytesToAllocate_cases (w : Pending) :
    w.bytesToAllocate ≤ min w.numBytes headerBytes ∧
      w.bytesToAllocate ≤ w.freeMap.countClear * sectorSize ∧
      (w.bytesToAllocate = min w.numBytes headerBytes ∨
        w.bytesToAllocate = w.freeMap.countClear * sectorSize) := by
  unfold bytesToAllocate
  split
  · rename_i hlt
    have := (lt_divRoundUp_iff (show 0 < sectorSize by decide)).mp hlt
    exact ⟨by omega, le_rfl, Or.inr rfl⟩
  · rename_i hlt
    exact ⟨le_rfl, (divRoundUp_le_iff (by decide)).mp (Nat.not_lt.mp hlt), Or.inl rfl⟩

/-- **The loop over the new headers.**  All of them are linked if there is a data sector
for each. -/
theorem writeHeaders_ends (hm : FreeMapOk s m) (hfm : f ≠ s.freeMapFile)
    (hst : Stored m disk₀ hs₀ map₀) {k : ℕ} {disk : ℕ → Sector} {hs rest : List ℕ}
    {freeMap : Bitmap} {o : OpenFile}
    (hl : Linking m disk₀ hs₀ map₀ c src n k disk hs freeMap rest o) :
    (s.writing f disk o).Ends
      (OpenFile.writeHeaders f (hs.getD (hs.length - 1) 0) rest (Pending.after src n k freeMap))
      (fun r s' => ∃ k' disk' hs' freeMap' rest' o', r.1 = hs'.getD (hs'.length - 1) 0 ∧
        r.2.result = k' ∧ s' = s.writing f disk' o' ∧ o'.sector = o.sector ∧
        Linking m disk₀ hs₀ map₀ c src n k' disk' hs' freeMap' rest' o' ∧
        (rest = [] ∨ headerBytes * (rest.length - 1) < n - k ∧
          numDirect * (rest.length - 1) < freeMap.countClear → rest' = []) ∧
        (n - k ≤ freeMap.countClear * sectorSize → n - k ≤ headerBytes * rest.length → k' = n) ∧
        k ≤ k' ∧ hs'.length + rest'.length = hs.length + rest.length) := by
  have hss : sectorSize = 128 := rfl
  have hbytes : headerBytes = 3712 := rfl
  have hnd : numDirect = 29 := rfl
  induction rest generalizing k disk hs freeMap o with
  | nil =>
    simp only [OpenFile.writeHeaders, Prog.ends_pure]
    refine ⟨k, disk, hs, freeMap, [], o, rfl, rfl, rfl, rfl, hl, fun _ => rfl, fun _ hall => ?_,
      le_rfl, rfl⟩
    have hle := hl.le
    rw [List.length_nil, Nat.mul_zero] at hall
    omega
  | cons x rest ih =>
    rw [writeHeaders_cons]
    have hle := hl.le
    have hcases := (Pending.after src n k freeMap).bytesToAllocate_cases
    generalize (Pending.after src n k freeMap).bytesToAllocate = b at hcases ⊢
    rw [Pending.after_numBytes, Pending.after_freeMap] at hcases
    rw [Pending.after_freeMap]
    by_cases hpos : 0 < b
    · rw [if_pos hpos]
      have hseek : o.seekPosition = headerBytes := by
        rcases hl.full with h | h | h
        · omega
        · exact h
        · rw [h.1, Nat.zero_mul] at hcases
          omega
      have hneed : RawFileHeader.empty.needed b ≤ freeMap.countClear := by
        rw [RawFileHeader.needed_empty, divRoundUp_le_iff (by decide)]
        exact hcases.2.1
      have hsize : b ≤ headerBytes := by omega
      obtain ⟨h', freeMap', hal, hg⟩ := RawFileHeader.allocate_grows RawFileHeader.headerOk_empty
        ((Nat.zero_add b).trans_le hsize) hneed
      rw [hal]
      simp only [Prog.ends_bind]
      have hp := hl.progress
      have hlast := hp.ok.pos
      have hfull := hl.seek_eq.trans hseek
      have hat : c + k = headerBytes * hs.length := by
        have := hl.position
        rw [hseek, hbytes] at this
        rw [hbytes]
        omega
      refine (appendHeader_ends hm hfm hst hp hl.holds hl.hdr hfull hat hg hpos hsize).mono ?_
      rintro _ _ ⟨rfl, disk', rfl, hp', hh', hnum⟩
      have hend : (hs ++ [x]).length - 1 = hs.length := by simp
      have hcount := hg.count_of_empty
      have hgetD : (hs ++ [x]).getD ((hs ++ [x]).length - 1) 0 = x := by
        rw [hend]
        simp
      have hl' : Linking m disk₀ hs₀ map₀ c src n (k + b) disk' (hs ++ [x]) freeMap' rest
          { o with hdr := headerOf disk' (hs ++ [x]) hs.length, seekPosition := b } := by
        refine ⟨hp', hh', by rw [hend], ?_, by rw [hend]; exact hnum, hpos, by omega, ?_⟩
        · rw [hend]
          simp only
          omega
        · rcases hcases.2.2 with heq | heq
          · simp only
            omega
          · right
            right
            have hup : divRoundUp b sectorSize = freeMap.countClear := by
              have h1 := (divRoundUp_le_iff (n := b) (show 0 < sectorSize by decide)).mpr heq.le
              have h2 := le_divRoundUp_mul (show 0 < sectorSize by decide) b
              rw [hss] at heq h2 ⊢
              rw [hss] at h1
              omega
            refine ⟨by omega, ?_⟩
            rw [heq]
            exact Nat.mul_mod_left ..
      have hih := ih hl'
      rw [hgetD] at hih
      refine hih.mono ?_
      rintro r s' ⟨k', disk'', hs', freeMap'', rest', o', h1, h2, h3, h4, h5, h6, h7, h8, h9⟩
      rw [List.length_append, List.length_singleton] at h9
      refine ⟨k', disk'', hs', freeMap'', rest', o', h1, h2, h3, h4, h5, fun hroom => h6 ?_,
        fun hfree hall => h7 ?_ ?_, by omega, by rw [List.length_cons]; omega⟩
      · rcases hroom with hnil | ⟨hroom, hfree⟩
        · cases hnil
        · rw [List.length_cons, Nat.add_sub_cancel] at hroom hfree
          cases rest with
          | nil => exact Or.inl rfl
          | cons y rest =>
            right
            simp only [List.length_cons, Nat.add_sub_cancel] at hroom hfree ⊢
            rw [hbytes] at hroom hcases
            rw [hnd] at hfree
            have hb29 : b = 3712 := by
              rw [hss] at hcases
              omega
            have h29 : divRoundUp b sectorSize = 29 := by
              rw [hb29]
              decide
            rw [hbytes, hnd]
            omega
      · -- the sectors of `b` bytes are gone
        have hb : b = min (n - k) headerBytes := by
          rcases hcases.2.2 with heq | heq
          · exact heq
          · omega
        rcases Nat.le_total (n - k) headerBytes with hle' | hle'
        · have hzero : n - (k + b) = 0 := by omega
          rw [hzero]
          exact Nat.zero_le _
        · have hb29 : b = 3712 := by omega
          have h29 : divRoundUp b sectorSize = 29 := by
            rw [hb29]
            decide
          rw [hss] at hfree ⊢
          omega
      · have hb : b = min (n - k) headerBytes := by
          rcases hcases.2.2 with heq | heq
          · exact heq
          · omega
        rw [List.length_cons, Nat.mul_succ] at hall
        omega
    · rw [if_neg hpos]
      simp only [Prog.ends_pure]
      refine ⟨k, disk, hs, freeMap, x :: rest, o, rfl, rfl, rfl, rfl, hl, ?_, fun hfree _ => ?_,
        le_rfl, rfl⟩
      · rintro (hnil | ⟨hroom, hfree⟩)
        · cases hnil
        · rw [hss] at hcases
          omega
      · rw [hss] at hcases hfree
        rw [hbytes] at hcases
        omega

end Append

/-! ## `Write` -/

/-- **A `Write` of `n` bytes at byte `c` finds a data sector for each new header**, or not
even the sectors of the headers. -/
def Roomy (disk : ℕ → Sector) (hs : List ℕ) (freeMap : Bitmap) (c n : ℕ) : Prop :=
  let data := divRoundUp (c + n - headerBytes * hs.length) sectorSize
  let headers := divRoundUp data numDirect
  let free := freeMap.countClear + sectorCount disk hs - numDirect * hs.length
  free < headers ∨ data + headers ≤ free ∨
    2 ≤ headers ∧ numDirect * (headers - 1) + headers < free

/-- **A `Write` of `n` bytes at byte `c` finds all the sectors it needs.** -/
def Ample (disk : ℕ → Sector) (hs : List ℕ) (freeMap : Bitmap) (c n : ℕ) : Prop :=
  let data := divRoundUp (c + n - headerBytes * hs.length) sectorSize
  ¬ Short disk hs freeMap c n ∧ data + divRoundUp data numDirect ≤
    freeMap.countClear + sectorCount disk hs - numDirect * hs.length

/-- **A `Write` of `n` bytes at byte `c` takes sectors for new headers** and then has not enough
data sectors for the first of them. -/
def Wasteful (disk : ℕ → Sector) (hs : List ℕ) (freeMap : Bitmap) (c n : ℕ) : Prop :=
  let data := divRoundUp (c + n - headerBytes * hs.length) sectorSize
  let headers := divRoundUp data numDirect
  let free := freeMap.countClear + sectorCount disk hs - numDirect * hs.length
  ¬ Short disk hs freeMap c n ∧ 0 < data ∧ headers ≤ free ∧ free < headers + min data numDirect

/-- No new header is to be made. -/
theorem roomy_of_le {disk : ℕ → Sector} {hs : List ℕ} {freeMap : Bitmap} {c n : ℕ}
    (hle : c + n ≤ headerBytes * hs.length) : Roomy disk hs freeMap c n := by
  refine Or.inr (Or.inl ?_)
  rw [Nat.sub_eq_zero_of_le hle]
  exact Nat.zero_le _

theorem roomy_iff_of_le {disk : ℕ → Sector} {hs : List ℕ} {freeMap : Bitmap} {c n : ℕ}
    (hle : c + n ≤ headerBytes * hs.length) :
    Roomy disk hs freeMap c n ↔ ([] : List ℕ) = [] :=
  ⟨fun _ => rfl, fun _ => roomy_of_le hle⟩

/-- Without the data sectors for the headers there are, there is no sector for a new one. -/
theorem Short.roomy_iff {disk : ℕ → Sector} {hs : List ℕ} {freeMap : Bitmap} {c n : ℕ}
    (h : Short disk hs freeMap c n) : Roomy disk hs freeMap c n ↔ ([] : List ℕ) = [] := by
  refine ⟨fun _ => rfl, fun _ => ?_⟩
  have hss : sectorSize = 128 := rfl
  have hnd : numDirect = 29 := rfl
  have hhb : headerBytes = 3712 := rfl
  rw [Short, lt_divRoundUp_iff (by decide), hss, hhb] at h
  unfold Roomy
  rw [hnd]
  by_cases hheaders : divRoundUp (divRoundUp (c + n - headerBytes * hs.length) sectorSize) 29 = 0
  · have hdata := (divRoundUp_le_iff (show 0 < 29 by decide)).mp hheaders.le
    omega
  · omega

theorem Wasteful.not_roomy {disk : ℕ → Sector} {hs : List ℕ} {freeMap : Bitmap} {c n : ℕ}
    (h : Wasteful disk hs freeMap c n) : ¬ Roomy disk hs freeMap c n := by
  have hnd : numDirect = 29 := rfl
  unfold Wasteful at h
  unfold Roomy
  rw [hnd] at h ⊢
  omega

section Write
variable {s : System} {f m : ℕ} {disk₀ : ℕ → Sector} {hs₀ : List ℕ} {map₀ : Bitmap} {c n : ℕ}
  {src : ℕ → UInt8}

/-- What is in the headers there were could be written. -/
theorem Outcome.not_short {k : ℕ} {disk : ℕ → Sector} {hs reserved : List ℕ} {freeMap : Bitmap}
    {o : OpenFile} (hout : Outcome m disk₀ hs₀ map₀ c src n k disk hs freeMap reserved o)
    (hle : min (c + n) (headerBytes * hs₀.length) ≤ c + k) : ¬ Short disk₀ hs₀ map₀ c n := by
  intro hshort
  have hfree := hout.progress.free
  have hlen := hout.progress.chain.length_le
  have hbytes := hout.progress.ok.fileLength_le
  have hlength := hout.holds.length
  have hss : sectorSize = 128 := rfl
  rw [Short, lt_divRoundUp_iff (by decide)] at hshort
  rw [hss] at hshort hbytes
  omega

/-- **If all is written, there were all the sectors.** -/
theorem Outcome.ample {disk : ℕ → Sector} {hs reserved : List ℕ} {freeMap : Bitmap} {o : OpenFile}
    (hout : Outcome m disk₀ hs₀ map₀ c src n n disk hs freeMap reserved o) :
    Ample disk₀ hs₀ map₀ c n := by
  have hfree := hout.progress.free
  have hlen := hout.progress.chain.length_le
  have hbytes := hout.progress.ok.fileLength_le
  have hlength := hout.holds.length
  have hpos := hout.progress.ok.pos
  have hlast := (hout.progress.ok.headers (hs.length - 1) (by omega)).numBytes_le
  have hss : sectorSize = 128 := rfl
  have hnd : numDirect = 29 := rfl
  have hhb : headerBytes = 3712 := rfl
  have hcap : fileLength disk hs ≤ headerBytes * hs.length := by
    rw [fileLength]
    rw [hhb] at hlast ⊢
    omega
  refine ⟨hout.not_short (Nat.min_le_left ..), ?_⟩
  obtain ⟨data, hdata⟩ :
      ∃ data, divRoundUp (c + n - headerBytes * hs₀.length) sectorSize = data := ⟨_, rfl⟩
  obtain ⟨headers, hheaders⟩ : ∃ headers, divRoundUp data numDirect = headers := ⟨_, rfl⟩
  rw [hdata, hheaders]
  -- the least number of sectors for the bytes, and of headers for the sectors
  have hdata' : data ≤ sectorCount disk hs - numDirect * hs₀.length := by
    rw [← hdata, divRoundUp_le_iff (by decide), hss, hnd, hhb]
    rw [hss] at hbytes
    omega
  have hheaders' : headers ≤ hs.length - hs₀.length := by
    rw [← hheaders, divRoundUp_le_iff (by decide), ← hdata, divRoundUp_le_iff (by decide), hss, hnd,
      hhb]
    rw [hhb] at hcap
    omega
  by_cases hzero : data = 0
  · have hzero' : headers = 0 := by
      rw [← hheaders, hzero]
      decide
    omega
  · omega

/-- All headers have their data sectors, but the last, which has one at least. -/
theorem Linking.sectorCount_linked {k : ℕ} {disk : ℕ → Sector} {hs rest : List ℕ} {freeMap : Bitmap}
    {o : OpenFile} (hl : Linking m disk₀ hs₀ map₀ c src n k disk hs freeMap rest o) :
    numDirect * (hs.length - 1) + 1 ≤ sectorCount disk hs := by
  have hlast := hl.progress.ok.headers (hs.length - 1) (by have := hl.progress.ok.pos; omega)
  have hbytes := hl.started
  rw [← hl.seek_eq] at hbytes
  have hone : 0 < (headerOf disk hs (hs.length - 1)).numSectors := by
    rw [hlast.numSectors_eq, lt_divRoundUp_iff (by decide)]
    omega
  rw [sectorCount]
  omega

theorem Linking.outcome {k : ℕ} {disk : ℕ → Sector} {hs rest : List ℕ} {freeMap : Bitmap}
    {o : OpenFile} (hl : Linking m disk₀ hs₀ map₀ c src n k disk hs freeMap rest o) :
    Outcome m disk₀ hs₀ map₀ c src n k disk hs freeMap rest
      { o with currentSector := hs.getD (hs.length - 1) 0 } := by
  have hss : sectorSize = 128 := rfl
  have hbytes : headerBytes = 3712 := rfl
  have hpos := hl.position
  have hlast := hl.progress.ok.pos
  have hstarted := hl.started
  refine ⟨hl.progress, hl.holds, ⟨hs.length - 1, by omega, rfl, hpos, hl.seek_eq.ge⟩, hl.le, ?_,
    Or.inr (by omega)⟩
  rcases hl.full with h | h | ⟨-, h⟩
  · exact Or.inl h
  · right
    right
    rw [hpos, h, hss, hbytes]
    omega
  · right
    right
    rw [hss] at h ⊢
    rw [hpos, hbytes]
    omega

/-- What is behind the last header: `r` bytes need `data` sectors and `headers` new headers, and `b`
bytes go to the first of these. -/
structure Needs (r data headers b : ℕ) : Prop where
  pos : 0 < r
  data_eq : divRoundUp r sectorSize = data
  headers_eq : divRoundUp data numDirect = headers
  first_eq : min r headerBytes = b

namespace Needs
variable {r data headers b free free₁ free₂ : ℕ}

theorem le_data (h : Needs r data headers b) : r ≤ data * sectorSize :=
  (divRoundUp_le_iff (by decide)).mp h.data_eq.le

theorem data_le (h : Needs r data headers b) : data ≤ headers * numDirect :=
  (divRoundUp_le_iff (by decide)).mp h.headers_eq.le

theorem headers_pos (h : Needs r data headers b) : 0 < headers := by
  have hle := h.le_data
  have hdata := h.data_le
  have hpos := h.pos
  rcases Nat.eq_zero_or_pos headers with rfl | hheaders
  · rw [Nat.zero_mul, Nat.le_zero] at hdata
    rw [hdata, Nat.zero_mul] at hle
    omega
  · exact hheaders

theorem first_le (h : Needs r data headers b) : b ≤ r ∧ b ≤ headerBytes := by
  rw [← h.first_eq]
  exact ⟨min_le_left .., min_le_right ..⟩

theorem first_pos (h : Needs r data headers b) : 0 < b := by
  rw [← h.first_eq]
  exact lt_min h.pos (by decide)

/-- The first header is full, or there is nothing behind it. -/
theorem first_full (h : Needs r data headers b) : b = r ∨ b = headerBytes := by
  have hfirst := h.first_eq
  omega

/-- The sectors of the first header are some of all. -/
theorem first_data (h : Needs r data headers b) : divRoundUp b sectorSize ≤ data :=
  (divRoundUp_le_iff (by decide)).mpr (h.first_le.1.trans h.le_data)

theorem first_direct (h : Needs r data headers b) : divRoundUp b sectorSize ≤ numDirect :=
  (divRoundUp_le_iff (by decide)).mpr h.first_le.2

/-- All headers but the last one have all their data sectors. -/
theorem many (h : Needs r data headers b) :
    numDirect * (headers - 1) < data ∧ headerBytes * (headers - 1) < r := by
  have hpos := h.headers_pos
  have hdata : (headers - 1) * numDirect < data := by
    rw [← lt_divRoundUp_iff (by decide), h.headers_eq]
    omega
  have hbytes : (headers - 1) * numDirect * sectorSize < r := by
    rw [← lt_divRoundUp_iff (by decide), h.data_eq]
    exact hdata
  have hss : sectorSize = 128 := rfl
  have hhb : headerBytes = 3712 := rfl
  have hnd : numDirect = 29 := rfl
  rw [hss, hnd] at hbytes
  rw [hnd] at hdata ⊢
  rw [hhb]
  omega

/-- A single header takes all bytes. -/
theorem single (h : Needs r data headers b) (hone : headers = 1) : b = r := by
  have hdata := h.data_le
  have hle := h.le_data
  have hfirst := h.first_eq
  have hss : sectorSize = 128 := rfl
  have hhb : headerBytes = 3712 := rfl
  have hnd : numDirect = 29 := rfl
  rw [hone, hnd] at hdata
  rw [hss] at hle
  rw [hhb] at hfirst
  omega

/-- With room for the headers, what is left after the first one goes to those behind it. -/
theorem spread (h : Needs r data headers b)
    (hfree : free₂ + divRoundUp b sectorSize + headers = free)
    (hroomy : free < headers ∨ data + headers ≤ free ∨
      2 ≤ headers ∧ numDirect * (headers - 1) + headers < free) {m : ℕ} (hm : m + 2 = headers) :
    headerBytes * m < r - b ∧ numDirect * m < free₂ := by
  obtain ⟨hdata, hbytes⟩ := h.many
  have hfirst := h.first_le.2
  have hdirect := h.first_direct
  have hhb : headerBytes = 3712 := rfl
  have hnd : numDirect = 29 := rfl
  rw [hhb] at hbytes hfirst ⊢
  rw [hnd] at hdata hdirect hroomy ⊢
  omega

/-- With sectors for all, what is left after the first header has its sectors and headers. -/
theorem enough (h : Needs r data headers b)
    (hfree : free₂ + divRoundUp b sectorSize + headers = free) (hample : data + headers ≤ free) :
    r - b ≤ free₂ * sectorSize ∧ r - b ≤ headerBytes * (headers - 1) := by
  have hle := h.le_data
  have hdata := h.data_le
  have hfirst := h.first_eq
  have hss : sectorSize = 128 := rfl
  have hhb : headerBytes = 3712 := rfl
  have hnd : numDirect = 29 := rfl
  rw [hss] at hle
  rw [hnd] at hdata
  rw [hhb] at hfirst ⊢
  rcases Nat.le_total r 3712 with hsmall | hbig
  · have hall : r - b = 0 := by omega
    rw [hall]
    exact ⟨Nat.zero_le _, Nat.zero_le _⟩
  · obtain rfl : b = 3712 := by omega
    have hsectors : divRoundUp 3712 sectorSize = 29 := by decide
    rw [hsectors] at hfree
    rw [hss]
    omega

/-- Without the sectors of the first header there is neither. -/
theorem not_roomy (h : Needs r data headers b) (hfree : free₁ + headers = free)
    (hroom : free₁ < divRoundUp b sectorSize) :
    ¬ (free < headers ∨ data + headers ≤ free ∨
      2 ≤ headers ∧ numDirect * (headers - 1) + headers < free) := by
  have hdata := h.first_data
  have hdirect := h.first_direct
  have hnd : numDirect = 29 := rfl
  rw [hnd] at hdirect ⊢
  omega

end Needs

/-- **The third part of `Write`.** -/
theorem writeNew_ends (hm : FreeMapOk s m) (hfm : f ≠ s.freeMapFile)
    (hst : Stored m disk₀ hs₀ map₀) {k i : ℕ} {disk : ℕ → Sector} {freeMap : Bitmap} {o : OpenFile}
    (hg : Going m disk₀ hs₀ map₀ c src n k disk hs₀ freeMap o i) (hi : i + 1 = hs₀.length)
    (hk : k < n) :
    (s.writing f disk o).Ends (OpenFile.writeNew f (Pending.after src n k freeMap))
      (fun w s' => ∃ disk' hs freeMap' reserved o', s' = s.writing f disk' o' ∧
        o'.sector = o.sector ∧
        Outcome m disk₀ hs₀ map₀ c src n w.result disk' hs freeMap' reserved o' ∧
        (Roomy disk₀ hs₀ map₀ c n ↔ reserved = []) ∧ k ≤ w.result ∧
        (Ample disk₀ hs₀ map₀ c n → w.result = n)) := by
  have hss : sectorSize = 128 := rfl
  have hbytes : headerBytes = 3712 := rfl
  have hnd : numDirect = 29 := rfl
  obtain rfl : i = hs₀.length - 1 := by omega
  have hp := hg.progress
  have hlast := hp.ok.pos
  have hseek : o.seekPosition = headerBytes := by
    rcases hg.full with h | h
    · omega
    · exact h
  have hfull : (headerOf disk hs₀ (hs₀.length - 1)).numBytes = headerBytes := by
    have h1 := hg.seek_le
    have h2 := (hp.ok.headers _ hg.lt).numBytes_le
    omega
  have hat : c + k = headerBytes * hs₀.length := by
    have := hg.position
    rw [hseek, hbytes] at this
    rw [hbytes]
    omega
  have hbeyond : c + n - headerBytes * hs₀.length = n - k := by omega
  have hfree : map₀.countClear + sectorCount disk₀ hs₀ - numDirect * hs₀.length =
      freeMap.countClear := by
    have hsectors : (headerOf disk hs₀ (hs₀.length - 1)).numSectors = numDirect := by
      rw [(hp.ok.headers _ hg.lt).numSectors_eq, hfull]
      decide
    have := hp.free
    rw [sectorCount, hsectors, List.length_nil, hnd] at this
    rw [hnd]
    omega
  unfold OpenFile.writeNew Roomy Ample
  rw [hbeyond, hfree]
  have hneeds : Needs (n - k) _ _ _ := ⟨by omega, rfl, rfl, rfl⟩
  by_cases hfew : (Pending.after src n k freeMap).freeMap.countClear <
      divRoundUp (divRoundUp (Pending.after src n k freeMap).numBytes sectorSize) numDirect
  · simp only [if_pos hfew, Prog.ends_pure]
    simp only [Pending.after_numBytes, Pending.after_freeMap] at hfew
    refine ⟨disk, hs₀, freeMap, [], o, rfl, rfl, hg.outcome rfl rfl,
      ⟨fun _ => rfl, fun _ => Or.inl hfew⟩, le_rfl, fun hample => ?_⟩
    have := hample.2
    omega
  · simp only [if_neg hfew]
    simp only [Pending.after_numBytes, Pending.after_freeMap] at hfew ⊢
    generalize divRoundUp (n - k) sectorSize = data at hneeds hfew ⊢
    generalize divRoundUp data numDirect = headers at hneeds hfew ⊢
    have hheaders₁ := hneeds.headers_pos
    simp only [Prog.ends_bind]
    refine (reserve_ends hm hfm hst hp (Nat.not_lt.mp hfew)).mono ?_
    rintro ⟨sectors, freeMap₁⟩ _ ⟨disk₁, rfl, hlen, hp₁, hkept⟩
    simp only [List.nil_append] at hlen hp₁
    have hhdr : ∀ j, j < hs₀.length → headerOf disk₁ hs₀ j = headerOf disk hs₀ j :=
      fun j hj => headerOf_of_owned hkept hj
    have hh₁ := hg.holds.congr hp.ok hkept
    have hcount₁ : freeMap₁.countClear + headers = freeMap.countClear := by
      have h1 := hp₁.free
      have h2 := hp.free
      rw [sectorCount_congr hp.ok.pos hhdr] at h1
      rw [List.length_nil] at h2
      omega
    cases sectors with
    | nil =>
      rw [List.length_nil] at hlen
      omega
    | cons first rest =>
      simp only
      rw [List.length_cons] at hlen
      generalize min (n - k) headerBytes = b at hneeds ⊢
      obtain ⟨hbr, hsize⟩ := hneeds.first_le
      have hpos := hneeds.first_pos
      have hends := hneeds.first_full
      by_cases hroom : RawFileHeader.empty.needed b ≤ freeMap₁.countClear
      · obtain ⟨h', freeMap₂, hal, hgr⟩ := RawFileHeader.allocate_grows RawFileHeader.headerOk_empty
          ((Nat.zero_add b).trans_le hsize) hroom
        rw [hal]
        simp only [Prog.ends_bind, ends_getOpenFile, System.writing_self]
        rw [hg.current]
        refine (appendHeader_ends hm hfm hst hp₁ hh₁ (by rw [hg.hdr, hhdr _ hg.lt])
          (by rw [hhdr _ hg.lt, hfull]) hat hgr (by omega) hsize).mono ?_
        rintro _ _ ⟨rfl, disk₂, rfl, hp₂, hh₂, hnum⟩
        have hend : (hs₀ ++ [first]).length - 1 = hs₀.length := by simp
        have hl : Linking m disk₀ hs₀ map₀ c src n (k + b) disk₂ (hs₀ ++ [first]) freeMap₂ rest
            { o with hdr := headerOf disk₂ (hs₀ ++ [first]) hs₀.length, seekPosition := b } := by
          refine ⟨hp₂, hh₂, by rw [hend], ?_, by rw [hend]; exact hnum, by simp only; omega,
            by omega, ?_⟩
          · rw [hend]
            simp only
            omega
          · simp only
            omega
        have hloop := writeHeaders_ends hm hfm hst hl
        have hgetD : (hs₀ ++ [first]).getD ((hs₀ ++ [first]).length - 1) 0 = first := by
          rw [hend]
          simp
        rw [hgetD] at hloop
        refine hloop.mono ?_
        rintro ⟨last, w⟩ _
          ⟨k', disk', hs', freeMap', rest', o', hlast', rfl, rfl, hsec, hl', hrest, hall,
            hmore, hlinked⟩
        simp only [ends_setOpenFile, System.writing_self, System.writing_putOpenFile,
          Prog.ends_pure]
        simp only at hlast'
        rw [hlast']
        have hcount₂ := hgr.count_of_empty
        have hcount₃ : freeMap₂.countClear + divRoundUp b sectorSize + headers =
            freeMap.countClear := by
          rw [hcount₂, hcount₁]
        refine ⟨disk', hs', freeMap', rest', _, rfl, hsec, hl'.outcome,
          ⟨fun hroomy => hrest ?_, fun hnil => ?_⟩, ?_, fun hample => hall ?_ ?_⟩
        · cases rest with
          | nil => exact Or.inl rfl
          | cons y rest =>
            rw [List.length_cons] at hlen ⊢
            rw [Nat.sub_add_eq]
            exact Or.inr (hneeds.spread hcount₃ hroomy hlen)
        · -- all new headers are linked, and each of them has a data sector
          have hsectors := hl'.sectorCount_linked
          have htaken := hl'.progress.free
          rw [hnil, List.length_nil, List.length_append, List.length_singleton] at hlinked
          rw [hnil, List.length_nil] at htaken
          rw [RawFileHeader.needed_empty] at hroom
          rw [hnd] at hsectors hfree ⊢
          by_cases hone : headers = 1
          · rw [hneeds.single hone, hneeds.data_eq] at hroom
            omega
          · omega
        · exact (Nat.le_add_right k b).trans hmore
        · rw [Nat.sub_add_eq]
          exact (hneeds.enough hcount₃ hample.2).1
        · rw [Nat.sub_add_eq, ← Nat.add_sub_cancel (n := rest.length) (m := 1), hlen]
          exact (hneeds.enough hcount₃ hample.2).2
      · obtain ⟨h', hal, -⟩ := RawFileHeader.allocate_refused RawFileHeader.headerOk_empty
          ((Nat.zero_add b).trans_le hsize) (Nat.not_le.mp hroom)
        rw [hal]
        simp only [Prog.ends_pure]
        refine ⟨disk₁, hs₀, freeMap₁, first :: rest, o, rfl, rfl,
          ⟨hp₁, hh₁, ?_, hg.le, ?_, Or.inl rfl⟩,
          ⟨fun hroomy => ?_, fun hnil => by cases hnil⟩, le_rfl, fun hample => ?_⟩
        · refine ⟨hs₀.length - 1, hg.lt, hg.current, hg.position, ?_⟩
          rw [hhdr _ hg.lt]
          exact hg.seek_le
        · exact (hg.outcome rfl rfl).aligned
        · rw [RawFileHeader.needed_empty] at hroom
          exact absurd hroomy (hneeds.not_roomy hcount₁ (Nat.not_le.mp hroom))
        · rw [RawFileHeader.needed_empty] at hroom
          exact absurd (Or.inr (Or.inl hample.2))
            (hneeds.not_roomy hcount₁ (Nat.not_le.mp hroom))

/-- Where a `Write` begins: a directory is written from its start. -/
def OpenFile.rewound (o : OpenFile) (isDirectory : Bool) : OpenFile :=
  if isDirectory then { o with seekPosition := 0, currentSector := o.sector } else o

theorem rewindWrite_ends {disk : ℕ → Sector} {o : OpenFile} {isDirectory : Bool} :
    (s.writing f disk o).Ends (OpenFile.rewindWrite f isDirectory)
      (fun _ s' => s' = s.writing f disk (o.rewound isDirectory)) := by
  unfold OpenFile.rewindWrite OpenFile.rewound
  cases isDirectory with
  | false => simp only [Bool.false_eq_true, if_false, Prog.ends_pure]
  | true =>
    simp only [if_true, Prog.ends_bind, ends_getOpenFile, ends_setOpenFile, System.writing_self,
      System.writing_putOpenFile]

/-- What comes after the first part of `Write`. -/
theorem writeBeyond_ends (hm : FreeMapOk s m) (hfm : f ≠ s.freeMapFile)
    (hst : Stored m disk₀ hs₀ map₀) {w : Pending} {s' : System} {sector : ℕ}
    (h : Stopped s f m disk₀ hs₀ map₀ c src n sector w s' ∧ Short disk₀ hs₀ map₀ c n ∧
        headerBytes * (hs₀.length - 1) ≤ c + w.result ∧
        (w.result = 0 ∨ c + w.result = headerBytes * (hs₀.length - 1)) ∨
      ∃ k disk freeMap o i, w = Pending.after src n k freeMap ∧ s' = s.writing f disk o ∧
        o.sector = sector ∧ Going m disk₀ hs₀ map₀ c src n k disk hs₀ freeMap o i) :
    s'.Ends (OpenFile.writeBeyond f w)
      (fun w s' => ∃ disk hs freeMap reserved o, s' = s.writing f disk o ∧ o.sector = sector ∧
        Outcome m disk₀ hs₀ map₀ c src n w.result disk hs freeMap reserved o ∧
        (Roomy disk₀ hs₀ map₀ c n ↔ reserved = []) ∧
        (¬ Short disk₀ hs₀ map₀ c n → min n (headerBytes * hs₀.length - c) ≤ w.result) ∧
        min n (headerBytes * (hs₀.length - 1) - c) ≤ w.result ∧
        (Ample disk₀ hs₀ map₀ c n → w.result = n) ∧
        (Short disk₀ hs₀ map₀ c n →
          w.result = 0 ∨ c + w.result = headerBytes * (hs₀.length - 1)) ∧
        (Short disk₀ hs₀ map₀ c n → Overstated disk₀ hs₀ o)) := by
  unfold OpenFile.writeBeyond
  rcases h with ⟨⟨hw, disk, freeMap, o, rfl, hsec, hout, hover⟩, hshort, hmost, hstop⟩ |
    ⟨k, disk, freeMap, o, i, rfl, rfl, rfl, hg⟩
  · rw [if_neg (by rw [hw]; decide)]
    simp only [Prog.ends_pure]
    exact ⟨disk, hs₀, freeMap, [], o, rfl, hsec, hout, hshort.roomy_iff, fun h => absurd hshort h,
      by omega, fun h => absurd hshort h.1, fun _ => hstop, fun _ => hover⟩
  · rw [if_pos (Pending.after_success ..)]
    simp only [Prog.ends_bind, ends_getOpenFile, System.writing_self]
    refine (writeNext_ends hm hfm hst hg (by rw [Pending.after_numBytes]; omega)).mono ?_
    rintro w s' (⟨⟨hw, disk', freeMap', o', rfl, hsec, hout, hover⟩, hshort, hmost, hstop⟩ |
      ⟨k', disk', freeMap', o', i', rfl, rfl, hsec, hg', hend⟩)
    · rw [if_neg (by rw [hw]; simp)]
      simp only [Prog.ends_pure]
      exact ⟨disk', hs₀, freeMap', [], o', rfl, hsec, hout, hshort.roomy_iff,
        fun h => absurd hshort h, by omega, fun h => absurd hshort h.1, fun _ => hstop,
        fun _ => hover⟩
    · have hle := hg'.le
      by_cases hk : k' < n
      · rw [if_pos (by rw [Pending.after_success, Pending.after_numBytes]; simp; omega)]
        rw [← hsec]
        have hi' : i' + 1 = hs₀.length := by omega
        -- all that goes to the headers there are is written
        have hpos : c + k' = headerBytes * hs₀.length := by
          have hat := hg'.position
          rcases hg'.full with h | h
          · omega
          · rw [h] at hat
            rw [← hi', Nat.mul_succ]
            exact hat
        refine (writeNew_ends hm hfm hst hg' hi' hk).mono ?_
        rintro w s' ⟨disk, hs, freeMap, reserved, o, h1, h2, h3, h4, h5, h6⟩
        have hnot := h3.not_short (by omega)
        refine ⟨disk, hs, freeMap, reserved, o, h1, h2, h3, h4, fun _ => by omega, ?_, h6,
          fun hshort => absurd hshort hnot, fun hshort => absurd hshort hnot⟩
        have hmono : headerBytes * (hs₀.length - 1) ≤ headerBytes * hs₀.length :=
          Nat.mul_le_mul_left _ (Nat.sub_le ..)
        omega
      · rw [if_neg (by rw [Pending.after_numBytes]; simp; omega)]
        simp only [Prog.ends_pure]
        have hin : c + n ≤ headerBytes * hs₀.length := by
          have hat := hg'.position
          have hlt := hg'.lt
          have hb := (hg'.progress.ok.headers _ hlt).numBytes_le
          have hseek := hg'.seek_le
          have hmul : headerBytes * (i' + 1) ≤ headerBytes * hs₀.length :=
            Nat.mul_le_mul_left _ hlt
          rw [Nat.mul_succ] at hmul
          omega
        have hout : Outcome m disk₀ hs₀ map₀ c src n k' disk' hs₀ freeMap' [] o' :=
          hg'.outcome rfl rfl
        have hnot := hout.not_short (by omega)
        refine ⟨disk', hs₀, freeMap', [], o', rfl, hsec, hout, roomy_iff_of_le hin,
          fun _ => ?_, ?_, fun _ => ?_,
          fun hshort => absurd hshort hnot, fun hshort => absurd hshort hnot⟩
        · rw [Pending.after_result]
          omega
        · rw [Pending.after_result]
          omega
        · rw [Pending.after_result]
          omega

/-- A lock that was free is given back. -/
theorem System.writing_unlock {l : ℕ} (hfree : s.held l = false) (disk : ℕ → Sector)
    (o : OpenFile) :
    ((s.putHeld l true).writing f disk o).putHeld l false = s.writing f disk o := by
  have hheld : Function.update (Function.update s.held l true) l false = s.held := by
    rw [Function.update_idem, ← hfree, Function.update_eq_self]
  unfold System.writing System.putHeld System.withDisk System.putOpenFile
  rw [hheld]

theorem Stored.of_agree {disk : ℕ → Sector} {hs : List ℕ} {freeMap freeMap' : Bitmap}
    (hst : Stored m disk hs freeMap) (hm : m < numSectors)
    (h : ∀ x, x < numSectors → freeMap' x = freeMap x) : Stored m disk hs freeMap' where
  ok := hst.ok
  onDisk x hx := (hst.onDisk x hx).trans (h x hx).symm
  owned x hx := (h x (hst.ok.owned_lt hx)).trans (hst.owned x hx)
  map_marked := (h m hm).trans hst.map_marked
  map_apart := hst.map_apart
  zero_marked := (h 0 (by decide)).trans hst.zero_marked

/-- **`Write`** comes to its end, with one of the outcomes above. -/
theorem write_ends (hm : FreeMapOk s m) (hfm : f ≠ s.freeMapFile) {hs : List ℕ}
    (hst : Stored m s.disk hs (mapOn s.disk m)) {l : ℕ}
    (hlock : (s.openFilesTable (s.openFile f).sector).writeLock = some l) (hfree : s.held l = false)
    {isDirectory : Bool} (hcursor : CursorAt s.disk hs ((s.openFile f).rewound isDirectory) c)
    (hn : 0 < n) :
    s.Ends (OpenFile.write f src n isDirectory) (fun k s' => ∃ map₀ disk hs' freeMap reserved o,
      s' = s.writing f disk o ∧ o.sector = (s.openFile f).sector ∧
      (∀ x, x < numSectors → map₀ x = mapOn s.disk m x) ∧
      Outcome m s.disk hs map₀ c src n k disk hs' freeMap reserved o ∧
      (Roomy s.disk hs (mapOn s.disk m) c n ↔ reserved = []) ∧
      (¬ Short s.disk hs (mapOn s.disk m) c n → min n (headerBytes * hs.length - c) ≤ k) ∧
      min n (headerBytes * (hs.length - 1) - c) ≤ k ∧
      (Ample s.disk hs (mapOn s.disk m) c n → k = n) ∧
      (Short s.disk hs (mapOn s.disk m) c n → k = 0 ∨ c + k = headerBytes * (hs.length - 1)) ∧
      (Short s.disk hs (mapOn s.disk m) c n → Overstated s.disk hs o)) := by
  unfold OpenFile.write
  simp only [Prog.ends_bind, ends_assert, ends_getOpenFile, ends_getEntry]
  refine ⟨hn, ?_⟩
  rw [hlock]
  refine ends_acquire.mpr ⟨hfree, ?_⟩
  -- from here to the release of the lock only the disk and the `OpenFile` object change
  obtain ⟨s₁, hs₁⟩ : ∃ s₁, s₁ = s.putHeld l true := ⟨_, rfl⟩
  have hstart : s.putHeld l true = s₁.writing f s.disk (s.openFile f) := by
    rw [hs₁]
    exact ((s.putHeld l true).writing_start f).symm
  have hm₁ : FreeMapOk s₁ m := hs₁ ▸ ⟨hm.numBytes_eq, hm.numSectors_eq, hm.sector_eq, hm.lt⟩
  have hfm₁ : f ≠ s₁.freeMapFile := hs₁ ▸ hfm
  rw [hstart]
  refine rewindWrite_ends.mono ?_
  rintro _ _ rfl
  obtain ⟨i, hi, hcurrent, hpos, hseek⟩ := hcursor
  simp only [OpenFile.fetchHeader, Prog.ends_bind, ends_getOpenFile, ends_readSector,
    ends_setOpenFile, System.writing_self, System.writing_disk, System.writing_putOpenFile]
  rw [hcurrent]
  refine ⟨hst.ok.heads_lt i hi, (fetchFreeMap_ends (hm₁.writing hfm₁ _ _)).mono ?_⟩
  rintro map₀ _ ⟨rfl, hmap⟩
  have hst₀ := hst.of_agree hm.lt hmap
  have hw : (⟨map₀, src, n, 0, true⟩ : Pending) = Pending.after src n 0 map₀ := by
    simp only [Pending.after, Nat.zero_add, Nat.sub_zero]
  rw [hw]
  refine (writeCurrent_ends (o := { (s.openFile f).rewound isDirectory with
      currentSector := hs.getD i 0
      hdr := headerOf s.disk hs i }) hm₁ hfm₁ hst₀ hi rfl rfl hpos hseek).mono ?_
  intro w s' h
  refine (writeBeyond_ends hm₁ hfm₁ hst₀ (h.imp_right ?_)).mono ?_
  · rintro ⟨k, disk, freeMap, o, hw, hs', hsec, hg⟩
    exact ⟨k, disk, freeMap, o, i, hw, hs', hsec, hg⟩
  · rintro w _ ⟨disk, hs', freeMap, reserved, o, rfl, hsec, hout, hroomy, hshort, hmost, hample,
      hstop, hover⟩
    have hsector : ((s.openFile f).rewound isDirectory).sector = (s.openFile f).sector := by
      unfold OpenFile.rewound
      split <;> rfl
    have htable : s₁.openFilesTable = s.openFilesTable := by rw [hs₁]; rfl
    simp only [System.writing_openFilesTable, htable, hsector, hlock]
    refine ends_release.mpr ⟨by rw [hs₁]; exact Function.update_self .., ?_⟩
    simp only [Prog.ends_pure]
    have hcount : map₀.countClear = (mapOn s.disk m).countClear := Bitmap.countClear_congr hmap
    refine ⟨map₀, disk, hs', freeMap, reserved, o, ?_, hsec.trans hsector, hmap, hout, ?_,
      fun hr => ?_, hmost, fun hr => ?_, fun hr => ?_, fun hr => ?_⟩
    · rw [hs₁, System.writing_unlock hfree]
    · rw [← hroomy]
      unfold Roomy
      rw [hcount]
    · refine hshort ?_
      unfold Short at hr ⊢
      rw [hcount]
      exact hr
    · refine hample ?_
      unfold Ample Short at hr ⊢
      rw [hcount]
      exact hr
    · refine hstop ?_
      unfold Short at hr ⊢
      rw [hcount]
      exact hr
    · refine hover ?_
      unfold Short at hr ⊢
      rw [hcount]
      exact hr

end Write
end PaldOs
