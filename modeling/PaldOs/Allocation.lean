import PaldOs.Transfers

/-! # Allocating data sectors

`Allocate` gives a header space for more bytes: the data sectors it has stay, the new
ones are different sectors that were clear in the free map, and exactly these get
marked.  It does so whenever there are enough clear sectors.
-/
namespace PaldOs
namespace RawFileHeader

/-- `h'` is `h` with new data sectors at the indices from `i` to `i + n`, taken from
`freeMap`, which becomes `freeMap'`. -/
structure Takes (h : RawFileHeader) (freeMap : Bitmap) (i n : ℕ) (h' : RawFileHeader)
    (freeMap' : Bitmap) : Prop where
  numBytes_eq : h'.numBytes = h.numBytes
  numSectors_eq : h'.numSectors = h.numSectors
  next_eq : h'.nextFileHeader = h.nextFileHeader
  kept : ∀ j, j < i ∨ i + n ≤ j → h'.dataSectors j = h.dataSectors j
  clear : ∀ j, i ≤ j → j < i + n →
    h'.dataSectors j < PaldOs.numSectors ∧ freeMap (h'.dataSectors j) = false
  distinct : ∀ j l, i ≤ j → j < i + n → i ≤ l → l < i + n →
    h'.dataSectors j = h'.dataSectors l → j = l
  marks : ∀ x, freeMap' x = true ↔
    freeMap x = true ∨ ∃ j, i ≤ j ∧ j < i + n ∧ x = h'.dataSectors j
  count : freeMap'.countClear + n = freeMap.countClear

/-- **The loop of `Allocate`.** -/
theorem takeSectors_takes {h : RawFileHeader} {freeMap : Bitmap} {i n : ℕ}
    (hn : n ≤ freeMap.countClear) : h.Takes freeMap i n (h.takeSectors freeMap i n).1
      (h.takeSectors freeMap i n).2 := by
  induction n generalizing h freeMap i with
  | zero =>
    refine ⟨rfl, rfl, rfl, fun j _ => rfl, fun j hij hj => by omega, fun j l hij hj => by omega,
      fun x => ⟨Or.inl, ?_⟩, Nat.add_zero _⟩
    rintro (hx | ⟨j, hij, hj, -⟩)
    · exact hx
    · omega
  | succ n ih =>
    obtain ⟨sector, freeMap', hfind⟩ := Bitmap.exists_find (show 0 < freeMap.countClear by omega)
    obtain ⟨hlt, hclear, rfl⟩ := Bitmap.find_eq_some hfind
    have hcount := Bitmap.countClear_mark hlt hclear
    simp only [takeSectors, hfind]
    have ht := ih (h := { h with dataSectors := Function.update h.dataSectors i sector })
      (i := i + 1) (show n ≤ (freeMap.mark sector).countClear by omega)
    generalize takeSectors { h with dataSectors := Function.update h.dataSectors i sector }
      (freeMap.mark sector) (i + 1) n = r at ht ⊢
    -- the sector at index `i` is kept by the rest of the loop
    have hi : r.1.dataSectors i = sector := by
      rw [ht.kept i (Or.inl (by omega))]
      exact Function.update_self ..
    have hnew : ∀ j, i < j → j < i + (n + 1) → r.1.dataSectors j < PaldOs.numSectors ∧
        freeMap (r.1.dataSectors j) = false ∧ r.1.dataSectors j ≠ sector := by
      intro j hij hj
      obtain ⟨h1, h2⟩ := ht.clear j (by omega) (by omega)
      have hne : r.1.dataSectors j ≠ sector := by
        intro heq
        rw [heq] at h2
        simp [Bitmap.mark] at h2
      refine ⟨h1, ?_, hne⟩
      rw [Bitmap.mark, Function.update_of_ne hne] at h2
      exact h2
    refine ⟨ht.numBytes_eq, ht.numSectors_eq, ht.next_eq, fun j hj => ?_, fun j hij hj => ?_,
      fun j l hij hj hil hl heq => ?_, fun x => ?_, ?_⟩
    · rw [ht.kept j (by omega)]
      exact Function.update_of_ne (by omega) ..
    · rcases Nat.eq_or_lt_of_le hij with rfl | hlt'
      · rw [hi]
        exact ⟨hlt, hclear⟩
      · exact ⟨(hnew j hlt' hj).1, (hnew j hlt' hj).2.1⟩
    · rcases Nat.eq_or_lt_of_le hij with rfl | hij'
      · rcases Nat.eq_or_lt_of_le hil with rfl | hil'
        · rfl
        · rw [hi] at heq
          exact absurd heq.symm (hnew l hil' hl).2.2
      · rcases Nat.eq_or_lt_of_le hil with rfl | hil'
        · rw [hi] at heq
          exact absurd heq (hnew j hij' hj).2.2
        · exact ht.distinct j l (by omega) (by omega) (by omega) (by omega) heq
    · rw [ht.marks x]
      constructor
      · rintro (hx | ⟨j, hij, hj, rfl⟩)
        · by_cases hxs : x = sector
          · exact Or.inr ⟨i, le_rfl, by omega, by rw [hi, hxs]⟩
          · rw [Bitmap.mark, Function.update_of_ne hxs] at hx
            exact Or.inl hx
        · exact Or.inr ⟨j, by omega, by omega, rfl⟩
      · rintro (hx | ⟨j, hij, hj, rfl⟩)
        · left
          by_cases hxs : x = sector
          · simp [Bitmap.mark, hxs]
          · rw [Bitmap.mark, Function.update_of_ne hxs]
            exact hx
        · rcases Nat.eq_or_lt_of_le hij with rfl | hij'
          · left
            rw [hi]
            simp [Bitmap.mark]
          · exact Or.inr ⟨j, by omega, by omega, rfl⟩
    · have := ht.count
      omega

/-- How many sectors `Allocate` has to find. -/
def needed (h : RawFileHeader) (fileSize : ℕ) : ℕ :=
  divRoundUp (h.numBytes + fileSize) sectorSize - h.numSectors

/-- `h'` is `h` with space for `fileSize` more bytes. -/
structure Grows (h : RawFileHeader) (freeMap : Bitmap) (fileSize : ℕ) (h' : RawFileHeader)
    (freeMap' : Bitmap) : Prop where
  numBytes_eq : h'.numBytes = h.numBytes + fileSize
  numSectors_eq : h'.numSectors = divRoundUp (h.numBytes + fileSize) sectorSize
  le : h.numSectors ≤ h'.numSectors
  next_eq : h'.nextFileHeader = h.nextFileHeader
  kept : ∀ j, j < h.numSectors ∨ h'.numSectors ≤ j → h'.dataSectors j = h.dataSectors j
  clear : ∀ j, h.numSectors ≤ j → j < h'.numSectors →
    h'.dataSectors j < PaldOs.numSectors ∧ freeMap (h'.dataSectors j) = false
  distinct : ∀ j l, h.numSectors ≤ j → j < h'.numSectors → h.numSectors ≤ l → l < h'.numSectors →
    h'.dataSectors j = h'.dataSectors l → j = l
  marks : ∀ x, freeMap' x = true ↔
    freeMap x = true ∨ ∃ j, h.numSectors ≤ j ∧ j < h'.numSectors ∧ x = h'.dataSectors j
  count : freeMap'.countClear + (h'.numSectors - h.numSectors) = freeMap.countClear

section Allocate
variable {h h' : RawFileHeader} {freeMap freeMap' : Bitmap} {fileSize : ℕ}

/-- The number of sectors does not go down. -/
theorem numSectors_le_divRoundUp (hok : HeaderOk h) :
    h.numSectors ≤ divRoundUp (h.numBytes + fileSize) sectorSize := by
  rw [hok.numSectors_eq]
  exact divRoundUp_mono (by decide) (Nat.le_add_right _ _)

/-- `Allocate`, past its assertion. -/
theorem allocate_eq (hok : HeaderOk h) (hsize : h.numBytes + fileSize ≤ headerBytes) :
    h.allocate freeMap fileSize =
      if freeMap.countClear < h.needed fileSize then
        some (false, { h with
          numBytes := h.numBytes + fileSize
          numSectors := divRoundUp (h.numBytes + fileSize) sectorSize }, freeMap)
      else some (true, takeSectors { h with
          numBytes := h.numBytes + fileSize
          numSectors := divRoundUp (h.numBytes + fileSize) sectorSize } freeMap h.numSectors
            (h.needed fileSize)) := by
  have hbytes : headerBytes = 3712 := rfl
  have hle := hok.numBytes_le
  have hup : h.numSectors ≤ divRoundUp (h.numBytes + fileSize) sectorSize :=
    numSectors_le_divRoundUp hok
  have hdirect : divRoundUp (h.numBytes + fileSize) sectorSize ≤ numDirect := by
    rw [divRoundUp_le_iff (by decide)]
    exact hsize
  have hnd : numDirect = 29 := rfl
  have hnew : (divRoundUp (h.numBytes + fileSize) sectorSize + 2 ^ 32 - h.numSectors) % 2 ^ 32 =
      h.needed fileSize := by
    unfold needed
    omega
  have hwrap : (h.numBytes + fileSize) % 2 ^ 32 = h.numBytes + fileSize :=
    Nat.mod_eq_of_lt (by omega)
  unfold allocate
  rw [if_pos (by omega)]
  simp only [hwrap, hnew]
  by_cases hlt : freeMap.countClear < h.needed fileSize
  · rw [if_pos ⟨by omega, hlt⟩, if_pos hlt]
  · rw [if_neg fun hc => hlt hc.2, if_neg hlt, if_neg fun hc => Nat.not_lt.mpr hdirect hc.1]
    rfl

/-- **`Allocate` finds the space if it is there.** -/
theorem allocate_grows (hok : HeaderOk h) (hsize : h.numBytes + fileSize ≤ headerBytes)
    (hfree : h.needed fileSize ≤ freeMap.countClear) :
    ∃ h' freeMap', h.allocate freeMap fileSize = some (true, h', freeMap') ∧
      h.Grows freeMap fileSize h' freeMap' := by
  have hup : h.numSectors ≤ divRoundUp (h.numBytes + fileSize) sectorSize :=
    numSectors_le_divRoundUp hok
  rw [allocate_eq hok hsize, if_neg (Nat.not_lt.mpr hfree)]
  refine ⟨_, _, rfl, ?_⟩
  have ht := takeSectors_takes (h := { h with
    numBytes := h.numBytes + fileSize
    numSectors := divRoundUp (h.numBytes + fileSize) sectorSize }) (i := h.numSectors) hfree
  generalize takeSectors { h with
    numBytes := h.numBytes + fileSize
    numSectors := divRoundUp (h.numBytes + fileSize) sectorSize } freeMap h.numSectors
      (h.needed fileSize) = r at ht ⊢
  have hend : h.numSectors + h.needed fileSize = r.1.numSectors := by
    rw [ht.numSectors_eq, needed]
    simp only
    omega
  have hkept := ht.kept
  have hclear := ht.clear
  have hdistinct := ht.distinct
  have hmarks := ht.marks
  rw [hend] at hkept hclear hdistinct hmarks
  refine ⟨ht.numBytes_eq, ht.numSectors_eq, by omega, ht.next_eq, hkept, hclear, hdistinct,
    hmarks, ?_⟩
  have := ht.count
  omega

/-- There is not enough space.  The header has got longer all the same. -/
theorem allocate_refused (hok : HeaderOk h) (hsize : h.numBytes + fileSize ≤ headerBytes)
    (hfree : freeMap.countClear < h.needed fileSize) :
    ∃ h', h.allocate freeMap fileSize = some (false, h', freeMap) ∧
      h'.numBytes = h.numBytes + fileSize ∧ h'.nextFileHeader = h.nextFileHeader := by
  rw [allocate_eq hok hsize, if_pos hfree]
  exact ⟨_, rfl, rfl, rfl⟩

theorem Grows.headerOk (hg : h.Grows freeMap fileSize h' freeMap') (hok : HeaderOk h)
    (hsize : h.numBytes + fileSize ≤ headerBytes) : HeaderOk h' := by
  refine ⟨by rw [hg.numBytes_eq]; exact hsize, by rw [hg.numBytes_eq]; exact hg.numSectors_eq, ?_⟩
  intro j hj
  by_cases hold : j < h.numSectors
  · rw [hg.kept j (Or.inl hold)]
    exact hok.lt j hold
  · exact (hg.clear j (by omega) hj).1

theorem Grows.fits (hg : h.Grows freeMap fileSize h' freeMap') (hok : HeaderOk h) (hf : h.Fits)
    (hsize : h.numBytes + fileSize ≤ headerBytes) : h'.Fits := by
  have hbytes : headerBytes = 3712 := rfl
  have hnd : numDirect = 29 := rfl
  have hns : PaldOs.numSectors = 1024 := rfl
  have hle := (hg.headerOk hok hsize).numSectors_le
  refine ⟨?_, ?_, fun j => ?_, fun j hj => ?_, by rw [hg.next_eq]; exact hf.next⟩
  · have := hg.numBytes_eq
    omega
  · omega
  · by_cases hnew : h.numSectors ≤ j ∧ j < h'.numSectors
    · have := (hg.clear j hnew.1 hnew.2).1
      omega
    · rw [hg.kept j (by omega)]
      exact hf.dataSectors j
  · rw [hg.kept j (by omega)]
    exact hf.noMore j hj

theorem headerOk_empty : HeaderOk empty :=
  ⟨Nat.zero_le _, by decide, fun j hj => absurd hj (Nat.not_lt_zero j)⟩

theorem fits_empty : empty.Fits :=
  ⟨by decide, by decide, fun _ => by show 0 < 2 ^ 32; decide, fun _ _ => rfl, by decide⟩

theorem needed_empty : empty.needed fileSize = divRoundUp fileSize sectorSize := by
  have hzero : (empty.numBytes, empty.numSectors) = (0, 0) := rfl
  rw [Prod.mk.injEq] at hzero
  rw [needed, hzero.1, hzero.2, Nat.zero_add, Nat.sub_zero]

theorem Grows.numBytes_of_empty (hg : empty.Grows freeMap fileSize h' freeMap') :
    h'.numBytes = fileSize :=
  hg.numBytes_eq.trans (Nat.zero_add _)

theorem Grows.numSectors_of_empty (hg : empty.Grows freeMap fileSize h' freeMap') :
    h'.numSectors = divRoundUp fileSize sectorSize := by
  rw [hg.numSectors_eq, ← hg.numBytes_eq, hg.numBytes_of_empty]

theorem Grows.count_of_empty (hg : empty.Grows freeMap fileSize h' freeMap') :
    freeMap'.countClear + divRoundUp fileSize sectorSize = freeMap.countClear := by
  rw [← hg.count, hg.numSectors_of_empty]
  rfl

end Allocate
end RawFileHeader
end PaldOs
