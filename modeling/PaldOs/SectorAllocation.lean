import PaldOs.BitmapWords
import PaldOs.Transfers

/-! # Data sectors out of a bitmap

`FileHeader::Allocate` and `Deallocate` over the words of a bitmap of any size, as `raw` and the
free map are in memory.  While `Allocate` runs no bit is cleared, so the sectors that `Find` gives
it are the first clear bits there were, in order (`takeSectors_eq`); the test of `CountClear` makes
sure that there are enough, and no `-1` is stored.

`Deallocate` gets past its assertion exactly if the sectors of the header are marked and no two
are the same (`deallocate_eq_some`).  For those that `Allocate` took this is so; for those that the
header had before, it is so if it was so before.  A header that started empty gives back
all that it took, in any number of calls (`Grown.deallocate`).

For a bitmap of `NUM_SECTORS` bits these are the functions of `RawFileHeader` (`allocate_bit`,
`deallocate_bit`).
-/
namespace PaldOs
namespace FileHeader

/-- The loop of `Allocate`: `n` data sectors, from index `i` on.  The `int` of `Find` is stored as
an `unsigned`. -/
def takeSectors (raw : RawFileHeader) (freeMap : WordBitmap) (i : ℕ) :
    ℕ → Option (RawFileHeader × WordBitmap)
  | 0 => some (raw, freeMap)
  | n + 1 => do
      let (sector, freeMap) ← freeMap.find
      takeSectors
        { raw with dataSectors := Function.update raw.dataSectors i sector.toUInt32.toNat }
        freeMap (i + 1) n

/-- `FileHeader::Allocate`.  The loop does not survive an index past the end of `dataSectors`. -/
def allocate (raw : RawFileHeader) (freeMap : WordBitmap) (fileSize : ℕ) :
    Option (Bool × RawFileHeader × WordBitmap) :=
  if fileSize ≤ (headerBytes + 2 ^ 32 - raw.numBytes) % 2 ^ 32 then do
    let numBytes := (raw.numBytes + fileSize) % 2 ^ 32
    let newSectors := (divRoundUp numBytes sectorSize + 2 ^ 32 - raw.numSectors) % 2 ^ 32
    let grown := { raw with
      numBytes := numBytes
      numSectors := divRoundUp numBytes sectorSize }
    let clear ← freeMap.countClear
    if newSectors ≠ 0 ∧ clear < newSectors then return (false, grown, freeMap)
    else if numDirect < grown.numSectors ∧ raw.numSectors < grown.numSectors then none
    else
      let (grown, freeMap) ←
        takeSectors grown freeMap raw.numSectors (grown.numSectors - raw.numSectors)
      return (true, grown, freeMap)
  else none

/-- The loop of `Deallocate`, of `n` data sectors from index `i` on. -/
def deallocateFrom (raw : RawFileHeader) (freeMap : WordBitmap) (i : ℕ) : ℕ → Option WordBitmap
  | 0 => some freeMap
  | n + 1 => do
      let marked ← freeMap.test (raw.dataSectors i)
      if marked then
        let freeMap ← freeMap.clear (raw.dataSectors i)
        deallocateFrom raw freeMap (i + 1) n
      else none

/-- `FileHeader::Deallocate`. -/
def deallocate (raw : RawFileHeader) (freeMap : WordBitmap) : Option WordBitmap :=
  deallocateFrom raw freeMap 0 raw.numSectors

/-! ## Taking sectors -/

section Take
variable {raw : RawFileHeader} {freeMap : WordBitmap} {i n : ℕ}

/-- `raw'` is `raw` with the first `n` clear bits of `freeMap` as data sectors from index `i` on;
in `freeMap'` these bits are set. -/
structure Takes (raw : RawFileHeader) (freeMap : WordBitmap) (i n : ℕ) (raw' : RawFileHeader)
    (freeMap' : WordBitmap) : Prop where
  numBytes_eq : raw'.numBytes = raw.numBytes
  numSectors_eq : raw'.numSectors = raw.numSectors
  numBits_eq : freeMap'.numBits = freeMap.numBits
  kept : ∀ j < i, raw'.dataSectors j = raw.dataSectors j
  taken : (List.range' i n).map raw'.dataSectors = freeMap.clearBits.take n
  bit_eq : freeMap'.bit = fun x => freeMap.bit x || decide (x ∈ freeMap.clearBits.take n)

/-- **The loop of `Allocate`**, if there are enough clear bits. -/
theorem takeSectors_eq (hn : n ≤ freeMap.clearBits.length) :
    ∃ raw' freeMap', takeSectors raw freeMap i n = some (raw', freeMap') ∧
      Takes raw freeMap i n raw' freeMap' := by
  induction n generalizing raw freeMap i with
  | zero =>
    refine ⟨raw, freeMap, rfl, rfl, rfl, rfl, fun _ _ => rfl, rfl, ?_⟩
    funext x
    rw [List.take_zero, decide_eq_false List.not_mem_nil, Bool.or_false]
  | succ n ih =>
    obtain ⟨sector, rest, hclear⟩ := List.exists_cons_of_length_pos (Nat.lt_of_lt_of_le
      (Nat.succ_pos n) hn)
    have hlt : sector < freeMap.numBits :=
      (WordBitmap.mem_clearBits.mp (hclear ▸ List.mem_cons_self)).1
    have hrest := WordBitmap.clearBits_marked hclear
    have hsector : (asInt (some sector)).toUInt32.toNat = sector :=
      WordBitmap.toNat_asInt (hlt.trans freeMap.numBits_lt)
    rw [hclear, List.length_cons] at hn
    have hcount : n ≤ (freeMap.marked sector).clearBits.length := by
      rw [hrest]
      exact Nat.le_of_succ_le_succ hn
    obtain ⟨raw', freeMap', htake, h⟩ := @ih
      { raw with dataSectors := Function.update raw.dataSectors i sector }
      (freeMap.marked sector) (i + 1) hcount
    have hi : raw'.dataSectors i = sector := by
      rw [h.kept i (Nat.lt_succ_self i)]
      exact Function.update_self ..
    refine ⟨raw', freeMap', ?_, h.numBytes_eq, h.numSectors_eq, h.numBits_eq, fun j hj => ?_, ?_,
      ?_⟩
    · rw [takeSectors, WordBitmap.find_eq, hclear, List.head?_cons, Option.bind_eq_bind,
        Option.bind_some]
      dsimp only
      rw [hsector]
      exact htake
    · rw [h.kept j (hj.trans (Nat.lt_succ_self i))]
      exact Function.update_of_ne (Nat.ne_of_lt hj) ..
    · rw [List.range'_succ, List.map_cons, h.taken, hi, hrest, hclear, List.take_succ_cons]
    · rw [h.bit_eq, WordBitmap.bit_marked hlt, hrest, hclear, List.take_succ_cons]
      funext x
      rw [Bitmap.mark]
      by_cases hx : x = sector
      · subst hx
        rw [Function.update_self, Bool.true_or, decide_eq_true List.mem_cons_self, Bool.or_true]
      · rw [Function.update_of_ne hx]
        congr 1
        exact decide_eq_decide.mpr (List.mem_cons.trans (or_iff_right hx)).symm

end Take

/-! ## Giving sectors back -/

section GiveBack
variable {raw : RawFileHeader} {freeMap result : WordBitmap} {i n x : ℕ}

/-- `freeMap'` is `freeMap` with exactly the bits in `sectors` cleared. -/
structure Clears (freeMap : WordBitmap) (sectors : List ℕ) (freeMap' : WordBitmap) : Prop where
  numBits_eq : freeMap'.numBits = freeMap.numBits
  bit_eq : ∀ x, freeMap'.bit x = true ↔ freeMap.bit x = true ∧ x ∉ sectors

/-- The sectors are different, and marked in the free map. -/
structure AreMarked (freeMap : WordBitmap) (sectors : List ℕ) : Prop where
  nodup : sectors.Nodup
  marked : ∀ x ∈ sectors, x < freeMap.numBits ∧ freeMap.bit x = true

theorem bit_cleared_iff {sector : ℕ} (h : sector < freeMap.numBits) :
    (freeMap.cleared sector).bit x = true ↔ freeMap.bit x = true ∧ x ≠ sector := by
  rw [WordBitmap.bit_cleared h, Bitmap.clear]
  by_cases hx : x = sector
  · rw [hx, Function.update_self]
    exact iff_of_false Bool.false_ne_true fun h => h.2 rfl
  · rw [Function.update_of_ne hx]
    exact (and_iff_left hx).symm

/-- There is only one such map. -/
theorem Clears.unique {sectors : List ℕ} {freeMap' : WordBitmap}
    (h : Clears freeMap sectors result) (h' : Clears freeMap sectors freeMap') :
    result = freeMap' := by
  apply WordBitmap.eq_of_bit (h.numBits_eq.trans h'.numBits_eq.symm)
  funext x
  exact Bool.eq_iff_iff.mpr ((h.bit_eq x).trans (h'.bit_eq x).symm)

/-- The first sector of the list is cleared, then the others. -/
theorem clears_cons_iff {sector : ℕ} {sectors : List ℕ} (h : sector < freeMap.numBits) :
    Clears (freeMap.cleared sector) sectors result ↔ Clears freeMap (sector :: sectors) result := by
  have hbit : ∀ x, ((freeMap.cleared sector).bit x = true ∧ x ∉ sectors) ↔
      (freeMap.bit x = true ∧ x ∉ sector :: sectors) := by
    intro x
    rw [bit_cleared_iff h, List.mem_cons, not_or, and_assoc]
  constructor
  · intro hc
    exact ⟨hc.numBits_eq, fun x => (hc.bit_eq x).trans (hbit x)⟩
  · intro hc
    exact ⟨hc.numBits_eq, fun x => (hc.bit_eq x).trans (hbit x).symm⟩

theorem areMarked_cons_iff {sector : ℕ} {sectors : List ℕ} (h : sector < freeMap.numBits) :
    AreMarked freeMap (sector :: sectors) ↔
      freeMap.bit sector = true ∧ AreMarked (freeMap.cleared sector) sectors := by
  constructor
  · intro hm
    refine ⟨(hm.marked sector List.mem_cons_self).2, (List.nodup_cons.mp hm.nodup).2,
      fun x hx => ?_⟩
    have hne : x ≠ sector := by
      intro heq
      exact (List.nodup_cons.mp hm.nodup).1 (heq ▸ hx)
    obtain ⟨hlt, hbit⟩ := hm.marked x (List.mem_cons_of_mem _ hx)
    exact ⟨hlt, (bit_cleared_iff h).mpr ⟨hbit, hne⟩⟩
  · intro hm
    obtain ⟨hbit, hm⟩ := hm
    -- the sector is clear by now, so it is none of the others
    have hnot : sector ∉ sectors := by
      intro hmem
      exact ((bit_cleared_iff h).mp (hm.marked sector hmem).2).2 rfl
    refine ⟨List.nodup_cons.mpr ⟨hnot, hm.nodup⟩, fun x hx => ?_⟩
    cases List.mem_cons.mp hx with
    | inl heq =>
      rw [heq]
      exact ⟨h, hbit⟩
    | inr hmem =>
      obtain ⟨hlt, hx⟩ := hm.marked x hmem
      exact ⟨hlt, ((bit_cleared_iff h).mp hx).1⟩

/-- **The loop of `Deallocate`.** -/
theorem deallocateFrom_eq_some : deallocateFrom raw freeMap i n = some result ↔
    AreMarked freeMap ((List.range' i n).map raw.dataSectors) ∧
      Clears freeMap ((List.range' i n).map raw.dataSectors) result := by
  induction n generalizing freeMap i with
  | zero =>
    rw [deallocateFrom, List.range'_zero, List.map_nil, Option.some.injEq]
    constructor
    · intro h
      subst h
      exact ⟨⟨List.nodup_nil, fun _ h => absurd h List.not_mem_nil⟩, rfl,
        fun _ => (and_iff_left List.not_mem_nil).symm⟩
    · intro h
      have hnil : Clears freeMap [] freeMap :=
        ⟨rfl, fun _ => (and_iff_left List.not_mem_nil).symm⟩
      exact hnil.unique h.2
  | succ n ih =>
    rw [List.range'_succ, List.map_cons]
    by_cases hlt : raw.dataSectors i < freeMap.numBits
    · rw [areMarked_cons_iff hlt, ← clears_cons_iff hlt, and_assoc, ← ih, deallocateFrom,
        WordBitmap.test_eq hlt, Option.bind_eq_bind, Option.bind_some]
      cases hbit : freeMap.bit (raw.dataSectors i) with
      | true =>
        rw [if_pos rfl, WordBitmap.clear_eq hlt]
        exact (and_iff_right rfl).symm
      | false =>
        rw [if_neg Bool.false_ne_true]
        exact iff_of_false (Option.some_ne_none _).symm fun h => Bool.false_ne_true h.1
    · rw [deallocateFrom, WordBitmap.test, if_neg hlt]
      exact iff_of_false (Option.some_ne_none _).symm
        fun h => hlt (h.1.marked _ List.mem_cons_self).1

/-- **`Deallocate`** passes its assertion exactly if the sectors of the header are different and
marked, and then it clears exactly these. -/
theorem deallocate_eq_some : deallocate raw freeMap = some result ↔
    AreMarked freeMap raw.sectors ∧ Clears freeMap raw.sectors result := by
  rw [deallocate, deallocateFrom_eq_some, RawFileHeader.sectors, List.range_eq_range']

theorem exists_clears {sectors : List ℕ} (h : ∀ x ∈ sectors, x < freeMap.numBits) :
    ∃ result, Clears freeMap sectors result := by
  induction sectors generalizing freeMap with
  | nil => exact ⟨freeMap, rfl, fun _ => (and_iff_left List.not_mem_nil).symm⟩
  | cons sector sectors ih =>
    have hlt : sector < freeMap.numBits := h sector List.mem_cons_self
    obtain ⟨result, hc⟩ := @ih (freeMap.cleared sector)
      fun x hx => h x (List.mem_cons_of_mem _ hx)
    exact ⟨result, (clears_cons_iff hlt).mp hc⟩

/-- **When `Deallocate` passes its assertion.** -/
theorem exists_deallocate_iff :
    (∃ result, deallocate raw freeMap = some result) ↔ AreMarked freeMap raw.sectors := by
  constructor
  · intro h
    obtain ⟨result, h⟩ := h
    exact (deallocate_eq_some.mp h).1
  · intro h
    obtain ⟨result, hc⟩ := exists_clears fun x hx => (h.marked x hx).1
    exact ⟨result, deallocate_eq_some.mpr ⟨h, hc⟩⟩

end GiveBack

/-! ## Both -/

section Both
variable {raw raw' : RawFileHeader} {freeMap freeMap' base : WordBitmap} {fileSize : ℕ}

/-- `raw'` is `raw` with space for `fileSize` more bytes, out of `freeMap`, which becomes
`freeMap'`. -/
structure Allocated (raw : RawFileHeader) (freeMap : WordBitmap) (fileSize : ℕ)
    (raw' : RawFileHeader) (freeMap' : WordBitmap) : Prop where
  numBytes_eq : raw'.numBytes = raw.numBytes + fileSize
  numSectors_eq : raw'.numSectors = divRoundUp raw'.numBytes sectorSize
  kept : ∀ j < raw.numSectors, raw'.dataSectors j = raw.dataSectors j
  clear : ∀ j, raw.numSectors ≤ j → j < raw'.numSectors →
    raw'.dataSectors j < freeMap.numBits ∧ freeMap.bit (raw'.dataSectors j) = false
  distinct : ∀ j l, raw.numSectors ≤ j → j < raw'.numSectors → raw.numSectors ≤ l →
    l < raw'.numSectors → raw'.dataSectors j = raw'.dataSectors l → j = l
  numBits_eq : freeMap'.numBits = freeMap.numBits
  marks : ∀ x, freeMap'.bit x = true ↔ freeMap.bit x = true ∨
    ∃ j, raw.numSectors ≤ j ∧ j < raw'.numSectors ∧ raw'.dataSectors j = x

/-- How many sectors `Allocate` has to find. -/
def needed (raw : RawFileHeader) (fileSize : ℕ) : ℕ :=
  divRoundUp (raw.numBytes + fileSize) sectorSize - raw.numSectors

/-- The header, for `fileSize` more bytes, before its sectors are found. -/
def grown (raw : RawFileHeader) (fileSize : ℕ) : RawFileHeader :=
  { raw with
    numBytes := raw.numBytes + fileSize
    numSectors := divRoundUp (raw.numBytes + fileSize) sectorSize }

theorem numSectors_le (hsectors : raw.numSectors = divRoundUp raw.numBytes sectorSize) :
    raw.numSectors ≤ (grown raw fileSize).numSectors := by
  apply hsectors.trans_le
  exact divRoundUp_mono (by decide) (Nat.le_add_right _ _)

/-- `Allocate`, past its assertion. -/
theorem allocate_eq (hsectors : raw.numSectors = divRoundUp raw.numBytes sectorSize)
    (hsize : raw.numBytes + fileSize ≤ headerBytes) :
    allocate raw freeMap fileSize =
      if freeMap.clearBits.length < needed raw fileSize then
        some (false, grown raw fileSize, freeMap)
      else (takeSectors (grown raw fileSize) freeMap raw.numSectors (needed raw fileSize)).map
        fun r => (true, r.1, r.2) := by
  have hbytes : headerBytes = 3712 := rfl
  have hup : raw.numSectors ≤ divRoundUp (raw.numBytes + fileSize) sectorSize :=
    numSectors_le hsectors
  have hdirect : divRoundUp (raw.numBytes + fileSize) sectorSize ≤ numDirect :=
    (divRoundUp_le_iff (by decide)).mpr hsize
  have hnd : numDirect = 29 := rfl
  have hnew : (divRoundUp (raw.numBytes + fileSize) sectorSize + 2 ^ 32 - raw.numSectors) % 2 ^ 32 =
      needed raw fileSize := by
    rw [needed]
    omega
  have hwrap : (raw.numBytes + fileSize) % 2 ^ 32 = raw.numBytes + fileSize :=
    Nat.mod_eq_of_lt (by omega)
  rw [allocate, if_pos (by omega)]
  simp only [hwrap, hnew, WordBitmap.countClear_eq, Option.bind_eq_bind, Option.bind_some]
  by_cases hlt : freeMap.clearBits.length < needed raw fileSize
  · rw [if_pos ⟨by omega, hlt⟩, if_pos hlt]
    rfl
  · rw [if_neg fun hc => hlt hc.2, if_neg hlt, if_neg fun hc => Nat.not_lt.mpr hdirect hc.1]
    exact Option.map_eq_bind.symm

/-- There are enough clear bits. -/
theorem allocate_takes (hsectors : raw.numSectors = divRoundUp raw.numBytes sectorSize)
    (hsize : raw.numBytes + fileSize ≤ headerBytes)
    (hfree : needed raw fileSize ≤ freeMap.clearBits.length) :
    ∃ raw' freeMap', allocate raw freeMap fileSize = some (true, raw', freeMap') ∧
      Takes (grown raw fileSize) freeMap raw.numSectors (needed raw fileSize) raw' freeMap' := by
  obtain ⟨raw', freeMap', htake, h⟩ :=
    @takeSectors_eq (grown raw fileSize) freeMap raw.numSectors _ hfree
  refine ⟨raw', freeMap', ?_, h⟩
  rw [allocate_eq hsectors hsize, if_neg (Nat.not_lt.mpr hfree), htake]
  rfl

/-- The sectors that the header had, and the new ones. -/
theorem Takes.sectors_eq (hsectors : raw.numSectors = divRoundUp raw.numBytes sectorSize)
    (h : Takes (grown raw fileSize) freeMap raw.numSectors (needed raw fileSize) raw' freeMap') :
    raw'.sectors = raw.sectors ++ freeMap.clearBits.take (needed raw fileSize) := by
  have hend : raw'.numSectors = raw.numSectors + needed raw fileSize := by
    rw [h.numSectors_eq]
    exact (Nat.add_sub_of_le (numSectors_le hsectors)).symm
  rw [← h.taken, RawFileHeader.sectors, RawFileHeader.sectors, hend, List.range_eq_range',
    List.range_eq_range', ← List.range'_append_1, List.map_append, Nat.zero_add]
  congr 1
  apply List.map_congr_left
  intro j hj
  exact h.kept j (by simpa using (List.mem_range'_1.mp hj).2)

theorem Takes.allocated (hsectors : raw.numSectors = divRoundUp raw.numBytes sectorSize)
    (h : Takes (grown raw fileSize) freeMap raw.numSectors (needed raw fileSize) raw' freeMap') :
    Allocated raw freeMap fileSize raw' freeMap' := by
  have hend : raw.numSectors + needed raw fileSize = raw'.numSectors := by
    rw [h.numSectors_eq]
    exact Nat.add_sub_of_le (numSectors_le hsectors)
  have hrange : ∀ j, j ∈ List.range' raw.numSectors (needed raw fileSize) ↔
      raw.numSectors ≤ j ∧ j < raw'.numSectors := by
    intro j
    rw [List.mem_range'_1, hend]
  have hmem : ∀ x, x ∈ freeMap.clearBits.take (needed raw fileSize) ↔
      ∃ j, raw.numSectors ≤ j ∧ j < raw'.numSectors ∧ raw'.dataSectors j = x := by
    intro x
    rw [← h.taken, List.mem_map]
    exact exists_congr fun j => (and_congr_left' (hrange j)).trans and_assoc
  refine ⟨h.numBytes_eq, ?_, h.kept, fun j hj hlt => ?_, fun j l hj hj' hl hl' heq => ?_,
    h.numBits_eq, fun x => ?_⟩
  · rw [h.numSectors_eq, h.numBytes_eq]
    rfl
  · exact WordBitmap.mem_clearBits.mp (List.mem_of_mem_take ((hmem _).mpr ⟨j, hj, hlt, rfl⟩))
  · have hnodup :
        ((List.range' raw.numSectors (needed raw fileSize)).map raw'.dataSectors).Nodup := by
      rw [h.taken]
      exact freeMap.nodup_clearBits.take
    exact List.inj_on_of_nodup_map hnodup ((hrange j).mpr ⟨hj, hj'⟩) ((hrange l).mpr ⟨hl, hl'⟩) heq
  · rw [h.bit_eq, Bool.or_eq_true, decide_eq_true_iff, hmem]

/-- A bit of the map after `Allocate`. -/
theorem Takes.bit_iff {i n x : ℕ} (h : Takes raw freeMap i n raw' freeMap') :
    freeMap'.bit x = true ↔ freeMap.bit x = true ∨ x ∈ freeMap.clearBits.take n := by
  rw [h.bit_eq, Bool.or_eq_true, decide_eq_true_iff]

/-- The new sectors are different and marked.  So all of them are exactly if the old ones were. -/
theorem Takes.areMarked_iff (hsectors : raw.numSectors = divRoundUp raw.numBytes sectorSize)
    (h : Takes (grown raw fileSize) freeMap raw.numSectors (needed raw fileSize) raw' freeMap') :
    AreMarked freeMap' raw'.sectors ↔ AreMarked freeMap raw.sectors := by
  have hclear : ∀ x ∈ freeMap.clearBits.take (needed raw fileSize),
      x < freeMap.numBits ∧ freeMap.bit x = false :=
    fun x hx => WordBitmap.mem_clearBits.mp (List.mem_of_mem_take hx)
  rw [h.sectors_eq hsectors]
  constructor
  · intro hm
    obtain ⟨hnodup, -, hdisj⟩ := List.nodup_append.mp hm.nodup
    refine ⟨hnodup, fun x hx => ?_⟩
    obtain ⟨hlt, hbit⟩ := hm.marked x (List.mem_append_left _ hx)
    -- it is no new sector, so it was marked before
    refine ⟨h.numBits_eq ▸ hlt, (h.bit_iff.mp hbit).resolve_right fun hnew => ?_⟩
    exact hdisj x hx x hnew rfl
  · intro hm
    refine ⟨List.nodup_append.mpr ⟨hm.nodup, freeMap.nodup_clearBits.take, ?_⟩, fun x hx => ?_⟩
    · intro x hx y hy heq
      rw [← heq] at hy
      exact Bool.false_ne_true ((hclear x hy).2.symm.trans (hm.marked x hx).2)
    · rw [h.numBits_eq, h.bit_iff]
      cases List.mem_append.mp hx with
      | inl hold => exact (hm.marked x hold).imp_right Or.inl
      | inr hnew => exact ⟨(hclear x hnew).1, Or.inr hnew⟩

/-- What `Deallocate` would have made of the old sectors, it makes of the old and the new ones. -/
theorem Takes.deallocate (hsectors : raw.numSectors = divRoundUp raw.numBytes sectorSize)
    (h : Takes (grown raw fileSize) freeMap raw.numSectors (needed raw fileSize) raw' freeMap')
    (hbase : deallocate raw freeMap = some base) : deallocate raw' freeMap' = some base := by
  obtain ⟨hm, hc⟩ := deallocate_eq_some.mp hbase
  refine deallocate_eq_some.mpr ⟨(h.areMarked_iff hsectors).mpr hm, ?_, fun x => ?_⟩
  · exact hc.numBits_eq.trans h.numBits_eq.symm
  · rw [hc.bit_eq, h.bit_iff, h.sectors_eq hsectors, List.mem_append, not_or]
    constructor
    · intro hx
      refine ⟨Or.inl hx.1, hx.2, fun hnew => ?_⟩
      have hbit := (WordBitmap.mem_clearBits.mp (List.mem_of_mem_take hnew)).2
      exact Bool.false_ne_true (hbit.symm.trans hx.1)
    · intro hx
      exact ⟨hx.1.resolve_right hx.2.2, hx.2.1⟩

/-- The headers and maps that successful calls of `Allocate` make of an empty header and `base`. -/
inductive Grown (base : WordBitmap) : RawFileHeader → WordBitmap → Prop
  | fresh {raw : RawFileHeader} (hbytes : raw.numBytes = 0) (hsectors : raw.numSectors = 0) :
      Grown base raw base
  | allocate {raw raw' : RawFileHeader} {freeMap freeMap' : WordBitmap} {fileSize : ℕ}
      (before : Grown base raw freeMap) (hsize : raw.numBytes + fileSize ≤ headerBytes)
      (hok : allocate raw freeMap fileSize = some (true, raw', freeMap')) : Grown base raw' freeMap'

/-- What a call of `Allocate` that returns true has done. -/
theorem takes_of_allocate (hsectors : raw.numSectors = divRoundUp raw.numBytes sectorSize)
    (hsize : raw.numBytes + fileSize ≤ headerBytes)
    (hok : allocate raw freeMap fileSize = some (true, raw', freeMap')) :
    needed raw fileSize ≤ freeMap.clearBits.length ∧
      Takes (grown raw fileSize) freeMap raw.numSectors (needed raw fileSize) raw' freeMap' := by
  by_cases hfree : needed raw fileSize ≤ freeMap.clearBits.length
  · obtain ⟨raw₁, freeMap₁, heq, h⟩ := allocate_takes hsectors hsize hfree
    rw [heq] at hok
    cases hok
    exact ⟨hfree, h⟩
  · rw [allocate_eq hsectors hsize, if_pos (Nat.lt_of_not_le hfree)] at hok
    cases hok

theorem Grown.numSectors_eq (h : Grown base raw freeMap) :
    raw.numSectors = divRoundUp raw.numBytes sectorSize := by
  induction h with
  | fresh hbytes hsectors =>
    rw [hbytes, hsectors]
    rfl
  | allocate before hsize hok ih =>
    obtain ⟨-, ht⟩ := takes_of_allocate ih hsize hok
    exact (ht.allocated ih).numSectors_eq

/-- **All that was taken is given back.** -/
theorem Grown.deallocate (h : Grown base raw freeMap) :
    FileHeader.deallocate raw freeMap = some base := by
  induction h with
  | fresh hbytes hsectors =>
    rw [FileHeader.deallocate, hsectors]
    rfl
  | allocate before hsize hok ih =>
    obtain ⟨-, ht⟩ := takes_of_allocate before.numSectors_eq hsize hok
    exact ht.deallocate before.numSectors_eq ih

/-- **`Allocate` and `Deallocate` on the bitmap.**  Space that is there is found, and only that; the
sectors that the header had stay, the new ones are different sectors that were clear, and exactly
these get marked.  Then `Deallocate` passes its assertion exactly if the sectors that the header had
were different and marked, and clears exactly the sectors of the header; if it had none
when its first call of `Allocate` came, the map is what it was before that. -/
theorem allocate_deallocate (raw : RawFileHeader) (freeMap : WordBitmap) (fileSize : ℕ)
    (hsectors : raw.numSectors = divRoundUp raw.numBytes sectorSize)
    (hsize : raw.numBytes + fileSize ≤ numDirect * sectorSize) :
    ∃ ok raw' freeMap', allocate raw freeMap fileSize = some (ok, raw', freeMap') ∧
      (ok = true ↔ divRoundUp (raw.numBytes + fileSize) sectorSize - raw.numSectors ≤
        freeMap.clearBits.length) ∧
      (ok = true → Allocated raw freeMap fileSize raw' freeMap' ∧
        ((∃ result, deallocate raw' freeMap' = some result) ↔ AreMarked freeMap raw.sectors) ∧
        (∀ result, deallocate raw' freeMap' = some result →
          Clears freeMap' raw'.sectors result) ∧
        ∀ base, Grown base raw freeMap → deallocate raw' freeMap' = some base) := by
  by_cases hfree : needed raw fileSize ≤ freeMap.clearBits.length
  · obtain ⟨raw', freeMap', hok, ht⟩ := allocate_takes hsectors hsize hfree
    refine ⟨true, raw', freeMap', hok, iff_of_true rfl hfree, fun _ => ?_⟩
    refine ⟨ht.allocated hsectors, ?_, ?_, ?_⟩
    · rw [exists_deallocate_iff]
      exact ht.areMarked_iff hsectors
    · intro result hresult
      exact (deallocate_eq_some.mp hresult).2
    · intro base hbase
      exact ht.deallocate hsectors hbase.deallocate
  · refine ⟨false, grown raw fileSize, freeMap, ?_, iff_of_false Bool.false_ne_true hfree,
      fun h => absurd h Bool.false_ne_true⟩
    rw [allocate_eq hsectors hsize, if_pos (Nat.lt_of_not_le hfree)]

/-- A map of 40 bits, in which all bits of the first word but one are set. -/
def almostFull : WordBitmap where
  numBits := 40
  map := [0xFFFFFFEF#32, 0x1#32]
  numBits_pos := by decide
  numBits_lt := by decide
  length_map := by decide

/-- An empty header gets 200 bytes, which need a sector of the first word of the map and one of
the second. -/
theorem allocate_deallocate_200 : ∃ raw' freeMap',
    allocate ⟨0, 0, fun _ => 0, 0⟩ almostFull 200 = some (true, raw', freeMap') ∧
      raw'.numSectors = 2 ∧ deallocate raw' freeMap' = some almostFull := by
  obtain ⟨ok, raw', freeMap', hok, hiff, h⟩ :=
    allocate_deallocate ⟨0, 0, fun _ => 0, 0⟩ almostFull 200 (by decide) (by decide)
  have htrue : ok = true := hiff.mpr (by decide)
  obtain ⟨hall, -, -, hrestore⟩ := h htrue
  refine ⟨raw', freeMap', htrue ▸ hok, ?_, hrestore almostFull (.fresh rfl rfl)⟩
  rw [hall.numSectors_eq, hall.numBytes_eq]
  decide

/-- A map of 32 bits, all of them clear. -/
def allClear : WordBitmap where
  numBits := 32
  map := [0#32]
  numBits_pos := by decide
  numBits_lt := by decide
  length_map := by decide

/-- A header with a data sector that is not marked.  `Allocate` does not look at it, and
`Deallocate` does not pass its assertion. -/
theorem deallocate_unmarked : ∃ raw : RawFileHeader,
    raw.numSectors = divRoundUp raw.numBytes sectorSize ∧
      raw.numBytes + 0 ≤ numDirect * sectorSize ∧
      ∃ raw' freeMap', allocate raw allClear 0 = some (true, raw', freeMap') ∧
        deallocate raw' freeMap' = none :=
  ⟨⟨128, 1, fun _ => 5, 0⟩, by decide, by decide, _, _, rfl, rfl⟩

end Both

/-! ## The free map of the disk -/

section Disk
variable {raw : RawFileHeader} {freeMap : WordBitmap} {i n : ℕ}

theorem find_bit (h : freeMap.numBits = numSectors) :
    freeMap.bit.find = freeMap.clearBits.head?.map fun i => (i, freeMap.bit.mark i) := by
  rw [Bitmap.find, WordBitmap.clearBits, List.head?_filter, h]

theorem countClear_bit (h : freeMap.numBits = numSectors) :
    freeMap.bit.countClear = freeMap.clearBits.length := by
  rw [Bitmap.countClear, WordBitmap.clearBits, List.countP_eq_length_filter, h]

theorem takeSectors_bit (h : freeMap.numBits = numSectors) :
    (takeSectors raw freeMap i n).map (fun r => (r.1, r.2.bit)) =
      some (raw.takeSectors freeMap.bit i n) := by
  induction n generalizing raw freeMap i with
  | zero => rfl
  | succ n ih =>
    rw [takeSectors, WordBitmap.find_eq, RawFileHeader.takeSectors, find_bit h,
      Option.bind_eq_bind, Option.bind_some]
    cases hhead : freeMap.clearBits.head? with
    | none => exact ih h
    | some sector =>
      have hlt : sector < freeMap.numBits :=
        (WordBitmap.mem_clearBits.mp (List.mem_of_head? hhead)).1
      dsimp only [Option.map_some, WordBitmap.taken]
      rw [WordBitmap.toNat_asInt (hlt.trans freeMap.numBits_lt), ← WordBitmap.bit_marked hlt]
      exact ih h

/-- **`Allocate` on the words of the free map** is `Allocate` on its bits. -/
theorem allocate_bit (h : freeMap.numBits = numSectors) (fileSize : ℕ) :
    (allocate raw freeMap fileSize).map (fun r => (r.1, r.2.1, r.2.2.bit)) =
      raw.allocate freeMap.bit fileSize := by
  rw [allocate, RawFileHeader.allocate]
  by_cases hsize : fileSize ≤ (headerBytes + 2 ^ 32 - raw.numBytes) % 2 ^ 32
  · rw [if_pos hsize, if_pos hsize]
    dsimp only
    rw [WordBitmap.countClear_eq, countClear_bit h, Option.bind_eq_bind, Option.bind_some]
    split
    · rfl
    · split
      · rfl
      · obtain ⟨r, hr, hbit⟩ := Option.map_eq_some_iff.mp (takeSectors_bit (i := raw.numSectors) h)
        rw [hr, ← hbit]
        rfl
  · rw [if_neg hsize, if_neg hsize]
    rfl

theorem deallocateFrom_bit (h : freeMap.numBits = numSectors) :
    (deallocateFrom raw freeMap i n).map WordBitmap.bit = raw.deallocateFrom freeMap.bit i n := by
  induction n generalizing freeMap i with
  | zero => rfl
  | succ n ih =>
    rw [RawFileHeader.deallocateFrom, ← h, deallocateFrom]
    by_cases hlt : raw.dataSectors i < freeMap.numBits
    · rw [WordBitmap.test_eq hlt, Option.bind_eq_bind, Option.bind_some]
      cases hbit : freeMap.bit (raw.dataSectors i) with
      | true =>
        rw [if_pos rfl, if_pos ⟨hlt, rfl⟩, WordBitmap.clear_eq hlt, ← WordBitmap.bit_cleared hlt]
        exact ih h
      | false =>
        rw [if_neg Bool.false_ne_true, if_neg fun hc => Bool.false_ne_true hc.2]
        rfl
    · rw [WordBitmap.test, if_neg hlt, if_neg fun hc => hlt hc.1]
      rfl

/-- **`Deallocate` on the words of the free map** is `Deallocate` on its bits. -/
theorem deallocate_bit (h : freeMap.numBits = numSectors) :
    (deallocate raw freeMap).map WordBitmap.bit = raw.deallocate freeMap.bit :=
  deallocateFrom_bit h

end Disk

end FileHeader
end PaldOs
