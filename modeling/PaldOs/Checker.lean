import PaldOs.SectorOwnership

/-! # The consistency checker

`Check` marks what it finds in a map of its own, the shadow map, and compares this with the free
map.  It reads the headers of the free map and of the root, and those of the files in the first ten
entries of the current directory; it follows no chain of headers and no directory in it.  So it
accepts a volume only if all files are in the first ten entries of the root, which is the current
directory, and have one header, with less than `NUM_DIRECT` sectors.  A name of 20 bytes has to end
with the byte after them, which is left as it was in memory when the root was made.
-/
namespace PaldOs

open Sys

namespace FileSystem

/-! ## The shadow map -/

section Shadow
variable {l l' : List ℕ} {shadowMap : Bitmap} {x : ℕ}

theorem foldl_checkSector (l : List ℕ) (error : Bool) (shadowMap : Bitmap) :
    l.foldl (fun r sector =>
      (r.1 || (checkSector sector r.2).1, (checkSector sector r.2).2)) (error, shadowMap) =
      (error || (checkSectors l shadowMap).1, (checkSectors l shadowMap).2) := by
  induction l generalizing error shadowMap with
  | nil => simp [checkSectors]
  | cons sector l ih =>
    rw [checkSectors, List.foldl_cons, List.foldl_cons, ih, ih, Bool.false_or, Bool.or_assoc]

theorem checkSectors_cons (sector : ℕ) : checkSectors (sector :: l) shadowMap =
    ((checkSector sector shadowMap).1 || (checkSectors l (checkSector sector shadowMap).2).1,
      (checkSectors l (checkSector sector shadowMap).2).2) := by
  rw [checkSectors, List.foldl_cons, foldl_checkSector, Bool.false_or]

theorem checkSectors_append (l l' : List ℕ) (shadowMap : Bitmap) :
    checkSectors (l ++ l') shadowMap =
      ((checkSectors l shadowMap).1 || (checkSectors l' (checkSectors l shadowMap).2).1,
        (checkSectors l' (checkSectors l shadowMap).2).2) := by
  induction l generalizing shadowMap with
  | nil => simp [checkSectors]
  | cons sector l ih =>
    rw [List.cons_append, checkSectors_cons, checkSectors_cons, ih, Bool.or_assoc]

theorem checkSector_map (sector : ℕ) (shadowMap : Bitmap) :
    (checkSector sector shadowMap).2 x = true ↔
      shadowMap x = true ∨ x = sector ∧ x < numSectors := by
  unfold checkSector
  split
  · rename_i hlt
    rcases eq_or_ne x sector with rfl | hne
    · simp [Bitmap.mark, hlt]
    · simp [Bitmap.mark, hne]
  · rename_i hge
    constructor
    · exact Or.inl
    · rintro (h | ⟨rfl, h⟩)
      · exact h
      · exact absurd h hge

theorem checkSector_error (sector : ℕ) (shadowMap : Bitmap) :
    (checkSector sector shadowMap).1 = false ↔ sector < numSectors ∧ shadowMap sector = false := by
  unfold checkSector
  split
  · rename_i hlt
    simp [hlt]
  · rename_i hge
    simp [hge]

/-- **What is in the shadow map** after some sectors are checked. -/
theorem checkSectors_map : (checkSectors l shadowMap).2 x = true ↔
    shadowMap x = true ∨ x ∈ l ∧ x < numSectors := by
  induction l generalizing shadowMap with
  | nil => simp [checkSectors]
  | cons sector l ih =>
    rw [checkSectors_cons, ih, checkSector_map, List.mem_cons]
    tauto

/-- **No error**: the sectors are different, and none was marked. -/
theorem checkSectors_error : (checkSectors l shadowMap).1 = false ↔
    l.Nodup ∧ ∀ x ∈ l, x < numSectors ∧ shadowMap x = false := by
  induction l generalizing shadowMap with
  | nil => simp [checkSectors]
  | cons sector l ih =>
    rw [checkSectors_cons, Bool.or_eq_false_iff, checkSector_error, ih, List.nodup_cons,
      List.forall_mem_cons]
    have hmap : ∀ x, (checkSector sector shadowMap).2 x = false ↔
        shadowMap x = false ∧ ¬ (x = sector ∧ x < numSectors) := by
      intro x
      rw [Bool.eq_false_iff, ne_eq, checkSector_map, not_or, ← Bool.not_eq_true]
    constructor
    · rintro ⟨hs, hnodup, hall⟩
      refine ⟨⟨fun hmem => ?_, hnodup⟩, hs, fun x hx => ?_⟩
      · exact ((hmap sector).mp (hall sector hmem).2).2 ⟨rfl, hs.1⟩
      · exact ⟨(hall x hx).1, ((hmap x).mp (hall x hx).2).1⟩
    · rintro ⟨⟨hnot, hnodup⟩, hs, hall⟩
      refine ⟨hs, hnodup, fun x hx => ⟨(hall x hx).1, (hmap x).mpr ⟨(hall x hx).2, ?_⟩⟩⟩
      rintro ⟨rfl, -⟩
      exact hnot hx

end Shadow

/-! ## What is checked -/

/-- The header is accepted. -/
def SmallHeader (h : RawFileHeader) : Prop :=
  divRoundUp h.numBytes sectorSize ≤ h.numSectors ∧ h.numSectors < numDirect

/-- The sectors marked for a file: its first header, and the data sectors of that. -/
def footprint (disk : ℕ → Sector) (h : ℕ) : List ℕ :=
  h :: (List.range (headerOn disk h).numSectors).map (headerOn disk h).dataSectors

/-- The sectors of the entries in use. -/
def heads (es : List DirectoryEntry) : List ℕ :=
  (es.filter DirectoryEntry.inUse).map DirectoryEntry.sector

section Entries
variable {disk : ℕ → Sector} {s : System} {e : DirectoryEntry} {es : List DirectoryEntry}
  {known : List (List UInt8)} {error : Bool} {shadowMap : Bitmap} {h x : ℕ}

theorem mem_footprint : x ∈ footprint disk h ↔ Uses disk [h] x := by
  rw [uses_single, footprint, List.mem_cons, List.mem_map]
  refine or_congr_right (exists_congr fun j => ?_)
  rw [List.mem_range]
  exact and_congr_right fun _ => eq_comm

theorem checkFileHeader_map (rh : RawFileHeader) (shadowMap : Bitmap) :
    (checkFileHeader rh shadowMap).2 =
      (checkSectors ((List.range rh.numSectors).map rh.dataSectors) shadowMap).2 := rfl

theorem checkFileHeader_error (rh : RawFileHeader) (shadowMap : Bitmap) :
    (checkFileHeader rh shadowMap).1 = false ↔ SmallHeader rh ∧
      (checkSectors ((List.range rh.numSectors).map rh.dataSectors) shadowMap).1 = false := by
  rw [checkFileHeader, Bool.or_eq_false_iff, Bool.not_eq_false', Bool.and_eq_true,
    decide_eq_true_eq, decide_eq_true_eq, SmallHeader]

/-- **The loop of `CheckDirectory`**, over entries with different names. -/
theorem checkEntries_ends (es : List DirectoryEntry) (known : List (List UInt8)) (error : Bool)
    (shadowMap : Bitmap) (hlt : ∀ h ∈ heads es, h < numSectors)
    (hnames : ((es.filter DirectoryEntry.inUse).map DirectoryEntry.string).Nodup)
    (hknown : ∀ e ∈ es, e.inUse = true → e.string ∉ known) :
    s.Ends (checkEntries es known error shadowMap) (fun r s' => s' = s ∧
      r.2 = (checkSectors ((heads es).flatMap (footprint s.disk)) shadowMap).2 ∧
      (r.1 = false ↔ error = false ∧
        (∀ e ∈ es, e.inUse = true → e.string.length ≤ fileNameMaxLen) ∧
        (∀ h ∈ heads es, SmallHeader (headerOn s.disk h)) ∧
        (checkSectors ((heads es).flatMap (footprint s.disk)) shadowMap).1 = false)) := by
  induction es generalizing known error shadowMap with
  | nil =>
    refine Prog.ends_pure.mpr ⟨rfl, rfl, ?_⟩
    simp [heads, checkSectors]
  | cons e es ih =>
    rw [checkEntries]
    by_cases hu : e.inUse = true
    · have hheads : heads (e :: es) = e.sector :: heads es := by
        rw [heads, List.filter_cons_of_pos hu, List.map_cons, heads]
      rw [List.filter_cons_of_pos hu, List.map_cons, List.nodup_cons] at hnames
      rw [hheads, List.forall_mem_cons] at hlt
      rw [List.forall_mem_cons] at hknown
      have hnew : known.contains e.string = false := by
        rw [Bool.eq_false_iff, ne_eq, List.contains_iff_mem]
        exact hknown.1 hu
      rw [if_pos hu, hnew, hheads, List.flatMap_cons, footprint, List.cons_append,
        checkSectors_cons, checkSectors_append]
      dsimp only
      rw [if_neg Bool.false_ne_true]
      refine Prog.ends_bind.mpr (ends_readSector.mpr ⟨hlt.1, ?_⟩)
      refine (ih _ _ _ hlt.2 hnames.2 fun e' he' hu' hmem => ?_).mono ?_
      · rcases List.mem_append.mp hmem with hmem | hmem
        · exact hknown.2 e' he' hu' hmem
        · refine hnames.1 ?_
          rw [← List.mem_singleton.mp hmem]
          exact List.mem_map_of_mem (List.mem_filter.mpr ⟨he', hu'⟩)
      · intro r s' hr
        obtain ⟨rfl, hmap, herror⟩ := hr
        refine ⟨rfl, hmap, herror.trans ?_⟩
        rw [List.forall_mem_cons, List.forall_mem_cons]
        simp only [Bool.or_eq_false_iff, checkFileHeader_error, checkFileHeader_map, headerOn,
          Bool.or_false, decide_eq_false_iff_not, Nat.not_lt]
        tauto
    · have hheads : heads (e :: es) = heads es := by rw [heads, List.filter_cons_of_neg hu, heads]
      rw [List.filter_cons_of_neg hu] at hnames
      rw [if_neg hu, hheads]
      rw [hheads] at hlt
      rw [List.forall_mem_cons] at hknown
      refine (ih known error shadowMap hlt hnames hknown.2).mono ?_
      rintro r s' ⟨rfl, hmap, herror⟩
      refine ⟨rfl, hmap, herror.trans ?_⟩
      rw [List.forall_mem_cons, and_iff_right fun h => absurd h hu]

end Entries
end FileSystem

/-! ## Names as strings -/

namespace DirectoryEntry
variable {e e' : DirectoryEntry}

theorem getD_takeWhile (l : List UInt8) : ∀ q, (∀ p, p < q → l.getD p 0 ≠ 0) →
    (l.takeWhile (· != 0)).getD q 0 = l.getD q 0 := by
  induction l with
  | nil =>
    intro q _
    rfl
  | cons b l ih =>
    intro q hne
    by_cases hb : b = 0
    · have hq : q = 0 := by
        by_contra hq
        exact hne 0 (Nat.pos_of_ne_zero hq) hb
      rw [hq, List.takeWhile_cons_of_neg (by simp [hb]), hb]
      rfl
    · rw [List.takeWhile_cons_of_pos (by simp [hb])]
      cases q with
      | zero => rfl
      | succ q => exact ih q fun p hp => hne (p + 1) (Nat.succ_lt_succ hp)

/-- A character of the name, if the name has not ended before. -/
theorem string_getD {q : ℕ} (hq : q < 21) (hne : ∀ p, p < q → e.nameAt p ≠ 0) :
    e.string.getD q 0 = e.nameAt q := by
  have hget : ∀ p, p < 21 → ((List.range 21).map e.nameAt).getD p 0 = e.nameAt p := by
    intro p hp
    rw [List.getD_eq_getElem _ _ (by simpa using hp), List.getElem_map, List.getElem_range]
  rw [string, getD_takeWhile _ q fun p hp => ?_, hget q hq]
  rw [hget p (by omega)]
  exact hne p hp

/-- The string ends where the name does. -/
theorem string_length_le {q : ℕ} (hzero : e.nameAt q = 0) : e.string.length ≤ q := by
  by_contra hlt
  rw [Nat.not_le] at hlt
  have hstart : e.string <+: (List.range 21).map e.nameAt := List.takeWhile_prefix _
  have hget : e.string[q] = e.nameAt q := by
    rw [hstart.getElem hlt, List.getElem_map, List.getElem_range]
  have hall : e.string.all (· != 0) = true := List.all_takeWhile
  have hne := List.all_eq_true.mp hall _ (List.getElem_mem hlt)
  rw [hget, hzero] at hne
  cases hne

/-- Entries with the same string have the same name. -/
theorem sameName_of_string (h : e.string = e'.string) : e.sameName e' = true := by
  have hmax : fileNameMaxLen = 20 := rfl
  rw [sameName, sameFrom_iff]
  intro l
  -- the characters are those of the strings, as long as neither has ended
  induction l using Nat.strong_induction_on with
  | _ l ih =>
    intro hl hne
    rw [Nat.zero_add]
    have hne' : ∀ p, p < l → e.nameAt p ≠ 0 := fun p hp => by
      have := hne p hp
      rwa [Nat.zero_add] at this
    have hsame : ∀ p, p < l → e'.nameAt p ≠ 0 := by
      intro p hp
      have heq := ih p hp (by omega) fun q hq => hne q (by omega)
      rw [Nat.zero_add] at heq
      rw [← heq]
      exact hne' p hp
    rw [← string_getD (by omega) hne', ← string_getD (by omega) hsame, h]

end DirectoryEntry

/-! ## Volumes that are accepted -/

/-- **What the checker accepts**: the root is the current directory, all files are in the first ten
entries of the root, under names that end, and every file has one header, with less than
`NUM_DIRECT` sectors. -/
structure Checkable (disk : ℕ → Sector) (current : ℕ) : Prop where
  current : current = directorySector
  shallow : ∀ path h isDirectory, Found disk path h isDirectory →
    path = [] ∨ ∃ j, j < numDirEntries ∧ path = [j]
  ended : ∀ j, j < numDirEntries → ((tableAt disk directorySector).slot j).inUse = true →
    ((tableAt disk directorySector).slot j).string.length ≤ fileNameMaxLen
  short : ∀ path h isDirectory, Found disk path h isDirectory →
    (headerOn disk h).nextFileHeader = 0 ∧ (headerOn disk h).numSectors < numDirect

/-- The file at `h` is looked at, when the current directory is the one at `c`. -/
def Visited (V : Volume) (c h : ℕ) : Prop :=
  h = directorySector ∨
    ∃ j, j < numDirEntries ∧ (V.slot c j).inUse = true ∧ (V.slot c j).sector = h

section Visited
variable {D : Discipline} {V : Volume} {disk : ℕ → Sector} {c h x : ℕ} {t d : Directory}

theorem uses_of_single {hs : List ℕ} (hpos : 0 < hs.length) (hhead : hs.getD 0 0 = h)
    (hx : Uses disk [h] x) : Uses disk hs x := by
  obtain ⟨i, hi, hx⟩ := hx
  obtain rfl : i = 0 := Nat.lt_one_iff.mp hi
  have hheader : headerOf disk hs 0 = headerOf disk [h] 0 := by
    rw [headerOf, headerOf, hhead]
    rfl
  refine ⟨0, hpos, ?_⟩
  rw [hheader, hhead]
  exact hx

/-- The first ten entries of the table that is read. -/
theorem mem_heads (hlen : numDirEntries ≤ d.length) (hslot : ∀ q, d.slot q = V.slot c q) :
    h ∈ FileSystem.heads (d.take numDirEntries) ↔
      ∃ j, j < numDirEntries ∧ (V.slot c j).inUse = true ∧ (V.slot c j).sector = h := by
  rw [FileSystem.heads, List.mem_map]
  constructor
  · rintro ⟨e, he, rfl⟩
    obtain ⟨hmem, hu⟩ := List.mem_filter.mp he
    obtain ⟨j, hj, rfl⟩ := List.mem_take_iff_getElem.mp hmem
    have hget : d.slot j = d[j] := List.getD_eq_getElem _ _ (by omega)
    refine ⟨j, by omega, ?_⟩
    rw [← hslot, hget]
    exact ⟨hu, rfl⟩
  · rintro ⟨j, hj, hu, rfl⟩
    have hget : d.slot j = d[j] := List.getD_eq_getElem _ _ (by omega)
    rw [← hslot, hget] at hu ⊢
    exact ⟨d[j], List.mem_filter.mpr ⟨List.mem_take_iff_getElem.mpr ⟨j, by omega, rfl⟩, hu⟩, rfl⟩

/-- What holds of the first ten entries. -/
theorem forall_taken {P : DirectoryEntry → Prop} (hlen : numDirEntries ≤ d.length)
    (hslot : ∀ q, d.slot q = V.slot c q) :
    (∀ e ∈ d.take numDirEntries, P e) ↔ ∀ j, j < numDirEntries → P (V.slot c j) := by
  have hget : ∀ j (hj : j < d.length), V.slot c j = d[j] := fun j hj =>
    (hslot j).symm.trans (List.getD_eq_getElem _ _ hj)
  constructor
  · intro h j hj
    rw [hget j (by omega)]
    exact h _ (List.mem_take_iff_getElem.mpr ⟨j, by omega, rfl⟩)
  · intro h e he
    obtain ⟨j, hj, rfl⟩ := List.mem_take_iff_getElem.mp he
    rw [← hget j (by omega)]
    exact h j (by omega)

/-- Something that is different for different entries in use is different for those read. -/
theorem nodup_entries {α : Type} (g : DirectoryEntry → α) (hlen : numDirEntries ≤ d.length)
    (hslot : ∀ q, d.slot q = V.slot c q)
    (hg : ∀ i j, (V.slot c i).inUse = true → (V.slot c j).inUse = true →
      g (V.slot c i) = g (V.slot c j) → i = j) :
    (((d.take numDirEntries).filter DirectoryEntry.inUse).map g).Nodup := by
  rw [List.Nodup, List.pairwise_map, List.pairwise_filter, List.pairwise_iff_getElem]
  intro i j hi hj hij hui huj heq
  rw [List.length_take] at hi hj
  rw [List.getElem_take] at hui huj heq
  rw [List.getElem_take] at heq
  have hgi : d[i] = V.slot c i := (List.getD_eq_getElem _ _ (by omega)).symm.trans (hslot i)
  have hgj : d[j] = V.slot c j := (List.getD_eq_getElem _ _ (by omega)).symm.trans (hslot j)
  rw [hgi] at hui heq
  rw [hgj] at huj heq
  exact absurd (hg i j hui huj heq) (by omega)

/-- What is looked at is a file. -/
theorem TreeOk.visited (ht : TreeOk V) (hv : Visited V c h) : ∃ i, V.files h = some i := by
  rcases hv with rfl | ⟨j, -, hu, rfl⟩
  · obtain ⟨chain, t, hi⟩ := ht.rootTable
    exact ⟨_, hi⟩
  · obtain ⟨i, hi, -⟩ := Option.map_eq_some_iff.mp (ht.entry c j hu).1
    exact ⟨i, hi⟩

/-- Different files have different footprints. -/
theorem DiskOk.nodup_footprints (hd : DiskOk D V disk) {hs : List ℕ} (hnodup : hs.Nodup)
    (hfiles : ∀ h ∈ hs, ∃ i, V.files h = some i) :
    (hs.flatMap (FileSystem.footprint disk)).Nodup := by
  refine List.nodup_flatMap.mpr ⟨fun h hmem => ?_, hnodup.imp_of_mem ?_⟩
  · obtain ⟨i, hi⟩ := hfiles h hmem
    have hf := hd.file h i hi
    have hpos := hf.sound.pos
    have hheader : headerOn disk h = headerOf disk i.chain 0 := by rw [headerOf, hf.head]
    rw [FileSystem.footprint, hheader, List.nodup_cons, List.mem_map]
    refine ⟨?_, List.nodup_range.map_on fun j hj j' hj' heq => ?_⟩
    · rintro ⟨j, hj, heq⟩
      refine hf.sound.apart 0 0 j hpos hpos (List.mem_range.mp hj) ?_
      rw [hf.head, heq]
    · exact (hf.sound.data_distinct 0 j 0 j' hpos (List.mem_range.mp hj) hpos
        (List.mem_range.mp hj') heq).2
  · intro h h' hmem hmem' hne x hx hx'
    obtain ⟨i, hi⟩ := hfiles h hmem
    obtain ⟨i', hi'⟩ := hfiles h' hmem'
    have hf := hd.file h i hi
    have hf' := hd.file h' i' hi'
    exact hne (hd.apart h h' i i' x hi hi'
      (uses_of_single hf.sound.pos hf.head (FileSystem.mem_footprint.mp hx))
      (uses_of_single hf'.sound.pos hf'.head (FileSystem.mem_footprint.mp hx')))

/-- **All sectors are accounted for** if all files are looked at, and none has a second header. -/
theorem DiskOk.accounted_iff (hd : DiskOk D V disk) (ht : TreeOk V) :
    (∀ x, x < numSectors → (V.Owns disk x ↔ ∃ h, Visited V c h ∧ Uses disk [h] x)) ↔
      ∀ h i, V.files h = some i → Visited V c h ∧ i.chain.length = 1 := by
  constructor
  · intro hall h i hi
    have hf := hd.file h i hi
    -- a sector of the file is one of a file that is looked at, so it is one of this file
    have hseen : ∀ x, Uses disk i.chain x → Visited V c h ∧ Uses disk [h] x := by
      intro x hx
      obtain ⟨h', hv, hx'⟩ := (hall x (hf.sound.uses_lt hx)).mp ⟨h, i, hi, hx⟩
      obtain ⟨i', hi'⟩ := ht.visited hv
      have hf' := hd.file h' i' hi'
      obtain rfl := hd.apart h h' i i' x hi hi' hx (uses_of_single hf'.sound.pos hf'.head hx')
      exact ⟨hv, hx'⟩
    refine ⟨(hseen h hf.uses_self).1, ?_⟩
    have hpos := hf.sound.pos
    by_contra hne
    have htwo : 1 < i.chain.length := by omega
    have hx := (hseen _ (uses_head htwo)).2
    obtain ⟨k, hk, hcase⟩ := hx
    obtain rfl : k = 0 := Nat.lt_one_iff.mp hk
    rcases hcase with heq | ⟨j, hj, heq⟩
    · exact absurd (hf.sound.heads_distinct 1 0 htwo hpos (heq.trans hf.head.symm)) Nat.one_ne_zero
    · have hheader : headerOf disk [h] 0 = headerOf disk i.chain 0 := by
        rw [headerOf, headerOf, hf.head]
        rfl
      rw [hheader] at hj heq
      exact hf.sound.apart 1 0 j htwo hpos hj heq
  · intro hall x _
    constructor
    · rintro ⟨h, i, hi, hx⟩
      obtain ⟨hv, hone⟩ := hall h i hi
      obtain ⟨y, hy⟩ := List.length_eq_one_iff.mp hone
      have hhead := (hd.file h i hi).head
      rw [hy] at hx hhead
      obtain rfl : y = h := hhead
      exact ⟨y, hv, hx⟩
    · rintro ⟨h, hv, hx⟩
      obtain ⟨i, hi⟩ := ht.visited hv
      have hf := hd.file h i hi
      exact ⟨h, i, hi, uses_of_single hf.sound.pos hf.head hx⟩

theorem Found.nil {b : Bool} (hf : Found disk [] h b) : h = directorySector := by
  generalize hp : [] = path at hf
  cases hf with
  | root => rfl
  | entry j _ _ =>
    exact absurd hp.symm (List.append_ne_nil_of_right_ne_nil _ (List.cons_ne_nil j []))

theorem Found.single {b : Bool} {j : ℕ} (hf : Found disk [j] h b) :
    ((tableAt disk directorySector).slot j).inUse = true ∧
      ((tableAt disk directorySector).slot j).sector = h := by
  generalize hp : [j] = path at hf
  cases hf with
  | root => cases hp
  | @entry path' h' j' hf' hu =>
    have hsplit : [] = path' ∧ [j] = [j'] := List.append_inj' hp rfl
    obtain ⟨rfl, hj⟩ := hsplit
    obtain rfl := List.singleton_injective hj
    obtain rfl := hf'.nil
    exact ⟨hu, rfl⟩

/-- **What is accepted, of a volume**: all files are looked at, have names that end, and one header
with less than `NUM_DIRECT` sectors. -/
theorem DiskOk.checkable_iff (hd : DiskOk D V disk) (ht : TreeOk V) (hreached : V.AllReached)
    (hk : V.kind c = some true) :
    ((∀ h i, V.files h = some i → Visited V c h ∧ i.chain.length = 1) ∧
      (∀ j, j < numDirEntries → (V.slot c j).inUse = true →
        (V.slot c j).string.length ≤ fileNameMaxLen) ∧
      ∀ h, Visited V c h → (headerOn disk h).numSectors < numDirect) ↔ Checkable disk c := by
  constructor
  · rintro ⟨hall, hended, hsmall⟩
    -- a directory is not in itself
    have hcurrent : c = directorySector := by
      obtain ⟨i, hi, -⟩ := Option.map_eq_some_iff.mp hk
      rcases (hall c i hi).1 with hroot | ⟨j, -, hu, hsec⟩
      · exact hroot
      · obtain ⟨path, b, hfound, hb⟩ := hd.found_of_reaches ht (hreached c i hi)
        obtain rfl : b = true := Option.some.inj (hb.symm.trans hk)
        have hnext := Found.entry j hfound (by rw [hd.slot_eq hk]; exact hu)
        rw [hd.slot_eq hk, hsec] at hnext
        have hpath := congrArg List.length (hd.found_unique ht hfound hnext)
        rw [List.length_append, List.length_singleton] at hpath
        omega
    refine ⟨hcurrent, fun path h b hfound => ?_, fun j hj hu => ?_, fun path h b hfound => ?_⟩
    · obtain ⟨i, hi, -⟩ := Option.map_eq_some_iff.mp (hd.found ht hfound)
      rcases (hall h i hi).1 with rfl | ⟨j, hj, hu, rfl⟩
      · exact Or.inl (hd.found_unique ht hfound .root)
      · rw [hcurrent] at hu hfound
        have hroot : Found disk [] directorySector true := .root
        have hentry := Found.entry j hroot (by rw [hd.slot_eq ht.root]; exact hu)
        rw [hd.slot_eq ht.root] at hentry
        exact Or.inr ⟨j, hj, hd.found_unique ht hfound hentry⟩
    · rw [hd.slot_eq ht.root] at hu ⊢
      rw [hcurrent] at hended
      exact hended j hj hu
    · obtain ⟨i, hi, -⟩ := Option.map_eq_some_iff.mp (hd.found ht hfound)
      obtain ⟨hv, hone⟩ := hall h i hi
      have hf := hd.file h i hi
      have hlast := hf.sound.last
      rw [hone, Nat.sub_self, headerOf, hf.head] at hlast
      exact ⟨hlast, hsmall h hv⟩
  · intro hc
    have hcurrent := hc.current
    refine ⟨fun h i hi => ?_, fun j hj hu => ?_, fun h hv => ?_⟩
    · obtain ⟨path, b, hfound, -⟩ := hd.found_of_reaches ht (hreached h i hi)
      have hf := hd.file h i hi
      have hnext := (hc.short path h b hfound).1
      refine ⟨?_, ?_⟩
      · rcases hc.shallow path h b hfound with rfl | ⟨j, hj, rfl⟩
        · exact Or.inl hfound.nil
        · obtain ⟨hu, hsec⟩ := hfound.single
          rw [hd.slot_eq ht.root] at hu hsec
          rw [hcurrent]
          exact Or.inr ⟨j, hj, hu, hsec⟩
      · have hpos := hf.sound.pos
        by_contra hne
        refine hf.sound.nonzero 1 Nat.one_pos (by omega) ?_
        rw [← hf.sound.next 0 (by omega), headerOf, hf.head]
        exact hnext
    · rw [hcurrent, ← hd.slot_eq ht.root] at hu ⊢
      exact hc.ended j hj hu
    · obtain ⟨i, hi⟩ := ht.visited hv
      obtain ⟨path, b, hfound, -⟩ := hd.found_of_reaches ht (hreached h i hi)
      exact (hc.short path h b hfound).2

end Visited

/-! ## The check -/

theorem checkBitmaps_iff {freeMap shadowMap : Bitmap} :
    FileSystem.checkBitmaps freeMap shadowMap = false ↔
      ∀ x, x < numSectors → freeMap x = shadowMap x := by
  rw [FileSystem.checkBitmaps, List.any_eq_false]
  refine forall_congr' fun x => ?_
  rw [List.mem_range, bne_iff_ne, not_not]

/-- The shadow map before anything is checked. -/
theorem firstMarks_iff {x : ℕ} :
    Bitmap.mark (Bitmap.mark (fun _ => false) freeMapSector) directorySector x = true ↔
      x = freeMapSector ∨ x = directorySector := by
  rw [Bitmap.mark, Bitmap.mark, Function.update_apply, Function.update_apply]
  by_cases hroot : x = directorySector
  · simp [hroot]
  · by_cases hmap : x = freeMapSector
    · simp [hmap]
    · simp [hroot, hmap]

section Check
variable {V : Volume} {s : System} {disk : ℕ → Sector} {c h : ℕ} {rest : List (ℕ × ℕ)}
  {d : Directory}

/-- What is accepted of the header of a file. -/
theorem DiskOk.smallHeader_iff {D : Discipline} (hd : DiskOk D V disk) {i : FileInfo}
    (hi : V.files h = some i) :
    FileSystem.SmallHeader (headerOn disk h) ↔ (headerOn disk h).numSectors < numDirect := by
  have hf := hd.file h i hi
  have hok := hf.sound.headers 0 hf.sound.pos
  rw [headerOf, hf.head] at hok
  exact and_iff_right hok.numSectors_eq.ge

theorem visited_iff (hlen : numDirEntries ≤ d.length) (hslot : ∀ q, d.slot q = V.slot c q) :
    h ∈ directorySector :: FileSystem.heads (d.take numDirEntries) ↔ Visited V c h := by
  rw [List.mem_cons, mem_heads hlen hslot, Visited]

/-- A sector of a file is none of the free map. -/
theorem DiskOk.visited_apart {D : Discipline} (hd : DiskOk D V disk) (ht : TreeOk V) {x : ℕ}
    (hx : ∃ h, Visited V c h ∧ Uses disk [h] x) : x < numSectors ∧ x ≠ 0 ∧ x ≠ V.map := by
  obtain ⟨h, hv, hu⟩ := hx
  obtain ⟨i, hi⟩ := ht.visited hv
  have hf := hd.file h i hi
  have hu' := uses_of_single hf.sound.pos hf.head hu
  obtain ⟨h0, hm⟩ := hd.reserved h i hi
  refine ⟨hf.sound.uses_lt hu', ?_, ?_⟩
  · rintro rfl
    exact h0 hu'
  · rintro rfl
    exact hm hu'

/-- **What the shadow map has** at the end: no sector is marked twice. -/
theorem DiskOk.shadow {D : Discipline} (hd : DiskOk D V disk) (ht : TreeOk V)
    (hlen : numDirEntries ≤ d.length) (hslot : ∀ q, d.slot q = V.slot c q) :
    let r := FileSystem.checkSectors (V.map ::
      ((List.range (headerOn disk directorySector).numSectors).map
        (headerOn disk directorySector).dataSectors ++
      (FileSystem.heads (d.take numDirEntries)).flatMap (FileSystem.footprint disk)))
      (Bitmap.mark (Bitmap.mark (fun _ => false) freeMapSector) directorySector)
    r.1 = false ∧ ∀ x, x < numSectors → (r.2 x = true ↔
      x = 0 ∨ x = V.map ∨ ∃ h, Visited V c h ∧ Uses disk [h] x) := by
  have hheads : (directorySector :: FileSystem.heads (d.take numDirEntries)).Nodup := by
    refine List.nodup_cons.mpr ⟨fun hmem => ?_, nodup_entries _ hlen hslot fun i j hi hj heq =>
      (ht.once c i c j hi hj heq).2⟩
    obtain ⟨j, -, hu, hsec⟩ := (mem_heads hlen hslot).mp hmem
    exact (ht.entry c j hu).2 hsec
  have hnodup := hd.nodup_footprints hheads fun h hmem =>
    ht.visited ((visited_iff hlen hslot).mp hmem)
  have hflat : (directorySector :: FileSystem.heads (d.take numDirEntries)).flatMap
      (FileSystem.footprint disk) = directorySector ::
      ((List.range (headerOn disk directorySector).numSectors).map
        (headerOn disk directorySector).dataSectors ++
      (FileSystem.heads (d.take numDirEntries)).flatMap (FileSystem.footprint disk)) := rfl
  have hmem : ∀ x, x ∈ (directorySector :: FileSystem.heads (d.take numDirEntries)).flatMap
      (FileSystem.footprint disk) ↔ ∃ h, Visited V c h ∧ Uses disk [h] x := by
    intro x
    rw [List.mem_flatMap]
    refine exists_congr fun h => ?_
    rw [visited_iff hlen hslot, FileSystem.mem_footprint]
  have hroot : directorySector < numSectors ∧ directorySector ≠ 0 ∧ directorySector ≠ V.map :=
    hd.visited_apart ht (c := c) ⟨directorySector, Or.inl rfl, uses_single.mpr (Or.inl rfl)⟩
  rw [hflat] at hnodup hmem
  generalize (List.range (headerOn disk directorySector).numSectors).map
    (headerOn disk directorySector).dataSectors ++
    (FileSystem.heads (d.take numDirEntries)).flatMap (FileSystem.footprint disk) = l at *
  rw [List.nodup_cons] at hnodup
  have hl : ∀ x ∈ l, x < numSectors ∧ x ≠ 0 ∧ x ≠ V.map :=
    fun x hx => hd.visited_apart ht ((hmem x).mp (List.mem_cons_of_mem _ hx))
  refine ⟨FileSystem.checkSectors_error.mpr ⟨List.nodup_cons.mpr ⟨fun hm => (hl _ hm).2.2 rfl,
    hnodup.2⟩, List.forall_mem_cons.mpr ⟨⟨hd.map_lt, ?_⟩, fun x hx => ⟨(hl x hx).1, ?_⟩⟩⟩,
    fun x hx => ?_⟩
  · rw [Bool.eq_false_iff, ne_eq, firstMarks_iff, not_or]
    exact ⟨hd.map_ne, hroot.2.2.symm⟩
  · rw [Bool.eq_false_iff, ne_eq, firstMarks_iff, not_or]
    refine ⟨(hl x hx).2.1, ?_⟩
    rintro rfl
    exact hnodup.1 hx
  · rw [FileSystem.checkSectors_map, firstMarks_iff, ← hmem, List.mem_cons, List.mem_cons]
    have hzero : freeMapSector = 0 := rfl
    rw [hzero]
    tauto

/-- The two bitmaps agree if all sectors are accounted for. -/
theorem DiskOk.bitmaps_iff {D : Discipline} (hd : DiskOk D V disk) (ht : TreeOk V)
    (hno : ∀ x, x < numSectors → ¬ V.leaked x) {freeMap shadowMap : Bitmap}
    (hmap : ∀ x, x < numSectors → freeMap x = mapOn disk V.map x)
    (hshadow : ∀ x, x < numSectors → (shadowMap x = true ↔
      x = 0 ∨ x = V.map ∨ ∃ h, Visited V c h ∧ Uses disk [h] x)) :
    FileSystem.checkBitmaps freeMap shadowMap = false ↔
      ∀ x, x < numSectors → (V.Owns disk x ↔ ∃ h, Visited V c h ∧ Uses disk [h] x) := by
  rw [checkBitmaps_iff]
  refine forall_congr' fun x => forall_congr' fun hx => ?_
  have howned : V.Owns disk x → x ≠ 0 ∧ x ≠ V.map := by
    rintro ⟨h, i, hi, hu⟩
    obtain ⟨h0, hm⟩ := hd.reserved h i hi
    exact ⟨fun heq => h0 (heq ▸ hu), fun heq => hm (heq ▸ hu)⟩
  have hseen : (∃ h, Visited V c h ∧ Uses disk [h] x) → x ≠ 0 ∧ x ≠ V.map :=
    fun h => (hd.visited_apart ht h).2
  rw [hmap x hx, Bool.eq_iff_iff, hd.marks x hx, hshadow x hx]
  have hleak := hno x hx
  constructor
  · intro hiff
    refine ⟨fun ho => ?_, fun hs => ?_⟩
    · obtain ⟨h0, hm⟩ := howned ho
      exact ((hiff.mp (Or.inr (Or.inr (Or.inr ho)))).resolve_left h0).resolve_left hm
    · obtain ⟨h0, hm⟩ := hseen hs
      have hmark := ((hiff.mpr (Or.inr (Or.inr hs))).resolve_left h0).resolve_left hm
      exact hmark.resolve_left hleak
  · intro hiff
    rw [← hiff, or_iff_right hleak]

/-- **The verdict**, from the maps and the errors of its parts. -/
theorem DiskOk.verdict {D : Discipline} (hd : DiskOk D V disk) (ht : TreeOk V)
    (hreached : V.AllReached) (hk : V.kind c = some true)
    (hno : ∀ x, x < numSectors → ¬ V.leaked x) (hlen : numDirEntries ≤ d.length)
    (hslot : ∀ q, d.slot q = V.slot c q) {freeMap : Bitmap}
    (hmap : ∀ x, x < numSectors → freeMap x = mapOn disk V.map x) :
    let marks := Bitmap.mark (Bitmap.mark (fun _ => false) freeMapSector) directorySector
    let hs := FileSystem.heads (d.take numDirEntries)
    let r := FileSystem.checkFileHeader (headerOn disk freeMapSector) marks
    let r' := FileSystem.checkFileHeader (headerOn disk directorySector) r.2
    let r'' := FileSystem.checkSectors (hs.flatMap (FileSystem.footprint disk)) r'.2
    (r.1 = false ∧ r'.1 = false ∧
      ((∀ e ∈ d.take numDirEntries, e.inUse = true → e.string.length ≤ fileNameMaxLen) ∧
        (∀ h ∈ hs, FileSystem.SmallHeader (headerOn disk h)) ∧ r''.1 = false) ∧
      FileSystem.checkBitmaps freeMap r''.2 = false) ↔ Checkable disk c := by
  obtain ⟨hbytes, hsectors, hdata, -⟩ := hd.mapHeader
  have hlist : (List.range (headerOn disk freeMapSector).numSectors).map
      (headerOn disk freeMapSector).dataSectors = [V.map] := by
    have hone : (headerOn disk freeMapSector).numSectors = 1 := hsectors
    rw [hone]
    exact congrArg (fun x => [x]) hdata
  have hsmall : FileSystem.SmallHeader (headerOn disk freeMapSector) := by
    have hb : (headerOn disk freeMapSector).numBytes = freeMapFileSize := hbytes
    have hn : (headerOn disk freeMapSector).numSectors = 1 := hsectors
    rw [FileSystem.SmallHeader, hb, hn]
    decide
  obtain ⟨hnone, hshadow⟩ := hd.shadow ht hlen hslot
  rw [← List.singleton_append, FileSystem.checkSectors_append, FileSystem.checkSectors_append,
    Bool.or_eq_false_iff, Bool.or_eq_false_iff] at hnone
  rw [← List.singleton_append, FileSystem.checkSectors_append, FileSystem.checkSectors_append]
    at hshadow
  obtain ⟨hfirst, hsecond, hthird⟩ := hnone
  dsimp only
  rw [FileSystem.checkFileHeader_error, FileSystem.checkFileHeader_error,
    FileSystem.checkFileHeader_map, FileSystem.checkFileHeader_map, hlist,
    hd.bitmaps_iff ht hno hmap hshadow, hd.accounted_iff ht, ← hd.checkable_iff ht hreached hk,
    forall_taken (P := fun e => e.inUse = true → e.string.length ≤ fileNameMaxLen) hlen hslot]
  have hheaders : FileSystem.SmallHeader (headerOn disk directorySector) ∧
      (∀ h ∈ FileSystem.heads (d.take numDirEntries), FileSystem.SmallHeader (headerOn disk h)) ↔
      ∀ h, Visited V c h → (headerOn disk h).numSectors < numDirect := by
    constructor
    · rintro ⟨hroot, hall⟩ h hv
      obtain ⟨i, hi⟩ := ht.visited hv
      refine (hd.smallHeader_iff hi).mp ?_
      rcases List.mem_cons.mp ((visited_iff hlen hslot).mpr hv) with rfl | hmem
      · exact hroot
      · exact hall h hmem
    · intro hall
      have hall' : ∀ h ∈ directorySector :: FileSystem.heads (d.take numDirEntries),
          FileSystem.SmallHeader (headerOn disk h) := by
        intro h hmem
        have hv := (visited_iff hlen hslot).mp hmem
        obtain ⟨i, hi⟩ := ht.visited hv
        exact (hd.smallHeader_iff hi).mpr (hall h hv)
      exact ⟨hall' _ List.mem_cons_self, fun h hmem => hall' h (List.mem_cons_of_mem _ hmem)⟩
  rw [← hheaders]
  tauto

end Check

theorem noError_iff {badSize badMap badRoot badDirectory badBitmaps : Bool} (h : badSize = false) :
    (!(badSize || badMap || badRoot || badDirectory || badBitmaps)) = true ↔
      badMap = false ∧ badRoot = false ∧ badDirectory = false ∧ badBitmaps = false := by
  rw [h, Bool.not_eq_true', Bool.false_or, Bool.or_eq_false_iff, Bool.or_eq_false_iff,
    Bool.or_eq_false_iff, and_assoc, and_assoc]

/-- **`Check`**, between two calls, when no sector is lost. -/
theorem Idle.check {V : Volume} {s : System} {c : ℕ} {rest : List (ℕ × ℕ)}
    (hi : Idle .strict V s c rest) (hno : ∀ x, x < numSectors → ¬ V.leaked x) :
    s.Ends FileSystem.check (fun r _ => r = true ↔ Checkable s.disk c) := by
  have hd := hi.ready.disk
  have ht := hi.ready.tree
  obtain ⟨chain, t, ha⟩ := hi.dir
  obtain ⟨hbytes, hsectors, hdata, -⟩ := hd.mapHeader
  have hlong := ht.long c chain t ha.file
  have hle := ha.le
  have hroot : directorySector < numSectors := by decide
  unfold FileSystem.check
  refine Prog.ends_bind.mpr (ends_readSector.mpr ⟨by decide, ?_⟩)
  refine Prog.ends_bind.mpr (ends_readSector.mpr ⟨hroot, ?_⟩)
  refine Prog.ends_bind.mpr ((fetchFreeMap_ends hi.ready.handles.freeMap).mono ?_)
  rintro freeMap s₁ ⟨hs₁, hmap⟩
  obtain rfl := hs₁.symm
  refine Prog.ends_bind.mpr ((hi.ready.currentTable ha).mono ?_)
  rintro d s₂ ⟨hlen, hslot, hs₂, -⟩
  have hlen' : numDirEntries ≤ d.length := by omega
  have hslot' : ∀ q, d.slot q = V.slot c q :=
    fun q => (hslot q).trans (slot_of_files ha.file q).symm
  obtain ⟨hnone, hshadow⟩ := hd.shadow ht hlen' hslot'
  unfold FileSystem.checkDirectory
  refine Prog.ends_bind.mpr (Prog.ends_bind.mpr (ends_assert.mpr ⟨hlen', ?_⟩))
  refine (FileSystem.checkEntries_ends _ _ _ _ (fun h hh => ?_)
    (nodup_entries _ hlen' hslot' fun i j hi hj heq => ?_) fun _ _ _ => List.not_mem_nil).mono ?_
  · obtain ⟨j, -, hu, rfl⟩ := (mem_heads hlen' hslot').mp hh
    obtain ⟨i, hi', -⟩ := Option.map_eq_some_iff.mp (ht.entry c j hu).1
    exact (hd.file _ i hi').sound.uses_lt (hd.file _ i hi').uses_self
  · exact ht.names c i j hi hj (DirectoryEntry.sameName_of_string heq)
  intro r s₃ hr
  obtain ⟨rfl, hmarks, herror⟩ := hr
  rw [hs₂.disk] at hmarks herror
  refine Prog.ends_pure.mpr ?_
  have hverdict := hd.verdict ht hi.reached hi.kind hno hlen' hslot' hmap
  dsimp only at hverdict
  rw [← hverdict]
  have hsize : ((headerOn s.disk freeMapSector).numBytes != freeMapFileSize ||
      (headerOn s.disk freeMapSector).numSectors != freeMapFileSize / sectorSize) = false := by
    have hb : (headerOn s.disk freeMapSector).numBytes = freeMapFileSize := hbytes
    have hn : (headerOn s.disk freeMapSector).numSectors = 1 := hsectors
    rw [hb, hn]
    decide
  refine (noError_iff hsize).trans ?_
  rw [herror, and_iff_right (Eq.refl false), hmarks]
  exact Iff.rfl

/-- **Up to ten empty files in the root** are accepted. -/
theorem Crowded.checkable {k free : ℕ} {w : World} {V : Volume} {rest : List (ℕ × ℕ)}
    (h : Crowded k free w V rest) (hempty : Untouched k w V) (hk : k ≤ numDirEntries) :
    Checkable w.sys.disk directorySector := by
  have hi := h.live.idle
  have hten : numDirEntries = 10 := rfl
  refine (hi.ready.disk.checkable_iff hi.ready.tree hi.reached hi.ready.tree.root).mp
    ⟨fun x i hx => ?_, fun j hj hu => ?_, fun x hv => ?_⟩
  · obtain ⟨hchain, -⟩ := h.small hempty (by omega) hx
    refine ⟨((h.file_iff hempty).mp (Option.isSome_iff_exists.mpr ⟨i, hx⟩)).imp_right ?_, ?_⟩
    · rintro ⟨q, hq, hsector⟩
      exact ⟨q, by omega, (h.used q).mpr hq, hsector⟩
    · rw [hchain]
      rfl
  · have hjk := (h.used j).mp hu
    have hzero := (DirectoryEntry.nameAt_letter (by omega) (h.named j hjk)).2
    exact (DirectoryEntry.string_length_le hzero).trans (by decide)
  · obtain ⟨i, hx⟩ := hi.ready.tree.visited hv
    obtain ⟨-, hsectors, -⟩ := h.small hempty (by omega) hx
    exact Nat.lt_of_le_of_lt hsectors (by decide)

/-- **What `Check` returns** after any session of calls that lose no sector for lack of space, with
whatever there is in memory: it accepts the volume if and only if this has the shape it can look
through. -/
theorem session_check_iff {disk : ℕ → Sector} (hf : Formatted disk) :
    ∃ w₀, World.boot disk = some w₀ ∧
      ∀ calls w, Session (fun w call => w.Typed call ∧ w.Keeps call) w₀ calls w →
        w.sys.Ends FileSystem.check (fun r _ => r = true ↔ Checkable w.sys.disk w.current) := by
  obtain ⟨w₀, -, -, hboot, -⟩ := hf.live
  refine ⟨w₀, hboot, fun calls w hs => ?_⟩
  obtain ⟨V, c, rest', hl', hV⟩ := hf.keeping hboot hs
  rw [hl'.idle.current_eq]
  exact hl'.idle.check fun x _ => hV x

theorem session_check_iff_blank : Formatted blankDisk ∧ ∃ w₀ w, World.boot blankDisk = some w₀ ∧
    Session (fun w call => w.Typed call ∧ w.Keeps call) w₀ (crowd 10) w ∧
    Checkable w.sys.disk w.current ∧
    w.sys.Ends FileSystem.check (fun r _ => r = true ↔ Checkable w.sys.disk w.current) := by
  refine ⟨blankDisk_formatted, ?_⟩
  obtain ⟨w₀, w, V, rest, hboot, hs, h, hempty⟩ := crowded (k := 10) (by decide)
  obtain ⟨w₁, hboot', hcheck⟩ := session_check_iff blankDisk_formatted
  obtain rfl := Option.some.inj (hboot.symm.trans hboot')
  have hs' : Session (fun w call => w.Typed call ∧ w.Keeps call) w₀ (crowd 10) w :=
    Run.mono (fun _ _ _ hg => ⟨hg.2.1, hg.2.2.1⟩) hs
  refine ⟨w₀, w, hboot, hs', ?_, hcheck _ w hs'⟩
  rw [h.live.idle.current_eq]
  exact h.checkable hempty le_rfl

/-- **The eleventh file** is not looked at: after eleven files were created in the root, with a
thousand sectors left, `Check` refuses the volume. -/
theorem check_refuses : Formatted blankDisk ∧ ∃ w₀ w, World.boot blankDisk = some w₀ ∧
    Session (fun w call => w.Legal call ∧ w.Keeps call) w₀ (crowd 11) w ∧
    (∀ k, k < 11 → ((tableAt w.sys.disk directorySector).find (letter k)).isSome = true) ∧
    (mapAt w.sys.disk).countClear = 1007 ∧
    w.sys.Ends FileSystem.check (fun r _ => r = false) := by
  refine ⟨blankDisk_formatted, ?_⟩
  obtain ⟨w₀, w, V, rest, hboot, hcrowd, h, -⟩ := crowded (k := 11) (by decide)
  have hs : Session (fun w call => w.Legal call ∧ w.Keeps call) w₀ (crowd 11) w :=
    Run.mono (fun _ _ _ hg => ⟨hg.1, hg.2.2.1⟩) hcrowd
  have hi := h.live.idle
  have hslot := fun q => hi.ready.disk.slot_eq hi.kind q
  refine ⟨w₀, w, hboot, hs, fun k hk => ?_, h.free, ?_⟩
  · rw [Directory.find_eq, Option.isSome_map, Option.isSome_iff_ne_none]
    intro hnone
    have hnot := Directory.findIndex_eq_none hnone k
    rw [hslot, h.named k hk] at hnot
    cases hnot
  · obtain ⟨V', c', rest', hl', hV⟩ := blankDisk_formatted.keeping hboot
      (hcrowd.mono fun _ _ _ hg => ⟨hg.2.1, hg.2.2.1⟩)
    refine (hl'.idle.check fun x _ => hV x).mono ?_
    intro r s hr
    rw [Bool.eq_false_iff, ne_eq, hr]
    intro hc
    have hroot : Found w.sys.disk [] directorySector true := .root
    have hentry := Found.entry 10 hroot (by rw [hslot]; exact (h.used 10).mpr (by decide))
    rcases hc.shallow _ _ _ hentry with hnil | ⟨j, hj, hpath⟩
    · cases hnil
    · have hj' : 10 = j := List.singleton_injective hpath
      have hnd : numDirEntries = 10 := rfl
      omega

end PaldOs
