import PaldOs.Directory

/-! # A directory is a finite map

The table of a directory in memory, with the contents of the heap it is made in.  The constructor
clears `inUse` and `isDirectory` of its entries and leaves the rest; the entry by which `Add`
makes a full table longer is what the heap has there, until it is filled.

Names are compared up to 20 bytes, and up to their first null byte: what is left of a name then is
its key, and `strncmp` is equality of keys.  Whatever the heap has, a table that came about by
`Add` and `Remove` has at most one entry in use for each key.  So it is a map from keys to
sectors: `Add` binds a key that is not bound, `Remove` takes a binding away, and all others stay.
-/
namespace PaldOs

/-! ## The table and the heap -/

/-- An `int`, stored as an `unsigned`. -/
def storedSector (newSector : Int32) : ℕ := newSector.toUInt32.toNat

namespace Directory

/-- `Directory::Add`: the result, and the table. -/
def addOnHeap (d : Directory) (heap : DirectoryEntry) (name : List UInt8) (newSector : Int32)
    (isDirectory : Bool) : Bool × Directory :=
  match d.findIndex name with
  | some _ => (false, d)
  | none => (true, d.insert heap name (storedSector newSector) isDirectory)

/-- `Directory::Remove`: the result, and the table. -/
def tryRemove (d : Directory) (name : List UInt8) : Bool × Directory :=
  match d.findIndex name with
  | some i => (true, d.modify i DirectoryEntry.emptied)
  | none => (false, d)

/-- `Directory::Find`, with its result as an `int`. -/
def findSector (d : Directory) (name : List UInt8) : Int32 :=
  match d.findIndex name with
  | some i => (UInt32.ofNat (d.slot i).sector).toInt32
  | none => -1

/-- A call of `Add` or `Remove`. -/
inductive Edit where
  | add (heap : DirectoryEntry) (name : List UInt8) (newSector : Int32) (isDirectory : Bool)
  | remove (name : List UInt8)

/-- The table after a call. -/
def edit (d : Directory) : Edit → Directory
  | .add heap name newSector isDirectory => (d.addOnHeap heap name newSector isDirectory).2
  | .remove name => (d.tryRemove name).2

/-- The table after some calls. -/
def edits (d : Directory) (calls : List Edit) : Directory := calls.foldl edit d

@[simp] theorem edits_nil (d : Directory) : d.edits [] = d := rfl

@[simp] theorem edits_cons (d : Directory) (call : Edit) (calls : List Edit) :
    d.edits (call :: calls) = (d.edit call).edits calls := rfl

theorem edits_append (d : Directory) (calls calls' : List Edit) :
    d.edits (calls ++ calls') = (d.edits calls).edits calls' := List.foldl_append ..

end Directory

/-! ## Keys -/

/-- What counts of some characters: up to the first null byte, and up to 20 bytes. -/
def keyFrom (a : ℕ → UInt8) (i n : ℕ) : List UInt8 :=
  ((List.range' i n).map a).takeWhile (· != 0)

/-- What counts of a name. -/
def nameKey (name : List UInt8) : List UInt8 := keyFrom (charAt name) 0 fileNameMaxLen

/-- What counts of the name of an entry. -/
def DirectoryEntry.key (e : DirectoryEntry) : List UInt8 := keyFrom e.nameAt 0 fileNameMaxLen

section Keys
variable {a b : ℕ → UInt8} {i n : ℕ}

theorem keyFrom_succ :
    keyFrom a i (n + 1) = if a i = 0 then [] else a i :: keyFrom a (i + 1) n := by
  rw [keyFrom, List.range'_succ, List.map_cons, List.takeWhile_cons]
  by_cases h : a i = 0
  · rw [if_pos h, if_neg (by simp [h])]
  · rw [if_neg h, if_pos (by simp [h])]
    rfl

/-- **`strncmp` is equality of keys.** -/
theorem sameFrom_iff_key : sameFrom a b i n = true ↔ keyFrom a i n = keyFrom b i n := by
  induction n generalizing i with
  | zero => simp [sameFrom, keyFrom]
  | succ n ih =>
    rw [sameFrom, Bool.and_eq_true, Bool.or_eq_true, beq_iff_eq, beq_iff_eq, ih, keyFrom_succ,
      keyFrom_succ]
    constructor
    · rintro ⟨hhead, hrest⟩
      by_cases ha : a i = 0
      · rw [if_pos ha, if_pos (hhead ▸ ha)]
      · rw [if_neg ha, if_neg (hhead ▸ ha), hhead, hrest.resolve_left ha]
    · intro h
      by_cases ha : a i = 0
      · rw [if_pos ha] at h
        by_cases hb : b i = 0
        · exact ⟨ha.trans hb.symm, Or.inl ha⟩
        · rw [if_neg hb] at h
          cases h
      · rw [if_neg ha] at h
        by_cases hb : b i = 0
        · rw [if_pos hb] at h
          cases h
        · rw [if_neg hb, List.cons_eq_cons] at h
          exact ⟨h.1, Or.inr h.2⟩

end Keys

namespace DirectoryEntry
variable {e : DirectoryEntry} {name : List UInt8}

theorem named_iff : e.named name = true ↔ e.inUse = true ∧ e.key = nameKey name := by
  rw [named, Bool.and_eq_true, sameFrom_iff_key]
  rfl

@[simp] theorem key_filled (e : DirectoryEntry) (name : List UInt8) (newSector : ℕ)
    (isDirectory : Bool) : (e.filled name newSector isDirectory).key = nameKey name :=
  (named_iff.mp (named_filled_self e name newSector isDirectory)).2

theorem named_filled_iff {name' : List UInt8} {newSector : ℕ} {isDirectory : Bool} :
    (e.filled name newSector isDirectory).named name' = true ↔ nameKey name' = nameKey name := by
  rw [named_iff, key_filled]
  exact ⟨fun h => h.2.symm, fun h => ⟨rfl, h.symm⟩⟩

theorem not_named_emptied (e : DirectoryEntry) (name : List UInt8) :
    e.emptied.named name = false := rfl

end DirectoryEntry

namespace Directory

/-! ## What the operations do to the entries -/

section Slots
variable {d : Directory} {name name' : List UInt8} {j q : ℕ}

theorem tryRemove_snd (d : Directory) (name : List UInt8) :
    (d.tryRemove name).2 = d.remove name := by
  rw [tryRemove, remove]
  cases d.findIndex name with
  | none => rfl
  | some i => rfl

end Slots

/-! ## One entry for each key -/

/-- The name is in the directory. -/
def Present (d : Directory) (name : List UInt8) : Prop := ∃ j, (slot d j).named name = true

/-- **At most one entry in use for each name.** -/
def Unique (d : Directory) : Prop :=
  ∀ name i j, (slot d i).named name = true → (slot d j).named name = true → i = j

section Map
variable {d : Directory} {heap : DirectoryEntry} {name name' : List UInt8} {newSector : Int32}
  {isDirectory : Bool} {call : Edit}

theorem present_iff : Present d name ↔ (d.findIndex name).isSome = true := by
  constructor
  · rintro ⟨j, hj⟩
    by_contra hnone
    rw [Option.not_isSome_iff_eq_none] at hnone
    rw [findIndex_eq_none hnone j] at hj
    cases hj
  · intro h
    obtain ⟨j, hj⟩ := Option.isSome_iff_exists.mp h
    exact ⟨j, (findIndex_eq_some hj).2⟩

theorem not_present_iff : ¬ Present d name ↔ d.findIndex name = none := by
  rw [present_iff, Option.not_isSome_iff_eq_none]

/-- With one entry for each name, the entry that is found is the one with the name. -/
theorem Unique.findIndex_iff (hu : Unique d) {j : ℕ} :
    d.findIndex name = some j ↔ (slot d j).named name = true := by
  constructor
  · intro h
    exact (findIndex_eq_some h).2
  · intro h
    obtain ⟨i, hi⟩ := Option.isSome_iff_exists.mp (present_iff.mp ⟨j, h⟩)
    rw [hi, hu name i j (findIndex_eq_some hi).2 h]

theorem addOnHeap_of_present (h : Present d name) :
    d.addOnHeap heap name newSector isDirectory = (false, d) := by
  obtain ⟨j, hj⟩ := Option.isSome_iff_exists.mp (present_iff.mp h)
  rw [addOnHeap, hj]

theorem addOnHeap_of_not_present (h : ¬ Present d name) :
    d.addOnHeap heap name newSector isDirectory =
      (true, d.insert heap name (storedSector newSector) isDirectory) := by
  rw [addOnHeap, not_present_iff.mp h]

/-- The entries after `Add`. -/
theorem named_addOnHeap (h : ¬ Present d name) {j : ℕ} :
    (slot (d.addOnHeap heap name newSector isDirectory).2 j).named name' = true ↔
      j = d.freeIndex ∧ nameKey name' = nameKey name ∨ (slot d j).named name' = true := by
  rw [addOnHeap_of_not_present h]
  simp only [slot_insert]
  by_cases hj : j = d.freeIndex
  · have hfree : (slot d j).named name' = false := by
      rw [DirectoryEntry.named, hj, slot_freeIndex, Bool.false_and]
    rw [if_pos hj, DirectoryEntry.named_filled_iff, hfree]
    simp [hj]
  · rw [if_neg hj]
    simp [hj]

/-- The entries after `Remove`. -/
theorem named_tryRemove (hu : Unique d) {j : ℕ} :
    (slot (d.tryRemove name).2 j).named name' = true ↔
      (slot d j).named name' = true ∧ nameKey name' ≠ nameKey name := by
  have hkeys : ∀ {i}, (slot d i).named name = true → (slot d i).named name' = true →
      nameKey name' = nameKey name := by
    intro i h h'
    rw [DirectoryEntry.named_iff] at h h'
    exact h'.2.symm.trans h.2
  rw [tryRemove_snd]
  cases hfind : d.findIndex name with
  | none =>
    rw [remove, hfind]
    refine ⟨fun h => ⟨h, fun heq => ?_⟩, And.left⟩
    have hn : (slot d j).named name = true := by
      rw [DirectoryEntry.named_iff] at h ⊢
      exact ⟨h.1, h.2.trans heq⟩
    rw [findIndex_eq_none hfind j] at hn
    cases hn
  | some i =>
    have hi := (findIndex_eq_some hfind).2
    rw [slot_remove hfind]
    by_cases hj : j = i
    · subst hj
      rw [if_pos rfl, DirectoryEntry.not_named_emptied]
      exact ⟨fun h => absurd h Bool.false_ne_true, fun h => absurd (hkeys hi h.1) h.2⟩
    · rw [if_neg hj]
      refine ⟨fun h => ⟨h, fun heq => hj ?_⟩, And.left⟩
      refine hu name j i ?_ hi
      rw [DirectoryEntry.named_iff] at h ⊢
      exact ⟨h.1, h.2.trans heq⟩

theorem unique_onHeap (heap : ℕ → DirectoryEntry) (size : ℕ) : Unique (onHeap heap size) := by
  intro name i j hi
  rw [DirectoryEntry.named_iff, (slot_onHeap heap size i).1] at hi
  cases hi.1

theorem Unique.addOnHeap (hu : Unique d) :
    Unique (d.addOnHeap heap name newSector isDirectory).2 := by
  by_cases h : Present d name
  · rw [addOnHeap_of_present h]
    exact hu
  · -- an entry with the key of the new one would make the name present
    have hnew : ∀ {name' : List UInt8} {q : ℕ}, nameKey name' = nameKey name →
        ¬ (slot d q).named name' = true := by
      intro name' q hkey hq
      refine h ⟨q, ?_⟩
      rw [DirectoryEntry.named_iff] at hq ⊢
      exact ⟨hq.1, hq.2.trans hkey⟩
    intro name' i j hi hj
    rw [named_addOnHeap h] at hi hj
    rcases hi with ⟨hi, hkey⟩ | hi
    · rcases hj with ⟨hj, -⟩ | hj
      · rw [hi, hj]
      · exact absurd hj (hnew hkey)
    · rcases hj with ⟨-, hkey⟩ | hj
      · exact absurd hi (hnew hkey)
      · exact hu name' i j hi hj

theorem Unique.tryRemove (hu : Unique d) : Unique (d.tryRemove name).2 := by
  intro name' i j hi hj
  rw [named_tryRemove hu] at hi hj
  exact hu name' i j hi.1 hj.1

theorem Unique.edit (hu : Unique d) : Unique (d.edit call) := by
  cases call with
  | add heap name newSector isDirectory => exact hu.addOnHeap
  | remove name => exact hu.tryRemove

/-- One entry for each name is kept by every run. -/
theorem Unique.edits (hu : Unique d) (calls : List Edit) : Unique (d.edits calls) := by
  induction calls generalizing d with
  | nil => exact hu
  | cons call calls ih => exact ih hu.edit

/-! ## `Find` -/

/-- `Find` depends on the entries with the name. -/
theorem findSector_congr {d' : Directory} (hu : Unique d) (hu' : Unique d')
    (h : ∀ j, (slot d' j).named name = true ↔ (slot d j).named name = true)
    (hsector : ∀ j, (slot d j).named name = true → (slot d' j).sector = (slot d j).sector) :
    d'.findSector name = d.findSector name := by
  have hfind : d'.findIndex name = d.findIndex name := by
    refine Option.ext fun j => ?_
    rw [hu'.findIndex_iff, hu.findIndex_iff]
    exact h j
  rw [findSector, findSector, hfind]
  cases hj : d.findIndex name with
  | none => rfl
  | some j =>
    dsimp only
    rw [hsector j (findIndex_eq_some hj).2]

theorem toInt32_storedSector (newSector : Int32) :
    (UInt32.ofNat (storedSector newSector)).toInt32 = newSector := by
  simp [storedSector]

theorem findSector_addOnHeap (hu : Unique d) (h : ¬ Present d name) :
    (d.addOnHeap heap name newSector isDirectory).2.findSector name = newSector := by
  have hnamed :
      (slot (d.addOnHeap heap name newSector isDirectory).2 d.freeIndex).named name = true :=
    (named_addOnHeap h).mpr (Or.inl ⟨rfl, rfl⟩)
  rw [findSector, hu.addOnHeap.findIndex_iff.mpr hnamed]
  dsimp only
  rw [addOnHeap_of_not_present h, slot_insert, if_pos rfl]
  exact toInt32_storedSector newSector

theorem findSector_addOnHeap_other (hu : Unique d) (hne : nameKey name' ≠ nameKey name) :
    (d.addOnHeap heap name newSector isDirectory).2.findSector name' = d.findSector name' := by
  by_cases h : Present d name
  · rw [addOnHeap_of_present h]
  · refine findSector_congr hu hu.addOnHeap (fun j => ?_) fun j hj => ?_
    · rw [named_addOnHeap h]
      exact ⟨fun hj => hj.resolve_left fun hk => hne hk.2, Or.inr⟩
    · have hused : (slot d j).inUse = true := (DirectoryEntry.named_iff.mp hj).1
      rw [addOnHeap_of_not_present h, slot_insert, if_neg]
      rintro rfl
      rw [slot_freeIndex] at hused
      cases hused

theorem findSector_tryRemove (hu : Unique d) : (d.tryRemove name).2.findSector name = -1 := by
  have hnone : (d.tryRemove name).2.findIndex name = none := by
    rw [← not_present_iff]
    rintro ⟨j, hj⟩
    exact ((named_tryRemove hu).mp hj).2 rfl
  rw [findSector, hnone]

theorem findSector_tryRemove_other (hu : Unique d) (hne : nameKey name' ≠ nameKey name) :
    (d.tryRemove name).2.findSector name' = d.findSector name' := by
  refine findSector_congr hu hu.tryRemove (fun j => ?_) fun j hj => ?_
  · rw [named_tryRemove hu]
    exact and_iff_left hne
  · rw [tryRemove_snd]
    cases hfind : d.findIndex name with
    | none => rw [remove, hfind]
    | some i =>
      rw [slot_remove hfind]
      split
      · rename_i heq
        rw [heq]
        rfl
      · rfl

theorem tryRemove_fst : (d.tryRemove name).1 = true ↔ Present d name := by
  rw [present_iff, tryRemove]
  cases d.findIndex name with
  | none => simp
  | some i => simp

/-- **A directory is a finite map from names to sectors**, after any calls of `Add` and `Remove`
and for any contents of the heap. -/
theorem directory_finiteMap (start : ℕ → DirectoryEntry) (size : ℕ) (calls : List Edit) :
    Unique ((onHeap start size).edits calls) ∧
    (∀ heap name newSector isDirectory,
      (((onHeap start size).edits calls).addOnHeap heap name newSector isDirectory =
        (false, (onHeap start size).edits calls) ↔ Present ((onHeap start size).edits calls) name) ∧
      (¬ Present ((onHeap start size).edits calls) name →
        (((onHeap start size).edits calls).addOnHeap heap name newSector isDirectory).1 = true ∧
        (((onHeap start size).edits calls).addOnHeap heap name newSector isDirectory).2.findSector
          name = newSector) ∧
      ∀ name', nameKey name' ≠ nameKey name →
        (((onHeap start size).edits calls).addOnHeap heap name newSector isDirectory).2.findSector
          name' = ((onHeap start size).edits calls).findSector name') ∧
    ∀ name, ((((onHeap start size).edits calls).tryRemove name).1 = true ↔
        Present ((onHeap start size).edits calls) name) ∧
      (((onHeap start size).edits calls).tryRemove name).2.findSector name = -1 ∧
      ∀ name', nameKey name' ≠ nameKey name →
        (((onHeap start size).edits calls).tryRemove name).2.findSector name' =
          ((onHeap start size).edits calls).findSector name' := by
  have hu := (unique_onHeap start size).edits calls
  generalize (onHeap start size).edits calls = d at hu ⊢
  refine ⟨hu, fun heap name newSector isDirectory => ⟨⟨fun h => ?_, addOnHeap_of_present⟩,
    fun h => ⟨?_, findSector_addOnHeap hu h⟩, fun name' => findSector_addOnHeap_other hu⟩,
    fun name => ⟨tryRemove_fst, findSector_tryRemove hu,
    fun name' => findSector_tryRemove_other hu⟩⟩
  · by_contra hnot
    rw [addOnHeap_of_not_present hnot] at h
    cases h
  · rw [addOnHeap_of_not_present h]

end Map

end Directory
end PaldOs
