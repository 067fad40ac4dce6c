import PaldOs.DirectoryMap
import PaldOs.FileSystem
import PaldOs.Transfers

/-! # The types of directory entries

`Add` sets `isDirectory` of an entry for a directory, and does not write it for a regular file: it
relies on a free entry to have it clear.  The constructor clears it, and `Remove` clears it when
an entry becomes free.  The entry by which `Add` makes a full table longer is as the heap has it,
and nobody clears it.

So the type of an entry is the one it was added with, until it is removed, unless a regular file
was added to a full table and the heap had something else than zero there.  `FindDir` takes such a
file for a directory: `Remove` refuses it and `ChangeDir` enters it.
-/
namespace PaldOs
namespace Directory

/-! ## Types in a run -/

/-- The entry that `Add` fills has `isDirectory` clear, if that matters: the name is there
already, or it is the name of a directory, or there is a free entry, or the heap has zero. -/
def TypeCleared (d : Directory) (heap : DirectoryEntry) (name : List UInt8) (isDirectory : Bool) :
    Prop :=
  Present d name ∨ isDirectory = true ∨ d.freeIndex < d.length ∨ heap.isDirectory = false

/-- A free entry has `isDirectory` clear. -/
def FreeCleared (d : Directory) : Prop :=
  ∀ q, (slot d q).inUse = false → (slot d q).isDirectory = false

/-- The name has this type. -/
def Typed (d : Directory) (name : List UInt8) (isDirectory : Bool) : Prop :=
  ∃ j, (slot d j).named name = true ∧ (slot d j).isDirectory = isDirectory

section Types
variable {d : Directory} {heap : DirectoryEntry} {name name' : List UInt8} {newSector : Int32}
  {isDirectory b : Bool} {call : Edit}

theorem freeCleared_onHeap (heap : ℕ → DirectoryEntry) (size : ℕ) :
    FreeCleared (onHeap heap size) :=
  fun q _ => (slot_onHeap heap size q).2

theorem FreeCleared.edit (h : FreeCleared d) : FreeCleared (d.edit call) := by
  intro q hq
  cases call with
  | add heap name newSector isDirectory =>
    rw [Directory.edit] at hq ⊢
    by_cases hp : Present d name
    · rw [addOnHeap_of_present hp] at hq ⊢
      exact h q hq
    · rw [addOnHeap_of_not_present hp] at hq ⊢
      simp only [slot_insert] at hq ⊢
      by_cases hqf : q = d.freeIndex
      · rw [if_pos hqf] at hq
        cases hq
      · rw [if_neg hqf] at hq ⊢
        exact h q hq
  | remove name =>
    rw [Directory.edit, tryRemove_snd] at hq ⊢
    cases hfind : d.findIndex name with
    | none =>
      rw [remove, hfind] at hq ⊢
      exact h q hq
    | some i =>
      rw [slot_remove hfind] at hq ⊢
      split at hq
      · rename_i hi
        rw [if_pos hi]
        rfl
      · rename_i hi
        rw [if_neg hi]
        exact h q hq

theorem FreeCleared.edits (h : FreeCleared d) (calls : List Edit) :
    FreeCleared (d.edits calls) := by
  induction calls generalizing d with
  | nil => exact h
  | cons call calls ih => exact ih h.edit

/-- The type under which a file is added. -/
theorem typed_addOnHeap (hp : ¬ Present d name) :
    Typed (d.addOnHeap heap name newSector isDirectory).2 name
      (isDirectory || (d.vacant heap).isDirectory) := by
  refine ⟨d.freeIndex, (named_addOnHeap hp).mpr (Or.inl ⟨rfl, rfl⟩), ?_⟩
  rw [addOnHeap_of_not_present hp, slot_insert, if_pos rfl]
  rfl

/-- **When the type is the one that was asked for.** -/
theorem FreeCleared.type_iff (h : FreeCleared d) (hp : ¬ Present d name) :
    (isDirectory || (d.vacant heap).isDirectory) = isDirectory ↔
      TypeCleared d heap name isDirectory := by
  rw [TypeCleared, vacant]
  by_cases hlt : d.freeIndex < d.length
  · rw [if_pos hlt, h _ (slot_freeIndex d), Bool.or_false]
    exact ⟨fun _ => Or.inr (Or.inr (Or.inl hlt)), fun _ => rfl⟩
  · rw [if_neg hlt]
    cases isDirectory with
    | true => simp
    | false => simp [hp, hlt]

theorem Unique.findDir_iff_typed (hu : Unique d) (ht : Typed d name b) :
    d.findDir name = b := by
  obtain ⟨j, hj, hb⟩ := ht
  rw [Bool.eq_iff_iff, findDir_iff]
  constructor
  · rintro ⟨i, hi, hdir⟩
    rw [← hb, hu name j i hj hi, hdir]
  · intro hb'
    exact ⟨j, hj, hb.trans hb'⟩

/-- **A call keeps the type of a name**, unless it removes it. -/
theorem Typed.edit (hu : Unique d) (ht : Typed d name b)
    (hcall : ∀ name', call = .remove name' → nameKey name' ≠ nameKey name) :
    Typed (d.edit call) name b := by
  obtain ⟨j, hj, hb⟩ := ht
  have hused : (slot d j).inUse = true := (DirectoryEntry.named_iff.mp hj).1
  cases call with
  | add heap name' newSector isDirectory =>
    rw [Directory.edit]
    by_cases hp : Present d name'
    · rw [addOnHeap_of_present hp]
      exact ⟨j, hj, hb⟩
    · refine ⟨j, (named_addOnHeap hp).mpr (Or.inr hj), ?_⟩
      rw [addOnHeap_of_not_present hp, slot_insert, if_neg, hb]
      rintro rfl
      rw [slot_freeIndex] at hused
      cases hused
  | remove name' =>
    rw [Directory.edit]
    have hj' := (named_tryRemove hu).mpr ⟨hj, (hcall name' rfl).symm⟩
    refine ⟨j, hj', ?_⟩
    rw [tryRemove_snd] at hj' ⊢
    cases hfind : d.findIndex name' with
    | none =>
      rw [remove, hfind]
      exact hb
    | some i =>
      rw [slot_remove hfind] at hj' ⊢
      split at hj'
      · rw [DirectoryEntry.not_named_emptied] at hj'
        cases hj'
      · rename_i hi
        rw [if_neg hi]
        exact hb

theorem Typed.edits {calls : List Edit} (hu : Unique d) (ht : Typed d name b)
    (hcalls : ∀ name', .remove name' ∈ calls → nameKey name' ≠ nameKey name) :
    Typed (d.edits calls) name b := by
  induction calls generalizing d with
  | nil => exact ht
  | cons call calls ih =>
    refine ih hu.edit (ht.edit hu fun name' hcall => ?_) fun name' hmem => ?_
    · exact hcalls name' (hcall ▸ List.mem_cons_self)
    · exact hcalls name' (List.mem_cons_of_mem _ hmem)

end Types

/-! ## What the file system makes of the type -/

/-- The `Add` of the file system. -/
theorem add_onHeap {s : System} {d : Directory} {name : List UInt8} {newSector : ℕ}
    {isDirectory : Bool} (hlt : newSector < 2 ^ 32) :
    s.Ends (d.add name newSector isDirectory) (fun r _ =>
      ((d.addOnHeap (entryAt s.heap d.length) name (UInt32.ofNat newSector).toInt32
        isDirectory).1 = r.isSome) ∧
      (d.addOnHeap (entryAt s.heap d.length) name (UInt32.ofNat newSector).toInt32
        isDirectory).2 = r.getD d) := by
  have hstored : storedSector (UInt32.ofNat newSector).toInt32 = newSector := by
    rw [storedSector, UInt32.toUInt32_toInt32, UInt32.toNat_ofNat', Nat.mod_eq_of_lt hlt]
  rw [add, addOnHeap, hstored]
  cases d.findIndex name with
  | some i => exact Prog.ends_pure.mpr ⟨rfl, rfl⟩
  | none =>
    refine Prog.ends_bind.mpr (ends_getHeap.mpr (Prog.ends_bind.mpr ?_))
    unfold noteSize
    split
    · exact ends_setDirectorySize.mpr (Prog.ends_pure.mpr ⟨rfl, rfl⟩)
    · exact Prog.ends_pure.mpr (Prog.ends_pure.mpr ⟨rfl, rfl⟩)

/-- A system whose current directory has this table. -/
def IsCurrent (d : Directory) (s : System) : Prop :=
  s.Yields FileSystem.currentTable (fun dir _ => dir = d)

/-- **The name is that of a regular file** for the file system: `ChangeDir` does not enter it, as
a relative name or as a name in an absolute path, and `Remove` goes on as it does without its test
for directories. -/
structure RegularName (d : Directory) (name : List UInt8) : Prop where
  notEntered : ∀ (s : System) onlyChange, IsCurrent d s → name.head? ≠ some slash →
    s.Yields (FileSystem.changeDir name onlyChange) (fun success _ => success = false)
  notWalked : ∀ (s : System) rest,
    s.Yields (FileSystem.walk d (name :: rest)) (fun success _ => success = false)
  removable : ∀ (s : System), IsCurrent d s →
    (FileSystem.remove name false).run System.act s = (FileSystem.remove name true).run System.act s

theorem regularName_of_findDir {d : Directory} {name : List UInt8} (h : d.findDir name = false) :
    RegularName d name := by
  refine ⟨fun s onlyChange hs hrel => ?_, fun s rest => ?_, fun s hs => ?_⟩
  · unfold FileSystem.changeDir
    rw [if_neg hrel]
    refine Prog.yields_bind.mpr (hs.mono ?_)
    rintro _ s' rfl
    rw [if_neg (by simp [h])]
    exact Prog.yields_pure.mpr rfl
  · rw [FileSystem.walk, if_neg (by simp [h])]
    exact Prog.yields_pure.mpr rfl
  · unfold FileSystem.remove
    rw [Prog.run_bind, Prog.run_bind]
    cases hrun : FileSystem.currentTable.run System.act s with
    | none => rfl
    | some r =>
      obtain ⟨dir, s'⟩ := r
      obtain rfl : dir = d := hs dir s' hrun
      simp only [Option.bind_some, h, Bool.false_and]

/-- What is wanted of the types in a run: a name has the type it was added with until it is
removed, and for a regular file the file system sees it so. -/
def TypesKept (d : Directory) (calls : List Edit) : Prop :=
  ∀ before after rest heap name newSector isDirectory,
    calls = before ++ .add heap name newSector isDirectory :: (after ++ rest) →
    ((d.edits before).addOnHeap heap name newSector isDirectory).1 = true →
    (∀ name', .remove name' ∈ after → nameKey name' ≠ nameKey name) →
    (d.edits (before ++ .add heap name newSector isDirectory :: after)).findDir name = isDirectory ∧
    (isDirectory = false → RegularName
      (d.edits (before ++ .add heap name newSector isDirectory :: after)) name)

/-- **Types are kept exactly if** no regular file is added to a full table with something else
than zero in the heap. -/
theorem types_kept_iff (start : ℕ → DirectoryEntry) (size : ℕ) (calls : List Edit) :
    TypesKept (onHeap start size) calls ↔
      ∀ before rest heap name newSector isDirectory,
        calls = before ++ .add heap name newSector isDirectory :: rest →
        TypeCleared ((onHeap start size).edits before) heap name isDirectory := by
  have hunique := unique_onHeap start size
  have hfree := freeCleared_onHeap start size
  generalize onHeap start size = d at hunique hfree ⊢
  -- the state before and after an `Add` that adds
  have hafter : ∀ before after heap name newSector isDirectory,
      d.edits (before ++ .add heap name newSector isDirectory :: after) =
        ((d.edits before).addOnHeap heap name newSector isDirectory).2.edits after := by
    intro before after heap name newSector isDirectory
    rw [edits_append, edits_cons]
    rfl
  have hadded : ∀ {before heap name newSector isDirectory},
      ((d.edits before).addOnHeap heap name newSector isDirectory).1 = true →
        ¬ Present (d.edits before) name := by
    intro before heap name newSector isDirectory hresult hp
    rw [addOnHeap_of_present hp] at hresult
    cases hresult
  constructor
  · intro h before rest heap name newSector isDirectory hcalls
    by_contra hnot
    have hp : ¬ Present (d.edits before) name := fun hp => hnot (Or.inl hp)
    have hresult : ((d.edits before).addOnHeap heap name newSector isDirectory).1 = true := by
      rw [addOnHeap_of_not_present hp]
    have hfind := (h before [] rest heap name newSector isDirectory hcalls hresult (by simp)).1
    rw [hafter, edits_nil, (hunique.edits before).addOnHeap.findDir_iff_typed (typed_addOnHeap hp)]
      at hfind
    exact hnot (((hfree.edits before).type_iff hp).mp hfind)
  · intro h before after rest heap name newSector isDirectory hcalls hresult hkept
    have hp := hadded hresult
    have htype := ((hfree.edits before).type_iff hp).mpr
      (h before (after ++ rest) heap name newSector isDirectory hcalls)
    have hu : Unique ((d.edits before).addOnHeap heap name newSector isDirectory).2 :=
      (hunique.edits before).addOnHeap
    have ht : Typed ((d.edits before).addOnHeap heap name newSector isDirectory).2 name
        (isDirectory || ((d.edits before).vacant heap).isDirectory) := typed_addOnHeap hp
    rw [htype] at ht
    have hfind := (hu.edits after).findDir_iff_typed (ht.edits hu hkept)
    rw [hafter]
    exact ⟨hfind, fun hreg => regularName_of_findDir (hfind.trans hreg)⟩

/-- **A file that is taken for a directory.**  The table has one entry; the second regular file
goes to a new one, where the heap has something else than zero. -/
theorem types_lost : ¬ ∀ start size calls, TypesKept (onHeap start size) calls := by
  intro h
  have hfind := (h (fun _ => .fresh) 1
    [.add .fresh [97] 5 false, .add { DirectoryEntry.fresh with isDirectory := true } [98] 6 false]
    [.add .fresh [97] 5 false] [] [] { DirectoryEntry.fresh with isDirectory := true } [98] 6 false
    rfl (by decide +kernel) (by simp)).1
  revert hfind
  decide +kernel

end Directory
end PaldOs
