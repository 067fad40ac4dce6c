import Mathlib.Algebra.Ring.Int.Defs
import Mathlib.Algebra.Ring.Nat
import Mathlib.Data.List.Basic
import Mathlib.Data.Int.Order.Basic
import Mathlib.Tactic.Common

/-! # The list container of `lib/list.hh`

`List<Item>` is a singly linked list of `ListElement`s, each carrying an item
and an integer sort key.  This module models the container by the sequence of
its elements, from `first` to `last`, and each operation by the sequence it
leaves: `Append` and `Prepend` store key `0`, `SortedInsert` walks to the first
element with a greater key, `SortedInsertInverted` to the first element with a
smaller one, and `SortedPop` takes the first element whatever its key is.
-/
namespace PaldOs

/-- An element of a list: its sort key and its item. -/
structure ListElement (α : Type) where
  key : ℤ
  item : α
deriving DecidableEq, Repr

namespace LinkedList
variable {α : Type}

/-- `Append`: the item goes last, with key `0`. -/
def append (item : α) (l : List (ListElement α)) : List (ListElement α) :=
  l ++ [⟨0, item⟩]

/-- `Prepend`: the item goes first, with key `0`. -/
def prepend (item : α) (l : List (ListElement α)) : List (ListElement α) :=
  ⟨0, item⟩ :: l

/-- `Has`: some element holds the item. -/
def has [DecidableEq α] (item : α) (l : List (ListElement α)) : Bool :=
  l.any (fun e => item = e.item)

/-- `SortedInsert`: the item goes before the first element with a greater key. -/
def sortedInsert (item : α) (sortKey : ℤ) : List (ListElement α) → List (ListElement α)
  | [] => [⟨sortKey, item⟩]
  | e :: l =>
      if sortKey < e.key then ⟨sortKey, item⟩ :: e :: l else e :: sortedInsert item sortKey l

/-- `SortedInsertInverted`: the item goes before the first element with a smaller
key. -/
def sortedInsertInverted (item : α) (sortKey : ℤ) :
    List (ListElement α) → List (ListElement α)
  | [] => [⟨sortKey, item⟩]
  | e :: l =>
      if e.key < sortKey then ⟨sortKey, item⟩ :: e :: l
      else e :: sortedInsertInverted item sortKey l

/-- `Remove`: the first element that holds the item is taken out. -/
def remove [DecidableEq α] (item : α) : List (ListElement α) → List (ListElement α)
  | [] => []
  | e :: l => if item = e.item then l else e :: remove item l

/-- `SortedPop`: the first element, if any, and the rest of the list.  The first
component is `none` exactly when the source returns `Item()` and leaves
`*keyPtr` alone. -/
def sortedPop : List (ListElement α) → Option (ListElement α) × List (ListElement α)
  | [] => (none, [])
  | e :: l => (some e, l)

theorem has_iff [DecidableEq α] {item : α} {l : List (ListElement α)} :
    has item l = true ↔ item ∈ l.map ListElement.item := by
  induction l with
  | nil => simp [has]
  | cons e l ih =>
    simp only [has, List.any_cons, Bool.or_eq_true, decide_eq_true_eq, List.map_cons,
      List.mem_cons] at ih ⊢
    rw [ih]

theorem mem_sortedInsert {item x : α} {sortKey : ℤ} {l : List (ListElement α)} :
    x ∈ (sortedInsert item sortKey l).map ListElement.item ↔
      x = item ∨ x ∈ l.map ListElement.item := by
  induction l with
  | nil => simp [sortedInsert]
  | cons e l ih =>
    unfold sortedInsert
    split
    · simp
    · rw [List.map_cons, List.mem_cons, ih, List.map_cons, List.mem_cons]
      exact or_left_comm

theorem mem_sortedInsertInverted {item x : α} {sortKey : ℤ} {l : List (ListElement α)} :
    x ∈ (sortedInsertInverted item sortKey l).map ListElement.item ↔
      x = item ∨ x ∈ l.map ListElement.item := by
  induction l with
  | nil => simp [sortedInsertInverted]
  | cons e l ih =>
    unfold sortedInsertInverted
    split
    · simp
    · rw [List.map_cons, List.mem_cons, ih, List.map_cons, List.mem_cons]
      exact or_left_comm

/-- Every item but the one removed is still there. -/
theorem mem_remove_of_ne [DecidableEq α] {item x : α} (hx : x ≠ item)
    {l : List (ListElement α)} :
    x ∈ (remove item l).map ListElement.item ↔ x ∈ l.map ListElement.item := by
  induction l with
  | nil => exact Iff.rfl
  | cons e l ih =>
    unfold remove
    split
    · rename_i he
      rw [List.map_cons, List.mem_cons, ← he]
      exact ⟨Or.inr, fun h => h.resolve_left hx⟩
    · rw [List.map_cons, List.mem_cons, ih, List.map_cons, List.mem_cons]

/-- Taking an item out and inserting it again keeps the items. -/
theorem mem_reinsertInverted [DecidableEq α] {item x : α} {sortKey : ℤ}
    {l : List (ListElement α)} (h : item ∈ l.map ListElement.item) :
    x ∈ (sortedInsertInverted item sortKey (remove item l)).map ListElement.item ↔
      x ∈ l.map ListElement.item := by
  rw [mem_sortedInsertInverted]
  by_cases hx : x = item
  · subst hx
    exact ⟨fun _ => h, fun _ => Or.inl rfl⟩
  · rw [mem_remove_of_ne hx]
    exact ⟨fun hm => hm.resolve_left hx, Or.inr⟩

/-- Every element inserted so far satisfies `p` once the new one does. -/
theorem forall_sortedInsert {p : ListElement α → Prop} {item : α} {sortKey : ℤ}
    {l : List (ListElement α)} (hnew : p ⟨sortKey, item⟩) (hl : ∀ e ∈ l, p e) :
    ∀ e ∈ sortedInsert item sortKey l, p e := by
  induction l with
  | nil =>
    intro e he
    rw [sortedInsert, List.mem_singleton] at he
    exact he ▸ hnew
  | cons a l ih =>
    obtain ⟨ha, hl⟩ := List.forall_mem_cons.mp hl
    unfold sortedInsert
    split
    · exact List.forall_mem_cons.mpr ⟨hnew, List.forall_mem_cons.mpr ⟨ha, hl⟩⟩
    · exact List.forall_mem_cons.mpr ⟨ha, ih hl⟩

/-- Inserting a key that is not in a strictly increasing list keeps it strictly
increasing. -/
theorem sortedInsert_pairwise {item : α} {sortKey : ℤ} {l : List (ListElement α)}
    (hl : l.Pairwise (fun a b => a.key < b.key)) (hnew : ∀ e ∈ l, e.key ≠ sortKey) :
    (sortedInsert item sortKey l).Pairwise (fun a b => a.key < b.key) := by
  induction l with
  | nil => exact List.pairwise_singleton _ _
  | cons a l ih =>
    obtain ⟨ha, htail⟩ := List.pairwise_cons.mp hl
    obtain ⟨hne, hnew⟩ := List.forall_mem_cons.mp hnew
    unfold sortedInsert
    split
    · rename_i hlt
      refine List.pairwise_cons.mpr ⟨?_, hl⟩
      intro e he
      rcases List.mem_cons.mp he with rfl | he
      · exact hlt
      · exact lt_trans hlt (ha e he)
    · rename_i hlt
      refine List.pairwise_cons.mpr ⟨?_, ih htail hnew⟩
      exact forall_sortedInsert (p := fun e => a.key < e.key)
        (lt_of_le_of_ne (not_lt.mp hlt) hne) ha

/-- Inserting keeps a non-decreasing list non-decreasing. -/
theorem sortedInsert_sorted {item : α} {sortKey : ℤ} {l : List (ListElement α)}
    (hl : l.Pairwise (fun a b => a.key ≤ b.key)) :
    (sortedInsert item sortKey l).Pairwise (fun a b => a.key ≤ b.key) := by
  induction l with
  | nil => exact List.pairwise_singleton _ _
  | cons a l ih =>
    obtain ⟨ha, htail⟩ := List.pairwise_cons.mp hl
    unfold sortedInsert
    split
    · rename_i hlt
      refine List.pairwise_cons.mpr ⟨?_, hl⟩
      intro e he
      rcases List.mem_cons.mp he with rfl | he
      · exact le_of_lt hlt
      · exact le_trans (le_of_lt hlt) (ha e he)
    · rename_i hlt
      refine List.pairwise_cons.mpr ⟨?_, ih htail⟩
      exact forall_sortedInsert (p := fun e => a.key ≤ e.key) (not_lt.mp hlt) ha

/-! ## The items as a collection -/

theorem sortedInsert_perm (item : α) (sortKey : ℤ) (l : List (ListElement α)) :
    (sortedInsert item sortKey l).Perm (⟨sortKey, item⟩ :: l) := by
  induction l with
  | nil => exact List.Perm.refl _
  | cons e l ih =>
    unfold sortedInsert
    split
    · exact List.Perm.refl _
    · exact (ih.cons e).trans (List.Perm.swap ..)

/-- The elements of a list inserted one after the other, with new keys. -/
theorem foldl_sortedInsert (f : ListElement α → ℤ) (l acc : List (ListElement α))
    (hacc : acc.Pairwise (fun a b => a.key ≤ b.key)) :
    (l.foldl (fun acc e => sortedInsert e.item (f e) acc) acc).Perm
        (l.map (fun e => ⟨f e, e.item⟩) ++ acc) ∧
      (l.foldl (fun acc e => sortedInsert e.item (f e) acc) acc).Pairwise
        (fun a b => a.key ≤ b.key) := by
  induction l generalizing acc with
  | nil => exact ⟨List.Perm.refl _, hacc⟩
  | cons e l ih =>
    obtain ⟨hperm, hsorted⟩ := ih _ (sortedInsert_sorted hacc)
    refine ⟨?_, hsorted⟩
    rw [List.foldl_cons, List.map_cons, List.cons_append]
    exact hperm.trans (((sortedInsert_perm ..).append_left _).trans List.perm_middle)

theorem sortedInsertInverted_perm (item : α) (sortKey : ℤ) (l : List (ListElement α)) :
    ((sortedInsertInverted item sortKey l).map ListElement.item).Perm
      (item :: l.map ListElement.item) := by
  induction l with
  | nil => exact List.Perm.refl _
  | cons e l ih =>
    unfold sortedInsertInverted
    split
    · exact List.Perm.refl _
    · exact (ih.cons e.item).trans (List.Perm.swap ..)

theorem remove_perm [DecidableEq α] {item : α} {l : List (ListElement α)}
    (h : item ∈ l.map ListElement.item) :
    (l.map ListElement.item).Perm (item :: (remove item l).map ListElement.item) := by
  induction l with
  | nil => cases h
  | cons e l ih =>
    unfold remove
    split
    · rename_i he
      rw [List.map_cons, he]
    · rename_i he
      have hmem := (List.mem_cons.mp h).resolve_left he
      exact ((ih hmem).cons e.item).trans (List.Perm.swap ..)

end LinkedList
end PaldOs
