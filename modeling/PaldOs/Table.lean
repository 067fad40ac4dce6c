import PaldOs.LinkedList
import Mathlib.Logic.Function.Basic

/-! # The index table of `lib/table.hh`

`Table<T>` hands out indices below `SIZE` and is behind file descriptors and
process ids.  The indices in use are those below `current` that are not in the
sorted list `freed`; removing the top index shrinks `current`, and a loop then
walks down past the freed indices below it, taking each off `freed`.

The loop is where the source and its purpose part: it asks `freed.Has(j)` about
the index `j` below the new top, but takes the **first** element of `freed` off
the list, which is the least freed index, and continues from there.  The two
are the same index exactly when `freed` holds nothing but `j`.  `partialMap_iff`
says that this is the only way to leave the partial map the table stands for.
-/
namespace PaldOs

/-- The state of a table.  `data` is only ever read at an index in use. -/
structure Table (T : Type) where
  data : ℤ → T
  current : ℤ
  freed : List (ListElement ℤ)

namespace Table
variable {T : Type}

/-- `Table::SIZE`. -/
def size : ℤ := 1000

/-- The constructor leaves `data` as it finds it. -/
def empty (data : ℤ → T) : Table T := ⟨data, 0, []⟩

/-- The test of `HasKey`, after its assertion. -/
def occupied (t : Table T) (i : ℤ) : Bool :=
  decide (i < t.current) && !LinkedList.has i t.freed

/-- `HasKey`; `none` is a failed assertion, here and below. -/
def hasKey (t : Table T) (i : ℤ) : Option Bool :=
  if 0 ≤ i then some (t.occupied i) else none

/-- `Get`. -/
def get [Inhabited T] (t : Table T) (i : ℤ) : Option T :=
  if 0 ≤ i then some (if t.occupied i then t.data i else default) else none

/-- `Add`: the least freed index if there is one, else the next new one, else
`-1`. -/
def add (t : Table T) (item : T) : ℤ × Table T :=
  match LinkedList.sortedPop t.freed with
  | (some e, rest) => (e.item, { t with data := Function.update t.data e.item item, freed := rest })
  | (none, _) =>
      if t.current < size then
        (t.current, { t with
          data := Function.update t.data t.current item
          current := t.current + 1 })
      else (-1, t)

/-- The loop of `Remove`, from index `j`: while `j` is not in use, `freed` must
have it, its first element is popped, and the walk goes on below the index that
`SortedPop` stored in `j`. -/
def shrink : ℤ → ℤ → List (ListElement ℤ) → Option (ℤ × List (ListElement ℤ))
  | j, current, [] => if 0 ≤ j ∧ ¬ j < current then none else some (current, [])
  | j, current, e :: freed =>
      if 0 ≤ j ∧ ¬ (j < current ∧ LinkedList.has j (e :: freed) = false) then
        if LinkedList.has j (e :: freed) then shrink (e.key - 1) (current - 1) freed else none
      else some (current, e :: freed)

/-- `Remove`: the item that was stored, or `T()`, and the table left. -/
def remove [Inhabited T] (t : Table T) (i : ℤ) : Option (T × Table T) :=
  if 0 ≤ i then
    if t.occupied i then
      if i = t.current - 1 then
        (shrink (t.current - 1 - 1) (t.current - 1) t.freed).map
          (fun r => (t.data i, { t with current := r.1, freed := r.2 }))
      else some (t.data i, { t with freed := LinkedList.sortedInsert i i t.freed })
    else some (default, t)
  else none

/-- `Update`: the item replaced and the table left. -/
def update (t : Table T) (i : ℤ) (item : T) : Option (T × Table T) :=
  if 0 ≤ i ∧ i < t.current ∧ LinkedList.has i t.freed = false then
    some (t.data i, { t with data := Function.update t.data i item })
  else none

/-! ## Sequences of operations -/

/-- A call on a table. -/
inductive Op (T : Type) where
  | add (item : T)
  | remove (i : ℤ)
  | update (i : ℤ) (item : T)
  | get (i : ℤ)
  | hasKey (i : ℤ)

/-- The table after a call, with the index returned where the call is an `Add`;
`none` if an assertion failed. -/
def step [Inhabited T] (t : Table T) : Op T → Option (ℤ × Table T)
  | .add item => some (t.add item)
  | .remove i => (t.remove i).map (fun r => (i, r.2))
  | .update i item => (t.update i item).map (fun r => (i, r.2))
  | .get i => (t.get i).map (fun _ => (i, t))
  | .hasKey i => (t.hasKey i).map (fun _ => (i, t))

/-- What the calls so far have stored: `m i = some x` when `i` was returned by an
`Add` and not removed since, and `x` is the item last stored there.  `i` is the
index the call returned or was given. -/
def record (m : ℤ → Option T) (i : ℤ) : Op T → ℤ → Option T
  | .add item => if i = -1 then m else Function.update m i (some item)
  | .remove _ => Function.update m i none
  | .update _ item => Function.update m i (some item)
  | .get _ => m
  | .hasKey _ => m

/-- The table shows the partial map `m`. -/
structure Shows [Inhabited T] (t : Table T) (m : ℤ → Option T) : Prop where
  hasKey : ∀ i, 0 ≤ i → t.hasKey i = some (m i).isSome
  get : ∀ i x, m i = some x → t.get i = some x

/-- What is asked of one call, from table `t` showing `m` to table `t'`: an `Add`
returns an index that has no key, or `-1` with every index in use, and a
`Remove` changes `HasKey` and `Get` nowhere else. -/
def CallOk [Inhabited T] (t : Table T) (m : ℤ → Option T) (i : ℤ) (t' : Table T) : Op T → Prop
  | .add _ => (i ≠ -1 → 0 ≤ i ∧ i < size ∧ m i = none) ∧
      (i = -1 → ∀ k, 0 ≤ k → k < size → (m k).isSome)
  | .remove _ => ∀ k, k ≠ i → t'.hasKey k = t.hasKey k ∧ t'.get k = t.get k
  | _ => True

/-- The table behaves as the partial map `m` along the calls `ops`, until they
end or one of them fails its assertion. -/
def PartialMap [Inhabited T] (t : Table T) (m : ℤ → Option T) : List (Op T) → Prop
  | [] => t.Shows m
  | op :: ops => t.Shows m ∧ ∀ i t', t.step op = some (i, t') →
      t.CallOk m i t' op ∧ t'.PartialMap (record m i op) ops

/-- The call does not reach the loop's defect: it does not remove the top index
while `freed` has the index below it and another one. -/
def Clear (t : Table T) : Op T → Prop
  | .remove i => t.occupied i = true → i = t.current - 1 →
      LinkedList.has (i - 1) t.freed = true → t.freed.length = 1
  | _ => True

/-- Every call of the sequence is clear where it is made. -/
def ClearRun [Inhabited T] (t : Table T) : List (Op T) → Prop
  | [] => True
  | op :: ops => t.Clear op ∧ ∀ i t', t.step op = some (i, t') → t'.ClearRun ops

/-! ## The invariant -/

/-- The invariant of a table that stands for `m`: the freed indices are listed
once, in increasing order, below the top index, and `m` is `data` on the indices
below `current` that are not freed. -/
structure Inv (t : Table T) (m : ℤ → Option T) : Prop where
  current_nonneg : 0 ≤ t.current
  current_le : t.current ≤ size
  key_eq : ∀ e ∈ t.freed, e.key = e.item
  below_top : ∀ e ∈ t.freed, 0 ≤ e.item ∧ e.item < t.current - 1
  sorted : t.freed.Pairwise (fun a b => a.key < b.key)
  stored : ∀ i, m i = if 0 ≤ i ∧ t.occupied i = true then some (t.data i) else none

theorem occupied_iff (t : Table T) (i : ℤ) :
    t.occupied i = true ↔ i < t.current ∧ i ∉ t.freed.map ListElement.item := by
  rw [occupied, Bool.and_eq_true, decide_eq_true_eq, Bool.not_eq_true', ← Bool.not_eq_true,
    LinkedList.has_iff]

theorem inv_empty (data : ℤ → T) : (empty data).Inv (fun _ => none) where
  current_nonneg := le_refl _
  current_le := by simp [empty, size]
  key_eq := by simp [empty]
  below_top := by simp [empty]
  sorted := List.Pairwise.nil
  stored := by
    intro i
    rw [if_neg]
    rintro ⟨hi, ho⟩
    exact absurd ((occupied_iff _ _).mp ho).1 (not_lt.mpr hi)

section Preservation
variable {t : Table T} {m : ℤ → Option T}

theorem Inv.occupied_of_some (h : t.Inv m) {i : ℤ} {x : T} (hm : m i = some x) :
    0 ≤ i ∧ t.occupied i = true ∧ t.data i = x := by
  have := h.stored i
  rw [hm] at this
  split at this
  · rename_i hc
    exact ⟨hc.1, hc.2, (Option.some.inj this).symm⟩
  · cases this

theorem Inv.shows [Inhabited T] (h : t.Inv m) : t.Shows m where
  hasKey i hi := by
    rw [hasKey, if_pos hi, h.stored i]
    cases ho : t.occupied i <;> simp [hi]
  get i x hm := by
    obtain ⟨hi, ho, hx⟩ := h.occupied_of_some hm
    rw [get, if_pos hi, if_pos ho, hx]

/-- The freed list's keys are its items. -/
theorem Inv.sorted_items (h : t.Inv m) :
    t.freed.Pairwise (fun a b => a.item < b.item) := by
  refine h.sorted.imp_of_mem ?_
  intro a b ha hb hab
  rw [← h.key_eq a ha, ← h.key_eq b hb]
  exact hab

/-- What `Add` does: it takes the head of `freed`, or extends `current`, or finds
the table full. -/
theorem add_cases (t : Table T) (item : T) :
    (∃ e rest, t.freed = e :: rest ∧
      t.add item = (e.item, { t with data := Function.update t.data e.item item, freed := rest })) ∨
    (t.freed = [] ∧ t.current < size ∧ t.add item = (t.current,
      { t with data := Function.update t.data t.current item, current := t.current + 1 })) ∨
    (t.freed = [] ∧ size ≤ t.current ∧ t.add item = (-1, t)) := by
  unfold add
  cases hf : t.freed with
  | cons e rest => exact Or.inl ⟨e, rest, rfl, rfl⟩
  | nil =>
    right
    by_cases hc : t.current < size
    · left
      exact ⟨rfl, hc, by simp [LinkedList.sortedPop, hc]⟩
    · right
      exact ⟨rfl, not_lt.mp hc, by simp [LinkedList.sortedPop, hc]⟩

theorem Inv.add_callOk [Inhabited T] (h : t.Inv m) (item : T) :
    t.CallOk m (t.add item).1 (t.add item).2 (.add item) := by
  have hpos := h.current_nonneg
  rcases t.add_cases item with ⟨e, rest, hf, ha⟩ | ⟨hf, hc, ha⟩ | ⟨hf, hc, ha⟩
  · have he : e ∈ t.freed := by rw [hf]; exact List.mem_cons_self
    have hb := h.below_top e he
    have hle := h.current_le
    rw [ha]
    refine ⟨fun _ => ⟨hb.1, by omega, ?_⟩, fun hm => absurd hm (by omega)⟩
    have hno : ¬ t.occupied e.item = true := by
      rw [occupied_iff]
      exact fun hx => hx.2 (List.mem_map.mpr ⟨e, he, rfl⟩)
    rw [h.stored, if_neg (fun hx => hno hx.2)]
  · rw [ha]
    refine ⟨fun _ => ⟨hpos, hc, ?_⟩, fun hm => absurd hm (by omega)⟩
    have hno : ¬ t.occupied t.current = true := by
      rw [occupied_iff]
      exact fun hx => lt_irrefl _ hx.1
    rw [h.stored, if_neg (fun hx => hno hx.2)]
  · rw [ha]
    refine ⟨fun hm => absurd rfl hm, fun _ k hk hks => ?_⟩
    have hocc : t.occupied k = true := by
      rw [occupied_iff, hf]
      exact ⟨by omega, List.not_mem_nil⟩
    rw [h.stored, if_pos ⟨hk, hocc⟩]
    rfl

/-- **`Add` keeps the invariant**, and stores the item at the index it returns. -/
theorem Inv.add (h : t.Inv m) (item : T) :
    (t.add item).2.Inv (record m (t.add item).1 (.add item)) := by
  have hpos := h.current_nonneg
  rcases t.add_cases item with ⟨e, rest, hf, ha⟩ | ⟨hf, hc, ha⟩ | ⟨hf, hc, ha⟩
  · have hsub : ∀ a ∈ rest, a ∈ t.freed := fun a ha => by rw [hf]; exact List.mem_cons_of_mem _ ha
    have he := h.below_top e (by rw [hf]; exact List.mem_cons_self)
    have hsorted := h.sorted_items
    rw [hf] at hsorted
    obtain ⟨hlt, -⟩ := List.pairwise_cons.mp hsorted
    rw [ha]
    refine ⟨hpos, h.current_le, fun a ha => h.key_eq a (hsub a ha),
      fun a ha => h.below_top a (hsub a ha), ?_, ?_⟩
    · have := h.sorted
      rw [hf] at this
      exact (List.pairwise_cons.mp this).2
    · intro i
      have hne : e.item ≠ -1 := by omega
      simp only [record, if_neg hne]
      by_cases hi : i = e.item
      · subst hi
        have hocc : (⟨Function.update t.data e.item item, t.current, rest⟩ : Table T).occupied
            e.item = true := by
          rw [occupied_iff]
          refine ⟨by simp only; omega, fun hm => ?_⟩
          obtain ⟨a, har, hae⟩ := List.mem_map.mp hm
          exact absurd (hlt a har) (by rw [hae]; exact lt_irrefl _)
        rw [Function.update_self, if_pos ⟨he.1, hocc⟩, Function.update_self]
      · rw [Function.update_of_ne hi, h.stored i]
        simp only [occupied_iff, hf, List.map_cons, List.mem_cons, hi, false_or,
          Function.update_of_ne hi]
  · rw [ha]
    refine ⟨by simp only; omega, by simp only; omega, ?_, ?_, ?_, ?_⟩
    · simp [hf]
    · simp [hf]
    · simp [hf]
    · intro i
      have hne : t.current ≠ -1 := by omega
      simp only [record, if_neg hne]
      by_cases hi : i = t.current
      · subst hi
        rw [Function.update_self, if_pos, Function.update_self]
        refine ⟨hpos, ?_⟩
        rw [occupied_iff]
        exact ⟨by simp only; omega, by simp [hf]⟩
      · rw [Function.update_of_ne hi, h.stored i]
        have : i < t.current ↔ i < t.current + 1 := by omega
        simp only [occupied_iff, hf, this, Function.update_of_ne hi]
  · rw [ha]
    simpa only [record, if_true] using h

/-- `Update` at an index in use keeps the invariant. -/
theorem Inv.update (h : t.Inv m) {i : ℤ} {item old : T} {t' : Table T}
    (hu : t.update i item = some (old, t')) : t'.Inv (record m i (.update i item)) := by
  unfold Table.update at hu
  split at hu
  · rename_i hc
    obtain ⟨-, rfl⟩ := Prod.mk.inj (Option.some.inj hu)
    refine ⟨h.current_nonneg, h.current_le, h.key_eq, h.below_top, h.sorted, fun k => ?_⟩
    have hocc : t.occupied i = true := by
      rw [occupied, decide_eq_true hc.2.1, hc.2.2]
      rfl
    by_cases hk : k = i
    · subst hk
      rw [record, Function.update_self, if_pos ⟨hc.1, hocc⟩]
      simp only [Function.update_self]
    · rw [record, Function.update_of_ne hk, h.stored k]
      simp only [occupied_iff, Function.update_of_ne hk]
  · cases hu

/-! ## Removing an index -/

/-- What the loop of `Remove` does below an invariant table's top index: nothing
if the index below is in use, and otherwise it takes the **least** freed index
and stops. -/
theorem Inv.shrink_top (h : t.Inv m) :
    shrink (t.current - 1 - 1) (t.current - 1) t.freed =
      if LinkedList.has (t.current - 1 - 1) t.freed then
        some (t.current - 1 - 1, t.freed.tail)
      else some (t.current - 1, t.freed) := by
  have hpos := h.current_nonneg
  cases hf : t.freed with
  | nil =>
    rw [shrink, if_neg (by omega)]
    rfl
  | cons e rest =>
    have he := h.below_top e (by rw [hf]; exact List.mem_cons_self)
    have hkey := h.key_eq e (by rw [hf]; exact List.mem_cons_self)
    have hsorted := h.sorted_items
    rw [hf] at hsorted
    obtain ⟨hlt, -⟩ := List.pairwise_cons.mp hsorted
    rw [shrink]
    by_cases hh : LinkedList.has (t.current - 1 - 1) (e :: rest) = true
    · -- The index popped is `e.item`, and the one below it is in use again.
      have hstop : LinkedList.has (e.key - 1) rest = false := by
        rw [← Bool.not_eq_true, LinkedList.has_iff]
        intro hm
        obtain ⟨a, har, hae⟩ := List.mem_map.mp hm
        have := hlt a har
        omega
      have hin : 0 ≤ t.current - 1 - 1 := by
        obtain ⟨a, har, hae⟩ := List.mem_map.mp (LinkedList.has_iff.mp hh)
        have := (h.below_top a (by rw [hf]; exact har)).1
        omega
      rw [if_pos ⟨hin, fun hx => by rw [hh] at hx; exact absurd hx.2 (by simp)⟩, if_pos hh,
        if_pos hh, List.tail_cons]
      cases rest with
      | nil => rw [shrink, if_neg (by omega)]
      | cons a rest =>
        rw [shrink, if_neg]
        rintro ⟨-, hx⟩
        exact hx ⟨by omega, hstop⟩
    · rw [if_neg, if_neg hh]
      rintro ⟨-, hx⟩
      exact hx ⟨by omega, by rwa [Bool.not_eq_true] at hh⟩

/-- What `Remove` does from an invariant table. -/
theorem Inv.remove_eq [Inhabited T] (h : t.Inv m) {i : ℤ} (hi : 0 ≤ i) :
    t.remove i = some (
      if t.occupied i then
        if i = t.current - 1 then
          (t.data i, if LinkedList.has (i - 1) t.freed then
              { t with current := i - 1, freed := t.freed.tail }
            else { t with current := i })
        else (t.data i, { t with freed := LinkedList.sortedInsert i i t.freed })
      else (default, t)) := by
  rw [remove, if_pos hi]
  by_cases ho : t.occupied i = true
  · rw [if_pos ho, if_pos ho]
    by_cases ht : i = t.current - 1
    · rw [if_pos ht, if_pos ht, h.shrink_top, ← ht]
      cases LinkedList.has (i - 1) t.freed <;> rfl
    · rw [if_neg ht, if_neg ht]
  · rw [if_neg ho, if_neg ho]

/-- Removing the top index while nothing is freed right below it. -/
theorem Inv.remove_top (h : t.Inv m) (hi : 0 ≤ t.current - 1)
    (hno : LinkedList.has (t.current - 1 - 1) t.freed = false) :
    ({ t with current := t.current - 1 } : Table T).Inv
      (Function.update m (t.current - 1) none) := by
  have hnot : t.current - 1 - 1 ∉ t.freed.map ListElement.item := by
    rw [← LinkedList.has_iff, hno]
    simp
  refine ⟨hi, by have := h.current_le; simp only; omega, h.key_eq, ?_, h.sorted, fun k => ?_⟩
  · intro e he
    have hb := h.below_top e he
    have hne : e.item ≠ t.current - 1 - 1 := fun hx => hnot (List.mem_map.mpr ⟨e, he, hx⟩)
    refine ⟨hb.1, ?_⟩
    simp only
    omega
  · by_cases hk : k = t.current - 1
    · rw [hk, Function.update_self, if_neg]
      rintro ⟨-, ho⟩
      exact lt_irrefl _ ((occupied_iff _ _).mp ho).1
    · rw [Function.update_of_ne hk, h.stored k]
      have : k < t.current ↔ k < t.current - 1 := by omega
      simp only [occupied_iff, this]

/-- Removing the top index while exactly the index below it is freed. -/
theorem Inv.remove_top_two (h : t.Inv m)
    (hone : t.freed.map ListElement.item = [t.current - 1 - 1]) :
    ({ t with current := t.current - 1 - 1, freed := [] } : Table T).Inv
      (Function.update m (t.current - 1) none) := by
  have hge : 0 ≤ t.current - 1 - 1 := by
    obtain ⟨e, he, hei⟩ := List.mem_map.mp (hone ▸ List.mem_singleton_self (t.current - 1 - 1))
    rw [← hei]
    exact (h.below_top e he).1
  refine ⟨hge, by have := h.current_le; simp only; omega, by simp, by simp, List.Pairwise.nil,
    fun k => ?_⟩
  by_cases hk : k = t.current - 1
  · rw [hk, Function.update_self, if_neg]
    rintro ⟨-, ho⟩
    have := ((occupied_iff _ _).mp ho).1
    simp only at this
    omega
  · rw [Function.update_of_ne hk, h.stored k]
    have : (k < t.current ∧ k ≠ t.current - 1 - 1) ↔ k < t.current - 1 - 1 := by omega
    simp only [occupied_iff, hone, List.mem_singleton, List.map_nil, List.not_mem_nil,
      not_false_eq_true, and_true, this]

/-- Removing an index below the top puts it on `freed`. -/
theorem Inv.remove_inner (h : t.Inv m) {i : ℤ} (hi : 0 ≤ i) (ho : t.occupied i = true)
    (ht : i ≠ t.current - 1) :
    ({ t with freed := LinkedList.sortedInsert i i t.freed } : Table T).Inv
      (Function.update m i none) := by
  obtain ⟨hlt, hnot⟩ := (occupied_iff _ _).mp ho
  refine ⟨h.current_nonneg, h.current_le, LinkedList.forall_sortedInsert rfl h.key_eq,
    LinkedList.forall_sortedInsert ⟨hi, by simp only; omega⟩ h.below_top,
    LinkedList.sortedInsert_pairwise h.sorted ?_, fun k => ?_⟩
  · intro e he hx
    rw [h.key_eq e he] at hx
    exact hnot (List.mem_map.mpr ⟨e, he, hx⟩)
  · by_cases hk : k = i
    · rw [hk, Function.update_self, if_neg]
      rintro ⟨-, hocc⟩
      exact ((occupied_iff _ _).mp hocc).2 (LinkedList.mem_sortedInsert.mpr (Or.inl rfl))
    · rw [Function.update_of_ne hk, h.stored k]
      simp only [occupied_iff, LinkedList.mem_sortedInsert, hk, false_or]

/-- **A clear `Remove` keeps the invariant.** -/
theorem Inv.remove [Inhabited T] (h : t.Inv m) {i : ℤ} {x : T} {t' : Table T}
    (hc : t.Clear (.remove i)) (hr : t.remove i = some (x, t')) :
    t'.Inv (record m i (.remove i)) := by
  have hi : 0 ≤ i := by
    by_contra hn
    rw [Table.remove, if_neg hn] at hr
    cases hr
  rw [h.remove_eq hi] at hr
  have hr := Option.some.inj hr
  rw [record]
  by_cases ho : t.occupied i = true
  · rw [if_pos ho] at hr
    by_cases ht : i = t.current - 1
    · rw [if_pos ht] at hr
      subst ht
      cases hh : LinkedList.has (t.current - 1 - 1) t.freed with
      | false =>
        rw [hh] at hr
        obtain ⟨-, rfl⟩ := Prod.mk.inj hr
        exact h.remove_top hi hh
      | true =>
        rw [hh] at hr
        obtain ⟨-, rfl⟩ := Prod.mk.inj hr
        obtain ⟨e, hf⟩ := List.length_eq_one_iff.mp (hc ho rfl hh)
        rw [LinkedList.has_iff, hf] at hh
        have hone : t.freed.map ListElement.item = [t.current - 1 - 1] := by
          rw [hf, List.map_singleton, ← List.mem_singleton.mp hh]
        simpa only [hf, List.tail_cons, if_true] using h.remove_top_two hone
    · rw [if_neg ht] at hr
      obtain ⟨-, rfl⟩ := Prod.mk.inj hr
      exact h.remove_inner hi ho ht
  · rw [if_neg ho] at hr
    obtain ⟨-, rfl⟩ := Prod.mk.inj hr
    have hm : m i = none := by rw [h.stored, if_neg (fun hx => ho hx.2)]
    rwa [← hm, Function.update_eq_self]

/-- A `Remove` that is not clear shows the least freed index as in use. -/
theorem Inv.not_shows_remove [Inhabited T] (h : t.Inv m) {i : ℤ} {x : T} {t' : Table T}
    (hc : ¬ t.Clear (.remove i)) (hr : t.remove i = some (x, t')) :
    ¬ t'.Shows (record m i (.remove i)) := by
  simp only [Clear, Classical.not_imp] at hc
  obtain ⟨ho, ht, hh, hlen⟩ := hc
  have hmem := LinkedList.has_iff.mp hh
  have hi : 0 ≤ i := by
    obtain ⟨e, he, hei⟩ := List.mem_map.mp hmem
    have := (h.below_top e he).1
    omega
  rw [h.remove_eq hi, if_pos ho, if_pos ht, if_pos hh] at hr
  obtain ⟨-, rfl⟩ := Prod.mk.inj (Option.some.inj hr)
  cases hf : t.freed with
  | nil => rw [hf] at hmem; cases hmem
  | cons e rest =>
    have he := h.below_top e (by rw [hf]; exact List.mem_cons_self)
    have hsorted := h.sorted_items
    rw [hf] at hsorted
    obtain ⟨hlt, -⟩ := List.pairwise_cons.mp hsorted
    have hrest : rest ≠ [] := by
      rintro rfl
      exact hlen (by rw [hf]; rfl)
    obtain ⟨a, ha⟩ := List.exists_mem_of_ne_nil rest hrest
    have hae := hlt a ha
    have hat := (h.below_top a (by rw [hf]; exact List.mem_cons_of_mem _ ha)).2
    -- `e.item` was freed, and now is below `current` and off the list.
    have hnow : (⟨t.data, i - 1, (e :: rest).tail⟩ : Table T).occupied e.item = true := by
      rw [occupied_iff]
      refine ⟨by simp only; omega, fun hm => ?_⟩
      obtain ⟨b, hb, hbe⟩ := List.mem_map.mp hm
      exact absurd (hlt b hb) (by rw [hbe]; exact lt_irrefl _)
    have hwas : m e.item = none := by
      rw [h.stored, if_neg]
      rintro ⟨-, hx⟩
      refine ((occupied_iff _ _).mp hx).2 ?_
      rw [hf]
      exact List.mem_cons_self
    intro hs
    have := hs.hasKey e.item he.1
    rw [record, Function.update_of_ne (by omega), hwas, hasKey, if_pos he.1, hnow] at this
    cases this

/-- **A clear call keeps the invariant.** -/
theorem Inv.step [Inhabited T] (h : t.Inv m) {op : Op T} {i : ℤ} {t' : Table T}
    (hc : t.Clear op) (hs : t.step op = some (i, t')) : t'.Inv (record m i op) := by
  cases op with
  | add item =>
    obtain ⟨rfl, rfl⟩ := Prod.mk.inj (Option.some.inj hs)
    exact h.add item
  | remove k =>
    obtain ⟨⟨x, u⟩, hr, he⟩ := Option.map_eq_some_iff.mp hs
    obtain ⟨rfl, rfl⟩ := Prod.mk.inj he
    exact h.remove hc hr
  | update k item =>
    obtain ⟨⟨x, u⟩, hr, he⟩ := Option.map_eq_some_iff.mp hs
    obtain ⟨rfl, rfl⟩ := Prod.mk.inj he
    exact h.update hr
  | get k | hasKey k =>
    obtain ⟨x, -, he⟩ := Option.map_eq_some_iff.mp hs
    obtain ⟨-, rfl⟩ := Prod.mk.inj he
    exact h

/-- Two tables that show maps agreeing at an index agree there. -/
theorem Shows.frame [Inhabited T] {t' : Table T} {m' : ℤ → Option T} (h : t.Shows m)
    (h' : t'.Shows m') {k : ℤ} (hk : m' k = m k) :
    t'.hasKey k = t.hasKey k ∧ t'.get k = t.get k := by
  by_cases hpos : 0 ≤ k
  · have hkey : t'.hasKey k = t.hasKey k := by rw [h.hasKey k hpos, h'.hasKey k hpos, hk]
    refine ⟨hkey, ?_⟩
    cases hm : m k with
    | some x => rw [h.get k x hm, h'.get k x (hk.trans hm)]
    | none =>
      have h1 := h.hasKey k hpos
      rw [hm, Table.hasKey, if_pos hpos] at h1
      rw [Table.hasKey, Table.hasKey, if_pos hpos, if_pos hpos] at hkey
      rw [Table.get, Table.get, if_pos hpos, if_pos hpos, Option.some.inj hkey,
        Option.some.inj h1]
      rfl
  · simp only [Table.hasKey, Table.get, if_neg hpos, and_self]

/-- What is asked of one call holds of every clear call. -/
theorem Inv.callOk [Inhabited T] (h : t.Inv m) {op : Op T} {i : ℤ} {t' : Table T}
    (hc : t.Clear op) (hs : t.step op = some (i, t')) : t.CallOk m i t' op := by
  cases op with
  | add item =>
    obtain ⟨rfl, rfl⟩ := Prod.mk.inj (Option.some.inj hs)
    exact h.add_callOk item
  | remove k =>
    have hinv := (h.step hc hs).shows
    intro k' hk'
    exact h.shows.frame hinv (by rw [record, Function.update_of_ne hk'])
  | update k item => trivial
  | get k => trivial
  | hasKey k => trivial

/-- From an invariant table, the calls behave as a partial map exactly when each
of them is clear. -/
theorem Inv.partialMap_iff [Inhabited T] (h : t.Inv m) (ops : List (Op T)) :
    t.PartialMap m ops ↔ t.ClearRun ops := by
  induction ops generalizing t m with
  | nil => exact ⟨fun _ => trivial, fun _ => h.shows⟩
  | cons op ops ih =>
    constructor
    · rintro ⟨-, hnext⟩
      have hc : t.Clear op := by
        by_contra hc
        cases op with
        | remove i =>
          cases hr : t.remove i with
          | none =>
            refine hc fun _ _ hh => ?_
            obtain ⟨e, he, hei⟩ := List.mem_map.mp (LinkedList.has_iff.mp hh)
            have hi : 0 ≤ i := by
              have := (h.below_top e he).1
              omega
            rw [h.remove_eq hi] at hr
            cases hr
          | some r =>
            have hs : t.step (.remove i) = some (i, r.2) := by rw [Table.step, hr]; rfl
            refine h.not_shows_remove hc hr ?_
            have := (hnext i r.2 hs).2
            cases ops with
            | nil => exact this
            | cons op ops => exact this.1
        | _ => exact hc trivial
      exact ⟨hc, fun i t' hs => (ih (h.step hc hs)).mp (hnext i t' hs).2⟩
    · rintro ⟨hc, hnext⟩
      exact ⟨h.shows, fun i t' hs =>
        ⟨h.callOk hc hs, (ih (h.step hc hs)).mpr (hnext i t' hs)⟩⟩

end Preservation

/-! ## From an empty table -/

/-- **The table is a partial map with fresh keys exactly on clear runs**: along
any calls on a new table, `HasKey`, `Get`, the index `Add` returns and the frame
of `Remove` are those of a partial map if and only if no call removes the top
index while `freed` has the index below it and another one. -/
theorem empty_partialMap_iff [Inhabited T] (data : ℤ → T) (ops : List (Op T)) :
    (empty data).PartialMap (fun _ => none) ops ↔ (empty data).ClearRun ops :=
  (inv_empty data).partialMap_iff ops

/-- Four `Add`s, then `Remove` of indices `0`, `2` and `3`: the last one pops `0`
off `freed` in place of `2`, and index `0` shows as in use again. -/
def strandedOps : List (Op Unit) :=
  [.add (), .add (), .add (), .add (), .remove 0, .remove 2, .remove 3]

theorem strandedOps_not_partialMap :
    ¬ (empty (fun _ => ())).PartialMap (fun _ => none) strandedOps := by
  intro h
  have h1 := (h.2 _ _ rfl).2
  have h2 := (h1.2 _ _ rfl).2
  have h3 := (h2.2 _ _ rfl).2
  have h4 := (h3.2 _ _ rfl).2
  have h5 := (h4.2 _ _ rfl).2
  have h6 := (h5.2 _ _ rfl).2
  have h7 := (h6.2 _ _ rfl).2
  exact absurd (h7.hasKey 0 (by decide)) (by decide)

end Table
end PaldOs
