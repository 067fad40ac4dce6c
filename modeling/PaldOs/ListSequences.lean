import PaldOs.ListNodes

/-! # A list and the sequence it stands for

Any number of calls of `Append`, `Prepend`, `Pop`, `SortedPop`, `Remove`, `SortedInsert` and
`SortedInsertInverted` on a new `List` come back, and leave the nodes of the sequence that the
calls of `LinkedList` compute, with `first` and `last` at its ends (`list_refines_sequence`).

`SortedInsert` is `SortedInsertInverted` with the keys negated (`sortedInsert_negate`), and nothing
else in a list looks at a key; so one of the two loops is followed through the pointers, in
`ListNodes`, and not both.

New nodes get new addresses, counted from 0.  The address of a node is therefore the number of the
insertion that made it, and of two elements the one at the lower address was put in first.
-/
namespace PaldOs

/-! ## Negated keys -/

section Negate
variable {α : Type}

def ListElement.negate (e : ListElement α) : ListElement α := { e with key := -e.key }

def ListNode.negate (node : ListNode α) : ListNode α := { node with key := -node.key }

/-- A node of the list, with its key negated. -/
def negateCell (c : ℕ × ListElement α) : ℕ × ListElement α := (c.1, c.2.negate)

@[simp] theorem negateCell_negateCell (c : ℕ × ListElement α) : negateCell (negateCell c) = c := by
  simp [negateCell, ListElement.negate]

@[simp] theorem map_negateCell_fst (cells : List (ℕ × ListElement α)) :
    (cells.map negateCell).map Prod.fst = cells.map Prod.fst := by
  rw [List.map_map]
  rfl

theorem map_negateCell_twice (cells : List (ℕ × ListElement α)) :
    (cells.map negateCell).map negateCell = cells := by
  rw [List.map_map]
  exact (List.map_congr_left fun c _ => negateCell_negateCell c).trans (List.map_id cells)

theorem Segment.negate {heap : ℕ → Option (ListNode α)} {cells : List (ℕ × ListElement α)}
    {p q : Option ℕ} (h : Segment heap p cells q) :
    Segment (fun a => (heap a).map ListNode.negate) p (cells.map negateCell) q := by
  induction cells generalizing p with
  | nil => exact h
  | cons c cells ih =>
    obtain ⟨hp, next, hc, h⟩ := h
    refine ⟨hp, next, ?_, ih h⟩
    show (heap c.1).map ListNode.negate = _
    rw [hc]
    rfl

end Negate

namespace ListObject
variable {α : Type} {s : ListObject α} {cells : List (ℕ × ListElement α)}

/-- The same list with every key negated. -/
def negate (s : ListObject α) : ListObject α :=
  { s with heap := fun a => (s.heap a).map ListNode.negate }

@[simp] theorem negate_negate (s : ListObject α) : s.negate.negate = s := by
  have hheap : (fun a => ((s.heap a).map ListNode.negate).map ListNode.negate) = s.heap := by
    funext a
    cases s.heap a <;> simp [ListNode.negate]
  show ({ s with heap := fun a => ((s.heap a).map ListNode.negate).map ListNode.negate } :
    ListObject α) = s
  rw [hheap]

theorem Shape.negate (h : s.Shape cells) : s.negate.Shape (cells.map negateCell) where
  segment := h.segment.negate
  nodup := by
    rw [map_negateCell_fst]
    exact h.nodup
  last := by
    rw [map_negateCell_fst]
    exact h.last
  below := by
    rw [map_negateCell_fst]
    exact h.below

theorem alloc_negate (s : ListObject α) (item : α) (sortKey : ℤ) :
    s.negate.alloc item (-sortKey) =
      ((s.alloc item sortKey).1, (s.alloc item sortKey).2.negate) := by
  have hheap : Function.update s.negate.heap s.nextAddress (some ⟨none, -sortKey, item⟩) =
      fun a => (Function.update s.heap s.nextAddress (some ⟨none, sortKey, item⟩) a).map
        ListNode.negate := by
    funext a
    by_cases ha : a = s.nextAddress
    · subst ha
      rw [Function.update_self, Function.update_self]
      rfl
    · rw [Function.update_of_ne ha, Function.update_of_ne ha]
      rfl
  rw [alloc, show s.negate.nextAddress = s.nextAddress from rfl, hheap]
  rfl

theorem setNext_negate (s : ListObject α) (a : ℕ) (next : Option ℕ) :
    s.negate.setNext a next = (s.setNext a next).map negate := by
  cases ha : s.heap a with
  | none =>
    have ha' : s.negate.heap a = none := by
      show (s.heap a).map _ = _
      rw [ha]
      rfl
    rw [setNext, setNext, ha, ha']
    rfl
  | some node =>
    have ha' : s.negate.heap a = some node.negate := by
      show (s.heap a).map _ = _
      rw [ha]
      rfl
    have hheap : Function.update s.negate.heap a (some { node.negate with next := next }) =
        fun b => (Function.update s.heap a (some { node with next := next }) b).map
          ListNode.negate := by
      funext b
      by_cases hb : b = a
      · subst hb
        rw [Function.update_self, Function.update_self]
        rfl
      · rw [Function.update_of_ne hb, Function.update_of_ne hb]
        rfl
    rw [setNext_eq ha, setNext_eq ha', hheap]
    rfl

/-! ## The remaining operations -/

/-- `Append`. -/
def append (s : ListObject α) (item : α) : Option (ListObject α) :=
  let (element, s) := s.alloc item 0
  match s.first with
  | none => some { s with first := some element, last := some element }
  | some _ => do
      let last ← s.last
      let s ← s.setNext last (some element)
      return { s with last := some element }

/-- `Prepend`. -/
def prepend (s : ListObject α) (item : α) : Option (ListObject α) :=
  let (element, s) := s.alloc item 0
  match s.first with
  | none => some { s with first := some element, last := some element }
  | some first => do
      let s ← s.setNext element (some first)
      return { s with first := some element }

/-- `Pop`: `SortedPop` with a null pointer for the key. -/
def pop (s : ListObject α) : Option (Option α × ListObject α) := do
  let (element, s) ← s.sortedPop
  return (element.map ListElement.item, s)

/-- The loop of `SortedInsert` from node `ptr` on, at most `n` nodes. -/
def insertAhead (s : ListObject α) (element : ℕ) (sortKey : ℤ) :
    ℕ → ℕ → Option (ListObject α)
  | 0, _ => none
  | n + 1, ptr => do
      let node ← s.heap ptr
      match node.next with
      | none =>
          let last ← s.last
          let s ← s.setNext last (some element)
          return { s with last := some element }
      | some next =>
          let nextNode ← s.heap next
          if sortKey < nextNode.key then
            let s ← s.setNext element (some next)
            s.setNext ptr (some element)
          else insertAhead s element sortKey n next

/-- `SortedInsert`. -/
def sortedInsert (s : ListObject α) (item : α) (sortKey : ℤ) : Option (ListObject α) :=
  let (element, s) := s.alloc item sortKey
  match s.first with
  | none => some { s with first := some element, last := some element }
  | some first => do
      let node ← s.heap first
      if sortKey < node.key then
        let s ← s.setNext element (some first)
        return { s with first := some element }
      else s.insertAhead element sortKey s.nextAddress first

/-- The two loops do the same with opposite keys. -/
theorem insertAhead_negate (s : ListObject α) (x : ℕ) (sortKey : ℤ) (n a : ℕ) :
    s.negate.insertBehind x (-sortKey) n a = (s.insertAhead x sortKey n a).map negate := by
  induction n generalizing a with
  | zero => rfl
  | succ n ih =>
    have hheap : ∀ b, s.negate.heap b = (s.heap b).map ListNode.negate := fun b => rfl
    rw [insertBehind, insertAhead, hheap]
    cases s.heap a with
    | none => rfl
    | some node =>
      rw [Option.map_some, Option.bind_eq_bind, Option.bind_some, Option.bind_eq_bind,
        Option.bind_some, show node.negate.next = node.next from rfl]
      cases node.next with
      | none =>
        dsimp only
        rw [show s.negate.last = s.last from rfl]
        cases s.last with
        | none => rfl
        | some last =>
          rw [Option.bind_some, Option.bind_some, setNext_negate]
          cases s.setNext last (some x) with
          | none => rfl
          | some s' => rfl
      | some next =>
        dsimp only
        rw [hheap]
        cases s.heap next with
        | none => rfl
        | some nextNode =>
          rw [Option.map_some, Option.bind_some, Option.bind_some,
            show nextNode.negate.key = -nextNode.key from rfl]
          by_cases hlt : sortKey < nextNode.key
          · rw [if_pos (Int.neg_lt_neg_iff.mpr hlt), if_pos hlt, setNext_negate]
            cases s.setNext x (some next) with
            | none => rfl
            | some s' => exact setNext_negate s' a (some x)
          · rw [if_neg fun h => hlt (Int.neg_lt_neg_iff.mp h), if_neg hlt]
            exact ih next

/-- **`SortedInsert` is `SortedInsertInverted` with the keys negated.** -/
theorem sortedInsert_negate (s : ListObject α) (item : α) (sortKey : ℤ) :
    s.negate.sortedInsertInverted item (-sortKey) =
      (s.sortedInsert item sortKey).map negate := by
  rw [sortedInsertInverted, sortedInsert, alloc_negate]
  obtain ⟨element, t⟩ := s.alloc item sortKey
  dsimp only
  rw [show t.negate.first = t.first from rfl]
  cases t.first with
  | none => rfl
  | some first =>
    dsimp only
    rw [show t.negate.heap first = (t.heap first).map ListNode.negate from rfl]
    cases t.heap first with
    | none => rfl
    | some node =>
      rw [Option.map_some, Option.bind_eq_bind, Option.bind_some, Option.bind_eq_bind,
        Option.bind_some, show node.negate.key = -node.key from rfl]
      by_cases hlt : sortKey < node.key
      · rw [if_pos (Int.neg_lt_neg_iff.mpr hlt), if_pos hlt, setNext_negate]
        cases t.setNext element (some first) with
        | none => rfl
        | some t' => rfl
      · rw [if_neg fun h => hlt (Int.neg_lt_neg_iff.mp h), if_neg hlt]
        exact insertAhead_negate t element sortKey t.nextAddress first

/-! ## What each operation does to the nodes -/

/-- The nodes after `SortedInsert`. -/
def insertCellAhead (c : ℕ × ListElement α) (cells : List (ℕ × ListElement α)) :
    List (ℕ × ListElement α) :=
  (insertCell (negateCell c) (cells.map negateCell)).map negateCell

theorem insertCellAhead_snd (c : ℕ × ListElement α) (cells : List (ℕ × ListElement α)) :
    (insertCellAhead c cells).map Prod.snd =
      LinkedList.sortedInsert c.2.item c.2.key (cells.map Prod.snd) := by
  induction cells with
  | nil =>
    show [(negateCell (negateCell c)).2] = _
    rw [negateCell_negateCell]
    rfl
  | cons d cells ih =>
    have hkey : (negateCell d).2.key < (negateCell c).2.key ↔ c.2.key < d.2.key :=
      Int.neg_lt_neg_iff
    rw [insertCellAhead, List.map_cons, insertCell, List.map_cons, LinkedList.sortedInsert]
    by_cases hlt : c.2.key < d.2.key
    · rw [if_pos (hkey.mpr hlt), if_pos hlt]
      show ((negateCell c :: (d :: cells).map negateCell).map negateCell).map Prod.snd = _
      rw [List.map_cons, map_negateCell_twice, negateCell_negateCell]
      rfl
    · rw [if_neg fun h => hlt (hkey.mp h), if_neg hlt, List.map_cons, List.map_cons,
        negateCell_negateCell, ← ih]
      rfl

theorem insertCellAhead_perm (c : ℕ × ListElement α) (cells : List (ℕ × ListElement α)) :
    (insertCellAhead c cells).Perm (c :: cells) := by
  have hperm := (insertCell_perm (negateCell c) (cells.map negateCell)).map negateCell
  rwa [List.map_cons, negateCell_negateCell, map_negateCell_twice] at hperm

theorem Shape.sortedInsert (h : s.Shape cells) (item : α) (sortKey : ℤ) :
    ∃ s', s.sortedInsert item sortKey = some s' ∧
      s'.Shape (insertCellAhead (s.nextAddress, ⟨sortKey, item⟩) cells) ∧
      s'.nextAddress = s.nextAddress + 1 := by
  obtain ⟨t, ht, hshape, haddr⟩ := h.negate.sortedInsertInverted item (-sortKey)
  rw [sortedInsert_negate, Option.map_eq_some_iff] at ht
  obtain ⟨s', hs', rfl⟩ := ht
  have hshape' := hshape.negate
  rw [negate_negate] at hshape'
  exact ⟨s', hs', hshape', haddr⟩

theorem Shape.append (h : s.Shape cells) (item : α) :
    ∃ s', s.append item = some s' ∧ s'.Shape (cells ++ [(s.nextAddress, ⟨0, item⟩)]) ∧
      s'.nextAddress = s.nextAddress + 1 := by
  obtain ⟨hseg, hnodup, hlast, hbelow⟩ := h
  set x := s.nextAddress with hx
  have hnot : x ∉ cells.map Prod.fst := fun hmem => absurd (hbelow x hmem) (lt_irrefl _)
  have hfst : (cells ++ [(x, (⟨0, item⟩ : ListElement α))]).map Prod.fst =
      cells.map Prod.fst ++ [x] := by
    rw [List.map_append, List.map_singleton]
  have hnodup' : (cells.map Prod.fst ++ [x]).Nodup :=
    List.perm_append_singleton .. |>.nodup_iff.mpr (List.nodup_cons.mpr ⟨hnot, hnodup⟩)
  have hbelow' : ∀ a ∈ cells.map Prod.fst ++ [x], a < x + 1 := by
    intro a ha
    rcases List.mem_append.mp ha with ha | ha
    · exact Nat.lt_succ_of_lt (hbelow a ha)
    · rw [List.mem_singleton.mp ha]
      exact Nat.lt_succ_self x
  set heap₁ := Function.update s.heap x (some ⟨none, 0, item⟩) with hheap₁
  have hnew : heap₁ x = some ⟨none, 0, item⟩ := Function.update_self ..
  rcases List.eq_nil_or_concat cells with rfl | ⟨init, ⟨b, e⟩, rfl⟩
  · have hfirst : s.first = none := hseg
    refine ⟨{ s with heap := heap₁, nextAddress := x + 1, first := some x, last := some x }, ?_,
      ⟨⟨rfl, none, hnew, rfl⟩, hnodup', rfl, hbelow'⟩, rfl⟩
    rw [ListObject.append, alloc, hfirst]
  · rw [List.concat_eq_append] at *
    have hlast' : s.last = some b := by
      rw [hlast, List.map_append]
      exact List.getLast?_concat ..
    obtain ⟨r, -, -, next, hb, -⟩ := segment_append.mp hseg
    have hbx : b ≠ x := by
      rintro rfl
      exact hnot (List.mem_map.mpr ⟨_, List.mem_append_right _ List.mem_cons_self, rfl⟩)
    have hb₁ : heap₁ b = some ⟨next, e.key, e.item⟩ := (Function.update_of_ne hbx ..).trans hb
    obtain ⟨first, hfirst⟩ : ∃ first, s.first = some first := by
      cases init with
      | nil => exact ⟨b, hseg.1⟩
      | cons c init => exact ⟨c.1, hseg.1⟩
    have hbinit : b ∉ init.map Prod.fst := by
      rw [List.map_append, List.map_singleton, List.nodup_append] at hnodup
      intro hmem
      exact hnodup.2.2 b hmem b List.mem_cons_self rfl
    refine ⟨{ s with
      heap := Function.update heap₁ b (some ⟨some x, e.key, e.item⟩)
      nextAddress := x + 1, last := some x }, ?_, ⟨?_, ?_, ?_, ?_⟩, rfl⟩
    · have hset := setNext_eq (s := { s with heap := heap₁, nextAddress := x + 1 }) hb₁ (some x)
      rw [ListObject.append, alloc]
      dsimp only
      rw [hfirst, hlast'] at hset ⊢
      dsimp only
      rw [Option.bind_eq_bind, Option.bind_some, hset]
      rfl
    · refine segment_append.mpr ⟨some x, (hseg.update hnot _).relink hbinit (some x), rfl, none, ?_,
        rfl⟩
      exact (Function.update_of_ne (Ne.symm hbx) ..).trans hnew
    · rwa [hfst]
    · rw [hfst]
      exact (List.getLast?_concat ..).symm
    · rwa [hfst]

theorem Shape.prepend (h : s.Shape cells) (item : α) :
    ∃ s', s.prepend item = some s' ∧ s'.Shape ((s.nextAddress, ⟨0, item⟩) :: cells) ∧
      s'.nextAddress = s.nextAddress + 1 := by
  obtain ⟨hseg, hnodup, hlast, hbelow⟩ := h
  set x := s.nextAddress with hx
  have hnot : x ∉ cells.map Prod.fst := fun hmem => absurd (hbelow x hmem) (lt_irrefl _)
  have hbelow' : ∀ a ∈ x :: cells.map Prod.fst, a < x + 1 := by
    intro a ha
    rcases List.mem_cons.mp ha with rfl | ha
    · exact Nat.lt_succ_self _
    · exact Nat.lt_succ_of_lt (hbelow a ha)
  set heap₁ := Function.update s.heap x (some ⟨none, 0, item⟩) with hheap₁
  have hnew : heap₁ x = some ⟨none, 0, item⟩ := Function.update_self ..
  cases cells with
  | nil =>
    have hfirst : s.first = none := hseg
    refine ⟨{ s with heap := heap₁, nextAddress := x + 1, first := some x, last := some x }, ?_,
      ⟨⟨rfl, none, hnew, rfl⟩, List.pairwise_singleton _ _, rfl, hbelow'⟩, rfl⟩
    rw [ListObject.prepend, alloc, hfirst]
  | cons c cells =>
    have hfirst : s.first = some c.1 := hseg.1
    refine ⟨{ s with
      heap := Function.update heap₁ x (some ⟨some c.1, 0, item⟩)
      nextAddress := x + 1, first := some x }, ?_,
      ⟨⟨rfl, some c.1, Function.update_self .., ?_⟩, List.nodup_cons.mpr ⟨hnot, hnodup⟩, ?_,
        hbelow'⟩, rfl⟩
    · have hset := setNext_eq (s := { s with heap := heap₁, nextAddress := x + 1 }) hnew (some c.1)
      rw [ListObject.prepend, alloc]
      dsimp only
      rw [hfirst] at hset ⊢
      dsimp only
      rw [hset]
      rfl
    · rw [hfirst] at hseg
      exact (hseg.update hnot _).update hnot _
    · show s.last = _
      rw [hlast, List.map_cons, List.map_cons, List.map_cons, List.getLast?_cons_cons]

end ListObject

/-! ## Runs of operations -/

/-- A call of an operation of a list. -/
inductive ListOp (α : Type) where
  | append (item : α)
  | prepend (item : α)
  | pop
  | sortedPop
  | remove (item : α)
  | sortedInsert (item : α) (sortKey : ℤ)
  | sortedInsertInverted (item : α) (sortKey : ℤ)

/-- The item that a call returns, and the key it stores at `keyPtr`. -/
structure Popped (α : Type) where
  item : Option α
  key : Option ℤ

namespace ListOp
variable {α : Type}

/-- The element that a call puts into the list. -/
def inserted : ListOp α → List (ListElement α)
  | append item | prepend item => [⟨0, item⟩]
  | sortedInsert item sortKey | sortedInsertInverted item sortKey => [⟨sortKey, item⟩]
  | pop | sortedPop | remove _ => []

/-- The operations of a list that is kept in increasing order. -/
def Increasing : ListOp α → Prop
  | sortedInsert _ _ | pop | sortedPop | remove _ => True
  | append _ | prepend _ | sortedInsertInverted _ _ => False

/-- The operations of a list that is kept in decreasing order. -/
def Decreasing : ListOp α → Prop
  | sortedInsertInverted _ _ | pop | sortedPop | remove _ => True
  | append _ | prepend _ | sortedInsert _ _ => False

end ListOp

section Calls
variable {α : Type} [DecidableEq α]

/-- **An operation on the sequence.** -/
def LinkedList.apply : ListOp α → List (ListElement α) → Popped α × List (ListElement α)
  | .append item, l => (⟨none, none⟩, append item l)
  | .prepend item, l => (⟨none, none⟩, prepend item l)
  | .pop, l => (⟨(sortedPop l).1.map ListElement.item, none⟩, (sortedPop l).2)
  | .sortedPop, l =>
      (⟨(sortedPop l).1.map ListElement.item, (sortedPop l).1.map ListElement.key⟩,
        (sortedPop l).2)
  | .remove item, l => (⟨none, none⟩, remove item l)
  | .sortedInsert item sortKey, l => (⟨none, none⟩, sortedInsert item sortKey l)
  | .sortedInsertInverted item sortKey, l => (⟨none, none⟩, sortedInsertInverted item sortKey l)

/-- Operations one after the other: what they return, and the sequence in the end. -/
def LinkedList.applyAll :
    List (ListOp α) → List (ListElement α) → List (Popped α) × List (ListElement α)
  | [], l => ([], l)
  | op :: ops, l =>
      let (popped, l) := apply op l
      let (rest, l) := applyAll ops l
      (popped :: rest, l)

namespace ListObject

/-- An operation on the nodes. -/
def perform (s : ListObject α) : ListOp α → Option (Popped α × ListObject α)
  | .append item => (s.append item).map (⟨none, none⟩, ·)
  | .prepend item => (s.prepend item).map (⟨none, none⟩, ·)
  | .pop => s.pop.map fun r => (⟨r.1, none⟩, r.2)
  | .sortedPop =>
      s.sortedPop.map fun r => (⟨r.1.map ListElement.item, r.1.map ListElement.key⟩, r.2)
  | .remove item => (s.remove item).map (⟨none, none⟩, ·)
  | .sortedInsert item sortKey => (s.sortedInsert item sortKey).map (⟨none, none⟩, ·)
  | .sortedInsertInverted item sortKey =>
      (s.sortedInsertInverted item sortKey).map (⟨none, none⟩, ·)

/-- Operations one after the other. -/
def performAll (s : ListObject α) : List (ListOp α) → Option (List (Popped α) × ListObject α)
  | [] => some ([], s)
  | op :: ops => do
      let (popped, s) ← s.perform op
      let (rest, s) ← s.performAll ops
      return (popped :: rest, s)

/-- The nodes after an operation, if a new one gets the address `x`. -/
def nextCells (x : ℕ) : ListOp α → List (ℕ × ListElement α) → List (ℕ × ListElement α)
  | .append item, cells => cells ++ [(x, ⟨0, item⟩)]
  | .prepend item, cells => (x, ⟨0, item⟩) :: cells
  | .pop, cells | .sortedPop, cells => cells.tail
  | .remove item, cells => removeCell item cells
  | .sortedInsert item sortKey, cells => insertCellAhead (x, ⟨sortKey, item⟩) cells
  | .sortedInsertInverted item sortKey, cells => insertCell (x, ⟨sortKey, item⟩) cells

theorem removeCell_sublist (item : α) (cells : List (ℕ × ListElement α)) :
    (removeCell item cells).Sublist cells := by
  induction cells with
  | nil => exact List.Sublist.refl _
  | cons d cells ih =>
    rw [removeCell]
    split
    · exact List.sublist_cons_self ..
    · exact ih.cons_cons d

theorem nextCells_snd (x : ℕ) (op : ListOp α) (cells : List (ℕ × ListElement α)) :
    (nextCells x op cells).map Prod.snd = (LinkedList.apply op (cells.map Prod.snd)).2 := by
  cases op with
  | append item => exact List.map_append
  | prepend item => rfl
  | pop => cases cells <;> rfl
  | sortedPop => cases cells <;> rfl
  | remove item => exact removeCell_snd item cells
  | sortedInsert item sortKey => exact insertCellAhead_snd ..
  | sortedInsertInverted item sortKey => exact insertCell_snd ..

/-- A node is there already, or it is that of the element put in. -/
theorem mem_nextCells {x : ℕ} {op : ListOp α} {cells : List (ℕ × ListElement α)}
    {c : ℕ × ListElement α} (hc : c ∈ nextCells x op cells) :
    c ∈ cells ∨ c.1 = x ∧ op.inserted = [c.2] := by
  cases op with
  | append item =>
    apply (List.mem_append.mp hc).imp_right
    intro hc
    rw [List.mem_singleton.mp hc]
    exact ⟨rfl, rfl⟩
  | prepend item =>
    apply (List.mem_cons.mp hc).symm.imp_right
    rintro rfl
    exact ⟨rfl, rfl⟩
  | pop => exact Or.inl (List.mem_of_mem_tail hc)
  | sortedPop => exact Or.inl (List.mem_of_mem_tail hc)
  | remove item => exact Or.inl ((removeCell_sublist item cells).subset hc)
  | sortedInsert item sortKey =>
    apply (List.mem_cons.mp ((insertCellAhead_perm ..).mem_iff.mp hc)).symm.imp_right
    rintro rfl
    exact ⟨rfl, rfl⟩
  | sortedInsertInverted item sortKey =>
    apply (List.mem_cons.mp ((insertCell_perm ..).mem_iff.mp hc)).symm.imp_right
    rintro rfl
    exact ⟨rfl, rfl⟩

/-- **A call comes back**, and does to the nodes what it is to do. -/
theorem Shape.perform {s : ListObject α} {cells : List (ℕ × ListElement α)} (h : s.Shape cells)
    (op : ListOp α) : ∃ s', s.perform op =
        some ((LinkedList.apply op (cells.map Prod.snd)).1, s') ∧
      s'.Shape (nextCells s.nextAddress op cells) ∧
      s'.nextAddress = s.nextAddress + op.inserted.length := by
  have hfirst : (LinkedList.sortedPop (cells.map Prod.snd)).1 = cells.head?.map Prod.snd := by
    cases cells <;> rfl
  cases op with
  | append item =>
    obtain ⟨s', hs', hshape⟩ := h.append item
    exact ⟨s', by rw [ListObject.perform, hs']; rfl, hshape⟩
  | prepend item =>
    obtain ⟨s', hs', hshape⟩ := h.prepend item
    exact ⟨s', by rw [ListObject.perform, hs']; rfl, hshape⟩
  | pop =>
    obtain ⟨s', hs', hshape⟩ := h.sortedPop
    refine ⟨s', ?_, hshape⟩
    rw [ListObject.perform, ListObject.pop, hs', LinkedList.apply, hfirst]
    rfl
  | sortedPop =>
    obtain ⟨s', hs', hshape⟩ := h.sortedPop
    exact ⟨s', by rw [ListObject.perform, hs', LinkedList.apply, hfirst]; rfl, hshape⟩
  | remove item =>
    obtain ⟨s', hs', hshape⟩ := h.remove item
    exact ⟨s', by rw [ListObject.perform, hs']; rfl, hshape⟩
  | sortedInsert item sortKey =>
    obtain ⟨s', hs', hshape⟩ := h.sortedInsert item sortKey
    exact ⟨s', by rw [ListObject.perform, hs']; rfl, hshape⟩
  | sortedInsertInverted item sortKey =>
    obtain ⟨s', hs', hshape⟩ := h.sortedInsertInverted item sortKey
    exact ⟨s', by rw [ListObject.perform, hs']; rfl, hshape⟩

/-! ## Keys in order -/

/-- `c` stands before `d` by its key, or by the number of its insertion. -/
def Before (lt : ℤ → ℤ → Prop) (c d : ℕ × ListElement α) : Prop :=
  lt c.2.key d.2.key ∨ c.2.key = d.2.key ∧ c.1 < d.1

omit [DecidableEq α] in
theorem before_negateCell {c d : ℕ × ListElement α} :
    Before (· > ·) (negateCell c) (negateCell d) ↔ Before (· < ·) c d :=
  or_congr Int.neg_lt_neg_iff (and_congr_left fun _ => Int.neg_inj)

omit [DecidableEq α] in
/-- **A new node** goes behind those with its key, which were there before. -/
theorem insertCell_before {c : ℕ × ListElement α} {cells : List (ℕ × ListElement α)}
    (hcells : cells.Pairwise (Before (· > ·))) (hnew : ∀ d ∈ cells, d.1 < c.1) :
    (insertCell c cells).Pairwise (Before (· > ·)) := by
  induction cells with
  | nil => exact List.pairwise_singleton _ _
  | cons d cells ih =>
    obtain ⟨hd, htail⟩ := List.pairwise_cons.mp hcells
    obtain ⟨hdc, hnew⟩ := List.forall_mem_cons.mp hnew
    rw [insertCell]
    by_cases hlt : d.2.key < c.2.key
    · rw [if_pos hlt]
      refine List.pairwise_cons.mpr ⟨?_, hcells⟩
      intro e he
      left
      rcases List.mem_cons.mp he with rfl | he
      · exact hlt
      · rcases hd e he with hde | ⟨hde, -⟩
        · exact lt_trans hde hlt
        · exact hde ▸ hlt
    · rw [if_neg hlt]
      refine List.pairwise_cons.mpr ⟨?_, ih htail hnew⟩
      intro e he
      rcases List.mem_cons.mp ((insertCell_perm c cells).mem_iff.mp he) with rfl | he
      · rcases lt_or_eq_of_le (not_lt.mp hlt) with hcd | hcd
        · exact Or.inl hcd
        · exact Or.inr ⟨hcd.symm, hdc⟩
      · exact hd e he

omit [DecidableEq α] in
theorem insertCellAhead_before {c : ℕ × ListElement α} {cells : List (ℕ × ListElement α)}
    (hcells : cells.Pairwise (Before (· < ·))) (hnew : ∀ d ∈ cells, d.1 < c.1) :
    (insertCellAhead c cells).Pairwise (Before (· < ·)) := by
  have hnegated : (cells.map negateCell).Pairwise (Before (· > ·)) :=
    List.pairwise_map.mpr (hcells.imp before_negateCell.mpr)
  have hinserted := insertCell_before (c := negateCell c) hnegated (by
    intro d hd
    obtain ⟨e, he, rfl⟩ := List.mem_map.mp hd
    exact hnew e he)
  refine List.pairwise_map.mpr (hinserted.imp ?_)
  intro d e hde
  rw [← before_negateCell, negateCell_negateCell, negateCell_negateCell]
  exact hde

theorem nextCells_increasing {x : ℕ} {op : ListOp α} {cells : List (ℕ × ListElement α)}
    (hop : op.Increasing) (hcells : cells.Pairwise (Before (· < ·)))
    (hnew : ∀ d ∈ cells, d.1 < x) : (nextCells x op cells).Pairwise (Before (· < ·)) := by
  cases op with
  | append item => cases hop
  | prepend item => cases hop
  | pop => exact hcells.tail
  | sortedPop => exact hcells.tail
  | remove item => exact hcells.sublist (removeCell_sublist item cells)
  | sortedInsert item sortKey => exact insertCellAhead_before hcells hnew
  | sortedInsertInverted item sortKey => cases hop

theorem nextCells_decreasing {x : ℕ} {op : ListOp α} {cells : List (ℕ × ListElement α)}
    (hop : op.Decreasing) (hcells : cells.Pairwise (Before (· > ·)))
    (hnew : ∀ d ∈ cells, d.1 < x) : (nextCells x op cells).Pairwise (Before (· > ·)) := by
  cases op with
  | append item => cases hop
  | prepend item => cases hop
  | pop => exact hcells.tail
  | sortedPop => exact hcells.tail
  | remove item => exact hcells.sublist (removeCell_sublist item cells)
  | sortedInsert item sortKey => cases hop
  | sortedInsertInverted item sortKey => exact insertCell_before hcells hnew

/-! ## The sequence of a run -/

/-- The address of each node is the number of the insertion that made it. -/
def Numbered (inserted : List (ListElement α)) (cells : List (ℕ × ListElement α)) : Prop :=
  ∀ c ∈ cells, inserted[c.1]? = some c.2

theorem Numbered.nextCells {inserted : List (ListElement α)} {cells : List (ℕ × ListElement α)}
    (h : Numbered inserted cells) (op : ListOp α) :
    Numbered (inserted ++ op.inserted) (nextCells inserted.length op cells) := by
  intro c hc
  rcases mem_nextCells hc with hc | ⟨hx, hop⟩
  · have hold := h c hc
    obtain ⟨hlt, -⟩ := List.getElem?_eq_some_iff.mp hold
    rw [List.getElem?_append_left hlt, hold]
  · rw [hx, hop, List.getElem?_concat_length]

/-- **A run of operations.** -/
theorem Shape.performAll {s : ListObject α} {inserted : List (ListElement α)}
    {cells : List (ℕ × ListElement α)} (h : s.Shape cells) (hnext : s.nextAddress = inserted.length)
    (hnumber : Numbered inserted cells) (ops : List (ListOp α)) :
    ∃ s' cells', s.performAll ops = some ((LinkedList.applyAll ops (cells.map Prod.snd)).1, s') ∧
      s'.Shape cells' ∧ cells'.map Prod.snd = (LinkedList.applyAll ops (cells.map Prod.snd)).2 ∧
      Numbered (inserted ++ ops.flatMap ListOp.inserted) cells' ∧
      ((∀ op ∈ ops, op.Increasing) → cells.Pairwise (Before (· < ·)) →
        cells'.Pairwise (Before (· < ·))) ∧
      ((∀ op ∈ ops, op.Decreasing) → cells.Pairwise (Before (· > ·)) →
        cells'.Pairwise (Before (· > ·))) := by
  induction ops generalizing s inserted cells with
  | nil =>
    refine ⟨s, cells, rfl, h, rfl, ?_, fun _ hc => hc, fun _ hc => hc⟩
    rwa [List.flatMap_nil, List.append_nil]
  | cons op ops ih =>
    have hbelow : ∀ d ∈ cells, d.1 < s.nextAddress :=
      fun d hd => h.below d.1 (List.mem_map_of_mem hd)
    obtain ⟨s₁, hs₁, hshape, haddr⟩ := h.perform op
    have hnext₁ : s₁.nextAddress = (inserted ++ op.inserted).length := by
      rw [haddr, hnext, List.length_append]
    have hnumber₁ :
        Numbered (inserted ++ op.inserted) (ListObject.nextCells s.nextAddress op cells) := by
      rw [hnext]
      exact hnumber.nextCells op
    obtain ⟨s', cells', hs', hshape', hsnd, hnumber', hinc, hdec⟩ := ih hshape hnext₁ hnumber₁
    rw [nextCells_snd] at hs' hsnd
    refine ⟨s', cells', ?_, hshape', hsnd, ?_, fun hops hcells => ?_, fun hops hcells => ?_⟩
    · rw [ListObject.performAll, hs₁, Option.bind_eq_bind, Option.bind_some]
      dsimp only
      rw [hs']
      rfl
    · rwa [List.flatMap_cons, ← List.append_assoc]
    · obtain ⟨hop, hops⟩ := List.forall_mem_cons.mp hops
      exact hinc hops (nextCells_increasing hop hcells hbelow)
    · obtain ⟨hop, hops⟩ := List.forall_mem_cons.mp hops
      exact hdec hops (nextCells_decreasing hop hcells hbelow)

/-- **A list is the sequence `l`**: its nodes from `first` on are `cells`, `last` is the last of
them, and the address of each is the number of its element among those `inserted`. -/
structure Sequence (s : ListObject α) (inserted l : List (ListElement α))
    (cells : List (ℕ × ListElement α)) : Prop where
  nodes : Segment s.heap s.first cells none
  elements : cells.map Prod.snd = l
  numbered : Numbered inserted cells
  last : ∀ c, cells.getLast? = some c → s.last = some c.1
  null : cells = [] → s.first = none ∧ s.last = none

omit [DecidableEq α] in
theorem Shape.sequence {s : ListObject α} {inserted : List (ListElement α)}
    {cells : List (ℕ × ListElement α)} (h : s.Shape cells) (hnumber : Numbered inserted cells) :
    s.Sequence inserted (cells.map Prod.snd) cells where
  nodes := h.segment
  elements := rfl
  numbered := hnumber
  last := by
    intro c hc
    rw [h.last, List.getLast?_map, hc]
    rfl
  null := by
    intro hnil
    subst hnil
    exact ⟨h.segment, h.last⟩

/-- **A list is a sequence.**  Any calls on a new list come back with what the same operations on a
sequence return; the nodes from `first` on are those of the sequence, `last` is the last of them,
and both are null if there is none.  With the operations for increasing (decreasing) order alone,
the keys are in that order, and elements with the same key in the order of their insertions. -/
theorem list_refines_sequence (ops : List (ListOp α)) :
    ∃ s cells, (ListObject.empty : ListObject α).performAll ops =
        some ((LinkedList.applyAll ops []).1, s) ∧
      s.Sequence (ops.flatMap ListOp.inserted) (LinkedList.applyAll ops []).2 cells ∧
      ((∀ op ∈ ops, op.Increasing) → cells.Pairwise (Before (· < ·))) ∧
      ((∀ op ∈ ops, op.Decreasing) → cells.Pairwise (Before (· > ·))) := by
  have hempty : (ListObject.empty : ListObject α).Shape [] :=
    ⟨rfl, List.nodup_nil, rfl, fun _ ha => absurd ha List.not_mem_nil⟩
  have hnumber : Numbered ([] : List (ListElement α)) [] := fun c hc => absurd hc List.not_mem_nil
  obtain ⟨s, cells, hs, hshape, hsnd, hnumbered, hinc, hdec⟩ :=
    hempty.performAll rfl hnumber ops
  rw [List.map_nil] at hs hsnd
  rw [List.nil_append] at hnumbered
  refine ⟨s, cells, hs, ?_, fun hops => hinc hops List.Pairwise.nil,
    fun hops => hdec hops List.Pairwise.nil⟩
  rw [← hsnd]
  exact hshape.sequence hnumbered

end ListObject
end Calls
end PaldOs
