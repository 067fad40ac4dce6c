import Mathlib.Data.List.Perm.Subperm
import PaldOs.LinkedList
import Mathlib.Logic.Function.Basic

/-! # The nodes of a list

`List<Item>` keeps its elements in nodes that are linked by pointers, and points to the first and
to the last of them.  Here are the operations on nodes, each with a theorem that says that it does
to the sequence of the elements what `LinkedList` says.  A node is at an address; what follows a
null pointer or a pointer to no node is undefined, `none`.

A **segment** is the part of a list between two pointers.
-/
namespace PaldOs

/-- A `ListElement` in memory. -/
structure ListNode (α : Type) where
  next : Option ℕ
  key : ℤ
  item : α

section Segments
variable {α : Type} {heap heap' : ℕ → Option (ListNode α)} {cells : List (ℕ × ListElement α)}
  {p q : Option ℕ}

/-- **The segment from `p` to `q`**: following `next` from `p` passes these nodes, and then is at
`q`. -/
def Segment (heap : ℕ → Option (ListNode α)) :
    Option ℕ → List (ℕ × ListElement α) → Option ℕ → Prop
  | p, [], q => p = q
  | p, (a, e) :: cells, q =>
      p = some a ∧ ∃ next, heap a = some ⟨next, e.key, e.item⟩ ∧ Segment heap next cells q

theorem segment_append {cells' : List (ℕ × ListElement α)} :
    Segment heap p (cells ++ cells') q ↔
      ∃ r, Segment heap p cells r ∧ Segment heap r cells' q := by
  induction cells generalizing p with
  | nil =>
    constructor
    · intro h
      exact ⟨p, rfl, h⟩
    · rintro ⟨r, rfl, h⟩
      exact h
  | cons c cells ih =>
    constructor
    · rintro ⟨hp, next, hc, h⟩
      obtain ⟨r, h1, h2⟩ := ih.mp h
      exact ⟨r, ⟨hp, next, hc, h1⟩, h2⟩
    · rintro ⟨r, ⟨hp, next, hc, h1⟩, h2⟩
      exact ⟨hp, next, hc, ih.mpr ⟨r, h1, h2⟩⟩

/-- Other nodes may change. -/
theorem Segment.frame (h : Segment heap p cells q)
    (hsame : ∀ a ∈ cells.map Prod.fst, heap' a = heap a) : Segment heap' p cells q := by
  induction cells generalizing p with
  | nil => exact h
  | cons c cells ih =>
    obtain ⟨hp, next, hc, h⟩ := h
    refine ⟨hp, next, ?_, ih h fun a ha => hsame a (List.mem_cons_of_mem _ ha)⟩
    rw [hsame c.1 List.mem_cons_self, hc]

theorem Segment.update (h : Segment heap p cells q) {a : ℕ} (ha : a ∉ cells.map Prod.fst)
    (node : Option (ListNode α)) : Segment (Function.update heap a node) p cells q := by
  refine h.frame fun b hb => Function.update_of_ne ?_ _ _
  rintro rfl
  exact ha hb

/-- The last node of a segment gets another `next`. -/
theorem Segment.relink {a : ℕ} {e : ListElement α} (h : Segment heap p (cells ++ [(a, e)]) q)
    (ha : a ∉ cells.map Prod.fst) (r : Option ℕ) :
    Segment (Function.update heap a (some ⟨r, e.key, e.item⟩)) p (cells ++ [(a, e)]) r := by
  obtain ⟨p', h1, hp, next, hc, h2⟩ := segment_append.mp h
  exact segment_append.mpr ⟨p', h1.update ha _, hp, r, Function.update_self .., rfl⟩

end Segments

/-- A `List` object, with the memory its nodes are in.  New nodes get new addresses. -/
structure ListObject (α : Type) where
  heap : ℕ → Option (ListNode α)
  nextAddress : ℕ
  first : Option ℕ
  last : Option ℕ

namespace ListObject
variable {α : Type}

/-- The constructor. -/
def empty : ListObject α := ⟨fun _ => none, 0, none, none⟩

/-- `new ListNode`. -/
def alloc (s : ListObject α) (item : α) (sortKey : ℤ) : ℕ × ListObject α :=
  (s.nextAddress, { s with
    heap := Function.update s.heap s.nextAddress (some ⟨none, sortKey, item⟩)
    nextAddress := s.nextAddress + 1 })

/-- `delete` of a node. -/
def free (s : ListObject α) (a : ℕ) : ListObject α :=
  { s with heap := Function.update s.heap a none }

/-- The assignment `a->next = next`. -/
def setNext (s : ListObject α) (a : ℕ) (next : Option ℕ) : Option (ListObject α) := do
  let node ← s.heap a
  return { s with heap := Function.update s.heap a (some { node with next := next }) }

/-- The loop of `SortedInsertInverted` from node `ptr` on, at most `n` nodes. -/
def insertBehind (s : ListObject α) (element : ℕ) (sortKey : ℤ) :
    ℕ → ℕ → Option (ListObject α)
  | 0, _ => none
  | n + 1, ptr => do
      let node ← s.heap ptr
      match node.next with
      | none =>
          let last ← s.last
          let s ← s.setNext last (some element)
          return { s with last := some element }
      | some next =>
          let nextNode ← s.heap next
          if nextNode.key < sortKey then
            let s ← s.setNext element (some next)
            s.setNext ptr (some element)
          else insertBehind s element sortKey n next

/-- `SortedInsertInverted`.  No list has more nodes than were ever made. -/
def sortedInsertInverted (s : ListObject α) (item : α) (sortKey : ℤ) : Option (ListObject α) :=
  let (element, s) := s.alloc item sortKey
  match s.first with
  | none => some { s with first := some element, last := some element }
  | some first => do
      let node ← s.heap first
      if node.key < sortKey then
        let s ← s.setNext element (some first)
        return { s with first := some element }
      else s.insertBehind element sortKey s.nextAddress first

/-- The loop of `Has`. -/
def hasFrom [DecidableEq α] (s : ListObject α) (item : α) : ℕ → Option ℕ → Option Bool
  | 0, _ => none
  | _ + 1, none => some false
  | n + 1, some ptr => do
      let node ← s.heap ptr
      if item = node.item then return true else hasFrom s item n node.next

/-- `Has`. -/
def has [DecidableEq α] (s : ListObject α) (item : α) : Option Bool :=
  s.hasFrom item (s.nextAddress + 1) s.first

/-- The loop of `Remove` takes out node `ptr`: what is before it now leads to `next`, -/
def bypass (s : ListObject α) (prevPtr next : Option ℕ) : Option (ListObject α) :=
  match prevPtr with
  | some prev => s.setNext prev next
  | none => some s

/-- and so do the ends of the list. -/
def unlink (s : ListObject α) (ptr : ℕ) (prevPtr next : Option ℕ) : ListObject α :=
  free { s with
    first := if s.first = some ptr then next else s.first
    last := if s.last = some ptr then prevPtr else s.last } ptr

/-- The loop of `Remove`, with the pointer to the node before. -/
def removeFrom [DecidableEq α] (s : ListObject α) (item : α) :
    ℕ → Option ℕ → Option ℕ → Option (ListObject α)
  | 0, _, _ => none
  | _ + 1, _, none => some s
  | n + 1, prevPtr, some ptr => do
      let node ← s.heap ptr
      if item = node.item then
        let s ← s.bypass prevPtr node.next
        return s.unlink ptr prevPtr node.next
      else removeFrom s item n (some ptr) node.next

/-- `Remove`. -/
def remove [DecidableEq α] (s : ListObject α) (item : α) : Option (ListObject α) :=
  s.removeFrom item (s.nextAddress + 1) none s.first

/-- `SortedPop`; the key is not stored if the caller gives no pointer for it. -/
def sortedPop (s : ListObject α) : Option (Option (ListElement α) × ListObject α) :=
  match s.first with
  | none => some (none, s)
  | some element => do
      let node ← s.heap element
      let s := if s.first = s.last then { s with first := none, last := none }
        else { s with first := node.next }
      return (some ⟨node.key, node.item⟩, s.free element)

/-! ## The sequence of the elements -/

/-- The nodes of the list, one after the other. -/
structure Shape (s : ListObject α) (cells : List (ℕ × ListElement α)) : Prop where
  segment : Segment s.heap s.first cells none
  nodup : (cells.map Prod.fst).Nodup
  last : s.last = (cells.map Prod.fst).getLast?
  below : ∀ a ∈ cells.map Prod.fst, a < s.nextAddress

/-- **The list object stands for the sequence `l`.** -/
def Represents (s : ListObject α) (l : List (ListElement α)) : Prop :=
  ∃ cells, s.Shape cells ∧ cells.map Prod.snd = l

theorem represents_empty : (empty : ListObject α).Represents [] :=
  ⟨[], ⟨rfl, List.nodup_nil, rfl, fun _ ha => absurd ha List.not_mem_nil⟩, rfl⟩

variable {s : ListObject α} {cells : List (ℕ × ListElement α)} {l : List (ListElement α)}

/-- There are not more nodes than addresses. -/
theorem Shape.length_le (h : s.Shape cells) : cells.length ≤ s.nextAddress := by
  have hsub : cells.map Prod.fst ⊆ List.range s.nextAddress :=
    fun a ha => List.mem_range.mpr (h.below a ha)
  have := (List.subperm_of_subset h.nodup hsub).length_le
  rwa [List.length_map, List.length_range] at this

theorem setNext_eq {a : ℕ} {node : ListNode α} (h : s.heap a = some node) (next : Option ℕ) :
    s.setNext a next =
      some { s with heap := Function.update s.heap a (some { node with next := next }) } := by
  rw [setNext, h]
  rfl

/-- `Has` looks through the elements. -/
theorem hasFrom_eq [DecidableEq α] {item : α} {n : ℕ} {p : Option ℕ}
    (h : Segment s.heap p cells none) (hn : cells.length < n) :
    s.hasFrom item n p = some (LinkedList.has item (cells.map Prod.snd)) := by
  induction cells generalizing n p with
  | nil =>
    obtain ⟨n, rfl⟩ := Nat.exists_eq_succ_of_ne_zero (show n ≠ 0 by omega)
    obtain rfl : p = none := h
    rfl
  | cons c cells ih =>
    obtain ⟨n, rfl⟩ := Nat.exists_eq_succ_of_ne_zero (show n ≠ 0 by omega)
    obtain ⟨rfl, next, hc, h⟩ := h
    rw [List.length_cons] at hn
    rw [hasFrom, hc, Option.bind_eq_bind, Option.bind_some, List.map_cons, LinkedList.has,
      List.any_cons]
    dsimp only
    by_cases he : item = c.2.item
    · rw [if_pos he, decide_eq_true he, Bool.true_or]
      rfl
    · rw [if_neg he, decide_eq_false he, Bool.false_or, ih h (by omega)]
      rfl

theorem Represents.has_eq [DecidableEq α] (h : s.Represents l) (item : α) :
    s.has item = some (LinkedList.has item l) := by
  obtain ⟨cells, hs, rfl⟩ := h
  have := hs.length_le
  exact hasFrom_eq hs.segment (by omega)

/-! ## Taking the first element -/

theorem Shape.sortedPop (h : s.Shape cells) :
    ∃ s', s.sortedPop = some (cells.head?.map Prod.snd, s') ∧ s'.Shape cells.tail ∧
      s'.nextAddress = s.nextAddress := by
  obtain ⟨hseg, hnodup, hlast, hbelow⟩ := h
  cases cells with
  | nil =>
    have hfirst : s.first = none := hseg
    refine ⟨s, ?_, ⟨hseg, hnodup, hlast, hbelow⟩, rfl⟩
    rw [ListObject.sortedPop, hfirst]
    rfl
  | cons c cells =>
    obtain ⟨hfirst, next, hc, hseg⟩ := hseg
    obtain ⟨hnot, hnodup⟩ := List.nodup_cons.mp hnodup
    have hrest := hseg.update hnot none
    have hbelow' : ∀ a ∈ cells.map Prod.fst, a < s.nextAddress :=
      fun a ha => hbelow a (List.mem_cons_of_mem _ ha)
    rw [ListObject.sortedPop, hfirst]
    dsimp only
    rw [hc]
    by_cases hone : some c.1 = s.last
    · -- it was the only one
      have hnil : cells = [] := by
        rcases List.eq_nil_or_concat cells with hnil | ⟨init, d, rfl⟩
        · exact hnil
        · rw [hlast, List.map_cons, List.map_concat, List.concat_eq_append, ← List.cons_append,
            List.getLast?_concat] at hone
          refine absurd ?_ hnot
          rw [Option.some.inj hone, List.map_concat, List.concat_eq_append]
          exact List.mem_append_right _ List.mem_cons_self
      subst hnil
      refine ⟨_, rfl, ⟨?_, List.nodup_nil, ?_, fun _ ha => absurd ha List.not_mem_nil⟩, ?_⟩
      · rw [if_pos hone]
        rfl
      · rw [if_pos hone]
        rfl
      · rw [if_pos hone]
        rfl
    · refine ⟨_, rfl, ⟨?_, hnodup, ?_, ?_⟩, ?_⟩
      · rw [if_neg hone]
        exact hrest
      · rw [if_neg hone]
        show s.last = _
        cases cells with
        | nil => exact absurd hlast.symm hone
        | cons d cells => rw [hlast, List.map_cons, List.map_cons, List.getLast?_cons_cons]; rfl
      · rw [if_neg hone]
        exact hbelow'
      · rw [if_neg hone]
        rfl

theorem Represents.sortedPop (h : s.Represents l) :
    ∃ s', s.sortedPop = some ((LinkedList.sortedPop l).1, s') ∧
      s'.Represents (LinkedList.sortedPop l).2 := by
  obtain ⟨cells, hshape, rfl⟩ := h
  obtain ⟨s', hs', hshape', -⟩ := hshape.sortedPop
  cases cells with
  | nil => exact ⟨s', hs', _, hshape', rfl⟩
  | cons c cells => exact ⟨s', hs', _, hshape', rfl⟩

/-! ## Inserting -/

/-- The nodes after an insertion, as `LinkedList.sortedInsertInverted` does it. -/
def insertCell (c : ℕ × ListElement α) : List (ℕ × ListElement α) → List (ℕ × ListElement α)
  | [] => [c]
  | d :: cells => if d.2.key < c.2.key then c :: d :: cells else d :: insertCell c cells

theorem insertCell_snd (c : ℕ × ListElement α) (cells : List (ℕ × ListElement α)) :
    (insertCell c cells).map Prod.snd =
      LinkedList.sortedInsertInverted c.2.item c.2.key (cells.map Prod.snd) := by
  induction cells with
  | nil => rfl
  | cons d cells ih =>
    rw [insertCell, List.map_cons, LinkedList.sortedInsertInverted]
    split
    · rfl
    · rw [List.map_cons, ih]

theorem insertCell_perm (c : ℕ × ListElement α) (cells : List (ℕ × ListElement α)) :
    (insertCell c cells).Perm (c :: cells) := by
  induction cells with
  | nil => exact List.Perm.refl _
  | cons d cells ih =>
    rw [insertCell]
    split
    · exact List.Perm.refl _
    · exact (ih.cons d).trans (List.Perm.swap ..)

/-- **The loop of `SortedInsertInverted`** puts the new node among those behind `ptr`. -/
theorem insertBehind_spec {a x : ℕ} {e f : ListElement α} {n : ℕ}
    (h : Segment s.heap (some a) ((a, e) :: cells) none)
    (hnodup : (a :: cells.map Prod.fst).Nodup) (hx : x ∉ a :: cells.map Prod.fst)
    (hnew : s.heap x = some ⟨none, f.key, f.item⟩)
    (hlast : s.last = (a :: cells.map Prod.fst).getLast?) (hn : cells.length < n) :
    ∃ s', s.insertBehind x f.key n a = some s' ∧ s'.first = s.first ∧
      s'.nextAddress = s.nextAddress ∧
      Segment s'.heap (some a) ((a, e) :: insertCell (x, f) cells) none ∧
      s'.last = (a :: (insertCell (x, f) cells).map Prod.fst).getLast? ∧
      ∀ b, b ∉ a :: cells.map Prod.fst → b ≠ x → s'.heap b = s.heap b := by
  induction cells generalizing a e n with
  | nil =>
    obtain ⟨n, rfl⟩ := Nat.exists_eq_succ_of_ne_zero (show n ≠ 0 by omega)
    obtain ⟨-, next, ha, rfl⟩ := h
    have hax : x ≠ a := fun heq => hx (heq ▸ List.mem_cons_self)
    have hlast' : s.last = some a := hlast
    refine ⟨{ s with
        heap := Function.update s.heap a (some ⟨some x, e.key, e.item⟩), last := some x },
      ?_, rfl, rfl, ?_, ?_, ?_⟩
    · rw [insertBehind, ha, Option.bind_eq_bind, Option.bind_some]
      dsimp only
      rw [hlast', Option.bind_eq_bind, Option.bind_some, setNext_eq ha]
      rfl
    · exact ⟨rfl, some x, Function.update_self .., rfl, none,
        (Function.update_of_ne hax ..).trans hnew, rfl⟩
    · rfl
    · intro b hb _
      refine Function.update_of_ne ?_ ..
      rintro rfl
      exact hb List.mem_cons_self
  | cons d cells ih =>
    obtain ⟨n, rfl⟩ := Nat.exists_eq_succ_of_ne_zero (show n ≠ 0 by omega)
    obtain ⟨-, next, ha, rfl, next', hd, h⟩ := h
    rw [List.length_cons] at hn
    have hxa : x ≠ a := fun heq => hx (heq ▸ List.mem_cons_self)
    have hxd : x ∉ d.1 :: cells.map Prod.fst := fun hmem => hx (List.mem_cons_of_mem _ hmem)
    obtain ⟨hnota, hnodup'⟩ := List.nodup_cons.mp hnodup
    have had : a ≠ d.1 := fun heq => hnota (heq ▸ List.mem_cons_self)
    rw [insertBehind, ha, Option.bind_eq_bind, Option.bind_some]
    dsimp only
    rw [hd, Option.bind_eq_bind, Option.bind_some, insertCell]
    by_cases hlt : d.2.key < f.key
    · rw [if_pos hlt, if_pos hlt]
      set heap₁ := Function.update s.heap x (some ⟨some d.1, f.key, f.item⟩) with heq₁
      have hset : s.setNext x (some d.1) = some { s with heap := heap₁ } := setNext_eq hnew _
      have ha₁ : heap₁ a = some ⟨some d.1, e.key, e.item⟩ := by
        rw [heq₁, Function.update_of_ne (Ne.symm hxa), ha]
      rw [hset, Option.bind_some, setNext_eq (s := { s with heap := heap₁ }) ha₁]
      refine ⟨_, rfl, rfl, rfl, ?_, ?_, ?_⟩
      · -- behind the two nodes that are written nothing changes
        refine ⟨rfl, some x, Function.update_self .., rfl, some d.1, ?_, rfl, next', ?_, ?_⟩
        · exact (Function.update_of_ne hxa ..).trans (Function.update_self ..)
        · refine (Function.update_of_ne (Ne.symm had) ..).trans ?_
          refine (Function.update_of_ne ?_ ..).trans hd
          rintro rfl
          exact hxd List.mem_cons_self
        · refine (h.update (fun hmem => hxd (List.mem_cons_of_mem _ hmem)) _).update ?_ _
          exact fun hmem => hnota (List.mem_cons_of_mem _ hmem)
      · show s.last = _
        rw [hlast, List.map_cons, List.map_cons, List.map_cons, List.getLast?_cons_cons,
          List.getLast?_cons_cons, List.getLast?_cons_cons]
      · intro b hb hbx
        refine (Function.update_of_ne ?_ ..).trans (Function.update_of_ne hbx ..)
        rintro rfl
        exact hb List.mem_cons_self
    · rw [if_neg hlt, if_neg hlt]
      have hlast' : s.last = (d.1 :: cells.map Prod.fst).getLast? := by
        rw [hlast, List.map_cons, List.getLast?_cons_cons]
      obtain ⟨s', hs', hfirst, haddr, hseg, hlst, hframe⟩ := ih (a := d.1) (e := d.2)
        ⟨rfl, next', hd, h⟩ hnodup' hxd hlast' (by omega : cells.length < n)
      refine ⟨s', hs', hfirst, haddr, ⟨rfl, some d.1, ?_, hseg⟩, ?_, ?_⟩
      · rw [hframe a hnota (Ne.symm hxa), ha]
      · rw [hlst, List.map_cons, List.getLast?_cons_cons]
      · intro b hb hbx
        exact hframe b (fun hmem => hb (List.mem_cons_of_mem _ hmem)) hbx

theorem Shape.sortedInsertInverted (h : s.Shape cells) (item : α) (sortKey : ℤ) :
    ∃ s', s.sortedInsertInverted item sortKey = some s' ∧
      s'.Shape (insertCell (s.nextAddress, ⟨sortKey, item⟩) cells) ∧
      s'.nextAddress = s.nextAddress + 1 := by
  have hlength := h.length_le
  obtain ⟨hseg, hnodup, hlast, hbelow⟩ := h
  set x := s.nextAddress with hx
  set f : ListElement α := ⟨sortKey, item⟩ with hf
  set s₁ := (s.alloc item sortKey).2 with hs₁
  have hnot : x ∉ cells.map Prod.fst := fun hmem => absurd (hbelow x hmem) (lt_irrefl _)
  have hnew : s₁.heap x = some ⟨none, f.key, f.item⟩ := Function.update_self ..
  have hseg₁ : Segment s₁.heap s₁.first cells none := hseg.update hnot _
  have hnodup' : ((insertCell (x, f) cells).map Prod.fst).Nodup :=
    ((insertCell_perm (x, f) cells).map Prod.fst).nodup_iff.mpr
      (List.nodup_cons.mpr ⟨hnot, hnodup⟩)
  have hbelow' : ∀ a ∈ (insertCell (x, f) cells).map Prod.fst, a < x + 1 := by
    intro a ha
    rcases List.mem_cons.mp (((insertCell_perm (x, f) cells).map Prod.fst).mem_iff.mp ha) with
      rfl | ha
    · exact Nat.lt_succ_self _
    · have := hbelow a ha
      omega
  suffices hex : ∃ s', s.sortedInsertInverted item sortKey = some s' ∧
      s'.nextAddress = x + 1 ∧ Segment s'.heap s'.first (insertCell (x, f) cells) none ∧
      s'.last = ((insertCell (x, f) cells).map Prod.fst).getLast? by
    obtain ⟨s', hs', haddr, hseg', hlast'⟩ := hex
    exact ⟨s', hs', ⟨hseg', hnodup', hlast', by rwa [haddr]⟩, haddr⟩
  have hdef : s.sortedInsertInverted item sortKey = (match s₁.first with
      | none => some { s₁ with first := some x, last := some x }
      | some first => (s₁.heap first).bind fun node =>
          if node.key < sortKey then
            (s₁.setNext x (some first)).bind fun s => some { s with first := some x }
          else s₁.insertBehind x sortKey s₁.nextAddress first) := rfl
  rw [hdef]
  cases cells with
  | nil =>
    have hfirst : s₁.first = none := hseg₁
    rw [hfirst]
    exact ⟨_, rfl, rfl, ⟨rfl, none, hnew, rfl⟩, rfl⟩
  | cons c cells =>
    obtain ⟨hfirst, next, hc, hrest⟩ := hseg₁
    rw [hfirst]
    dsimp only
    rw [hc, Option.bind_some, insertCell]
    by_cases hlt : c.2.key < sortKey
    · rw [if_pos hlt, if_pos hlt, setNext_eq hnew, Option.bind_some]
      refine ⟨_, rfl, rfl, ⟨rfl, some c.1, Function.update_self .., ?_⟩, ?_⟩
      · have hall : Segment s₁.heap (some c.1) (c :: cells) none := ⟨rfl, next, hc, hrest⟩
        exact hall.update hnot _
      · show s.last = _
        rw [hlast]
        exact List.getLast?_cons_cons.symm
    · rw [if_neg hlt, if_neg hlt]
      obtain ⟨s', hs', hfirst', haddr, hseg', hlast', -⟩ := insertBehind_spec (s := s₁) (a := c.1)
        (e := c.2) (f := f) (n := s₁.nextAddress) ⟨rfl, next, hc, hrest⟩ hnodup hnot hnew hlast
        (by rw [List.length_cons] at hlength; exact Nat.lt_succ_of_lt hlength)
      refine ⟨s', hs', haddr, ?_, hlast'⟩
      rw [hfirst', hfirst]
      exact hseg'

theorem Represents.sortedInsertInverted (h : s.Represents l) (item : α) (sortKey : ℤ) :
    ∃ s', s.sortedInsertInverted item sortKey = some s' ∧
      s'.Represents (LinkedList.sortedInsertInverted item sortKey l) := by
  obtain ⟨cells, hshape, rfl⟩ := h
  obtain ⟨s', hs', hshape', -⟩ := hshape.sortedInsertInverted item sortKey
  exact ⟨s', hs', _, hshape', insertCell_snd (s.nextAddress, ⟨sortKey, item⟩) cells⟩

/-! ## Removing -/

section Removing
variable [DecidableEq α]

/-- The nodes after a removal, as `LinkedList.remove` does it. -/
def removeCell (item : α) : List (ℕ × ListElement α) → List (ℕ × ListElement α)
  | [] => []
  | d :: cells => if item = d.2.item then cells else d :: removeCell item cells

theorem removeCell_snd (item : α) (cells : List (ℕ × ListElement α)) :
    (removeCell item cells).map Prod.snd = LinkedList.remove item (cells.map Prod.snd) := by
  induction cells with
  | nil => rfl
  | cons d cells ih =>
    rw [removeCell, List.map_cons, LinkedList.remove]
    split
    · rfl
    · rw [List.map_cons, ih]

omit [DecidableEq α] in
theorem getLast?_remove {before after : List ℕ} {a : ℕ} (h : a ∉ after) :
    (if (before ++ a :: after).getLast? = some a then before.getLast?
      else (before ++ a :: after).getLast?) = (before ++ after).getLast? := by
  rcases List.eq_nil_or_concat after with rfl | ⟨init, b, rfl⟩
  · rw [List.append_nil, List.getLast?_concat, if_pos rfl]
  · have hb : b ≠ a := by
      rintro rfl
      refine h ?_
      rw [List.concat_eq_append]
      exact List.mem_append_right _ List.mem_cons_self
    rw [List.concat_eq_append, ← List.cons_append, ← List.append_assoc, ← List.append_assoc,
      List.getLast?_concat, List.getLast?_concat, if_neg fun heq => hb (Option.some.inj heq)]

omit [DecidableEq α] in
/-- A node is taken out behind the nodes `before`. -/
theorem Shape.unlink {before : List (ℕ × ListElement α)} {d : ℕ × ListElement α} {p q : Option ℕ}
    (h : s.Shape (before ++ d :: cells)) (s₁ : ListObject α)
    (haddr : s₁.nextAddress = s.nextAddress)
    (hlast : s₁.last = s.last) (hfirst : (if s₁.first = some d.1 then p else s₁.first) = q)
    (hseg : Segment s₁.heap q (before ++ cells) none) :
    (s₁.unlink d.1 (before.map Prod.fst).getLast? p).Shape (before ++ cells) := by
  have hfst : (before ++ d :: cells).map Prod.fst =
      before.map Prod.fst ++ d.1 :: cells.map Prod.fst := by
    rw [List.map_append, List.map_cons]
  have hnodup := h.nodup
  rw [hfst, List.perm_middle.nodup_iff] at hnodup
  obtain ⟨hnot, hnodup⟩ := List.nodup_cons.mp hnodup
  subst hfirst
  refine ⟨hseg.update ?_ none, ?_, ?_, fun a ha => ?_⟩
  · rwa [List.map_append]
  · rwa [List.map_append]
  · show (if s₁.last = some d.1 then _ else s₁.last) = _
    rw [hlast, h.last, hfst, List.map_append]
    exact getLast?_remove fun hmem => hnot (List.mem_append_right _ hmem)
  · show a < s₁.nextAddress
    rw [haddr]
    refine h.below a ?_
    rw [List.map_append, List.mem_append] at ha
    rw [hfst, List.mem_append]
    exact ha.imp_right (List.mem_cons_of_mem _)

/-- **The loop of `Remove`**, with some nodes behind it and the last of them in `prev_ptr`. -/
theorem removeFrom_spec {item : α} {before : List (ℕ × ListElement α)} {n : ℕ} {p : Option ℕ}
    (h : s.Shape (before ++ cells)) (hp : Segment s.heap s.first before p)
    (hcells : Segment s.heap p cells none) (hn : cells.length < n) :
    ∃ s', s.removeFrom item n (before.map Prod.fst).getLast? p = some s' ∧
      s'.Shape (before ++ removeCell item cells) ∧ s'.nextAddress = s.nextAddress := by
  induction cells generalizing before n p with
  | nil =>
    obtain ⟨n, rfl⟩ := Nat.exists_eq_succ_of_ne_zero (show n ≠ 0 by omega)
    obtain rfl : p = none := hcells
    exact ⟨s, rfl, h, rfl⟩
  | cons d cells ih =>
    obtain ⟨n, rfl⟩ := Nat.exists_eq_succ_of_ne_zero (show n ≠ 0 by omega)
    obtain ⟨rfl, next, hd, hrest⟩ := hcells
    rw [List.length_cons] at hn
    rw [removeFrom, hd, Option.bind_eq_bind, Option.bind_some, removeCell]
    dsimp only
    by_cases hitem : item = d.2.item
    · rw [if_pos hitem, if_pos hitem]
      rcases List.eq_nil_or_concat before with rfl | ⟨init, ⟨b, e⟩, rfl⟩
      · -- the first node
        have hfirst : s.first = some d.1 := hp
        exact ⟨_, rfl, h.unlink s rfl rfl (if_pos hfirst) hrest, rfl⟩
      · rw [List.concat_eq_append] at hp h ⊢
        have hb := hp
        obtain ⟨r, -, -, r', hb, -⟩ := segment_append.mp hp
        have hnodup := h.nodup
        rw [List.map_append, List.map_append, List.nodup_append] at hnodup
        obtain ⟨hinit, -, hsep⟩ := hnodup
        have hbinit : b ∉ init.map Prod.fst := by
          intro hmem
          exact (List.nodup_append.mp hinit).2.2 b hmem b List.mem_cons_self rfl
        have hbcells : b ∉ cells.map Prod.fst := by
          intro hmem
          exact hsep b (List.mem_append_right _ List.mem_cons_self) b
            (List.mem_cons_of_mem _ hmem) rfl
        have hfirst : s.first ≠ some d.1 := by
          intro hfirst
          have hmem : d.1 ∈ (init ++ [(b, e)]).map Prod.fst := by
            cases init with
            | nil =>
              obtain ⟨hb, -⟩ := hp
              rw [hfirst] at hb
              rw [Option.some.inj hb]
              exact List.mem_cons_self
            | cons c init =>
              obtain ⟨hc, -⟩ := hp
              rw [hfirst] at hc
              rw [Option.some.inj hc]
              exact List.mem_cons_self
          rw [List.map_append] at hmem
          exact hsep d.1 hmem d.1 List.mem_cons_self rfl
        rw [show ((init ++ [(b, e)]).map Prod.fst).getLast? = some b by
          rw [List.map_append]
          exact List.getLast?_concat ..]
        rw [bypass, setNext_eq hb]
        have hshape := h.unlink (p := next) { s with
          heap := Function.update s.heap b (some ⟨next, e.key, e.item⟩) } rfl rfl
          (if_neg hfirst) (segment_append.mpr ⟨next, hp.relink hbinit next, hrest.update hbcells _⟩)
        rw [show ((init ++ [(b, e)]).map Prod.fst).getLast? = some b by
          rw [List.map_append]
          exact List.getLast?_concat ..] at hshape
        exact ⟨_, rfl, hshape, rfl⟩
    · rw [if_neg hitem, if_neg hitem]
      have hbefore : (before ++ [d]).map Prod.fst = before.map Prod.fst ++ [d.1] := by
        rw [List.map_append, List.map_singleton]
      obtain ⟨s', hs', hshape, haddr⟩ := @ih (before ++ [d]) n next
        (by rwa [List.append_assoc, List.singleton_append])
        (segment_append.mpr ⟨some d.1, hp, rfl, next, hd, rfl⟩) hrest (by omega)
      rw [hbefore, List.getLast?_concat] at hs'
      rw [List.append_assoc, List.singleton_append] at hshape
      exact ⟨s', hs', hshape, haddr⟩

theorem Shape.remove (h : s.Shape cells) (item : α) :
    ∃ s', s.remove item = some s' ∧ s'.Shape (removeCell item cells) ∧
      s'.nextAddress = s.nextAddress := by
  have := h.length_le
  exact @removeFrom_spec _ s cells _ item [] (s.nextAddress + 1) s.first h rfl h.segment (by omega)

theorem Represents.remove (h : s.Represents l) (item : α) :
    ∃ s', s.remove item = some s' ∧ s'.Represents (LinkedList.remove item l) := by
  obtain ⟨cells, hshape, rfl⟩ := h
  obtain ⟨s', hs', hshape', -⟩ := hshape.remove item
  exact ⟨s', hs', _, hshape', removeCell_snd item cells⟩

end Removing

end ListObject
end PaldOs
