import Mathlib.Algebra.Order.BigOperators.Group.List
import Mathlib.Algebra.Order.Ring.Nat
import Mathlib.Order.Interval.Finset.Nat

/-! # Stretches of numbers

Things that begin at a number and have a size, in a list: the numbers that they cover, and how
many these are if no two things overlap.
-/
namespace PaldOs
namespace Stretch
variable {α : Type} (start size : α → ℕ)

/-- `x` covers `a`. -/
def Covers (x : α) (a : ℕ) : Prop := start x ≤ a ∧ a < start x + size x

/-- One ends before the other begins. -/
def Apart (x y : α) : Prop := start x + size x ≤ start y ∨ start y + size y ≤ start x

/-- How long all of them are together. -/
def extent (l : List α) : ℕ := (l.map size).sum

/-- What is covered by a list. -/
def covered (l : List α) : Finset ℕ :=
  l.foldr (fun x S => Finset.Ico (start x) (start x + size x) ∪ S) ∅

variable {start size} {l : List α} {x : α} {a b n : ℕ}

@[simp] theorem covered_cons : covered start size (x :: l) =
    Finset.Ico (start x) (start x + size x) ∪ covered start size l := rfl

theorem mem_covered : a ∈ covered start size l ↔ ∃ x ∈ l, Covers start size x a := by
  induction l with
  | nil => exact iff_of_false (Finset.notMem_empty a) fun h => List.not_mem_nil h.choose_spec.1
  | cons x l ih =>
    rw [covered_cons, Finset.mem_union, Finset.mem_Ico, List.exists_mem_cons_iff, ih]
    exact Iff.rfl

@[simp] theorem extent_nil : extent size [] = 0 := rfl

@[simp] theorem extent_cons : extent size (x :: l) = size x + extent size l := List.sum_cons

/-- **As many numbers are covered as all are long**, if none overlap. -/
theorem card_covered (h : l.Pairwise (Apart start size)) :
    (covered start size l).card = extent size l := by
  induction l with
  | nil => rfl
  | cons x l ih =>
    obtain ⟨hx, hl⟩ := List.pairwise_cons.mp h
    have hdisj : Disjoint (Finset.Ico (start x) (start x + size x)) (covered start size l) := by
      apply Finset.disjoint_left.mpr
      intro a ha hmem
      obtain ⟨y, hy, hya⟩ := mem_covered.mp hmem
      have hxa := Finset.mem_Ico.mp ha
      cases hx y hy with
      | inl hle => exact absurd (hxa.2.trans_le hle) (Nat.not_lt.mpr hya.1)
      | inr hle => exact absurd (hya.2.trans_le hle) (Nat.not_lt.mpr hxa.1)
    rw [extent_cons, ← ih hl, covered_cons, Finset.card_union_of_disjoint hdisj, Nat.card_Ico,
      Nat.add_sub_cancel_left]

/-- They are as long as the stretch that they tile. -/
theorem extent_eq (h : l.Pairwise (Apart start size))
    (hcovers : ∀ a, a < n ↔ ∃ x ∈ l, Covers start size x a) : extent size l = n := by
  have hrange : covered start size l = Finset.range n := by
    ext a
    rw [mem_covered, Finset.mem_range, hcovers]
  rw [← card_covered h, hrange, Finset.card_range]

/-- If they lie in a stretch that is as long as they are together, they tile it. -/
theorem covers_iff (h : l.Pairwise (Apart start size))
    (hin : ∀ x ∈ l, b ≤ start x ∧ start x + size x ≤ b + extent size l) :
    b ≤ a ∧ a < b + extent size l ↔ ∃ x ∈ l, Covers start size x a := by
  have hsub : covered start size l ⊆ Finset.Ico b (b + extent size l) := by
    intro a ha
    obtain ⟨x, hx, hxa⟩ := mem_covered.mp ha
    exact Finset.mem_Ico.mpr ⟨(hin x hx).1.trans hxa.1, hxa.2.trans_le (hin x hx).2⟩
  have hcard : (Finset.Ico b (b + extent size l)).card ≤ (covered start size l).card := by
    rw [card_covered h, Nat.card_Ico, Nat.add_sub_cancel_left]
  rw [← mem_covered, Finset.eq_of_subset_of_card_le hsub hcard, Finset.mem_Ico]

/-- Those that tile a stretch lie in it. -/
theorem within_of_covers_iff (hx : x ∈ l) (hpos : 0 < size x)
    (h : ∀ a, b ≤ a ∧ a < b + n ↔ ∃ x ∈ l, Covers start size x a) :
    b ≤ start x ∧ start x + size x ≤ b + n := by
  have hfirst := (h (start x)).mpr ⟨x, hx, le_rfl, Nat.lt_add_of_pos_right hpos⟩
  have hlast := (h (start x + size x - 1)).mpr ⟨x, hx, by omega, by omega⟩
  exact ⟨hfirst.1, by omega⟩

theorem size_le_extent (hx : x ∈ l) : size x ≤ extent size l :=
  List.single_le_sum (fun _ _ => Nat.zero_le _) _ (List.mem_map_of_mem hx)

/-- One thing at the most, and something is covered. -/
theorem exists_of_extent_pos (hone : l.length ≤ 1) (h : 0 < extent size l) :
    ∃ x ∈ l, size x = extent size l := by
  match l with
  | [] => exact absurd h (Nat.lt_irrefl 0)
  | [x] => exact ⟨x, List.mem_cons_self, rfl⟩
  | _ :: _ :: _ => exact absurd hone (by simp)

theorem extent_append (l l' : List α) : extent size (l ++ l') = extent size l + extent size l' := by
  rw [extent, List.map_append, List.sum_append]
  rfl

/-! ## End to end -/

/-- Each begins where the one before it ends, and the first at `p`. -/
def EndToEnd (start size : α → ℕ) (p : ℕ) : List α → Prop
  | [] => True
  | x :: l => start x = p ∧ EndToEnd start size (p + size x) l

theorem EndToEnd.le {p : ℕ} (h : EndToEnd start size p l) (hx : x ∈ l) : p ≤ start x := by
  induction l generalizing p with
  | nil => exact absurd hx List.not_mem_nil
  | cons y l ih =>
    cases List.mem_cons.mp hx with
    | inl heq => exact (heq ▸ h.1).ge
    | inr hmem => exact (Nat.le_add_right ..).trans (ih h.2 hmem)

theorem EndToEnd.start_eq {p : ℕ} (h : EndToEnd start size p l) (hone : l.length ≤ 1)
    (hx : x ∈ l) : start x = p := by
  match l with
  | [] => exact absurd hx List.not_mem_nil
  | [y] => exact List.mem_singleton.mp hx ▸ h.1
  | _ :: _ :: _ => exact absurd hone (by simp)

theorem endToEnd_append {p : ℕ} {l' : List α} : EndToEnd start size p (l ++ l') ↔
    EndToEnd start size p l ∧ EndToEnd start size (p + extent size l) l' := by
  induction l generalizing p with
  | nil => exact (and_iff_right trivial).symm
  | cons x l ih =>
    rw [List.cons_append, EndToEnd, EndToEnd, ih, extent_cons, Nat.add_assoc, and_assoc]

theorem EndToEnd.apart {p : ℕ} (h : EndToEnd start size p l) :
    l.Pairwise (Apart start size) := by
  induction l generalizing p with
  | nil => exact List.Pairwise.nil
  | cons x l ih =>
    refine List.pairwise_cons.mpr ⟨fun y hy => ?_, ih h.2⟩
    left
    rw [h.1]
    exact h.2.le hy

theorem EndToEnd.covers_iff {p : ℕ} (h : EndToEnd start size p l) :
    p ≤ a ∧ a < p + extent size l ↔ ∃ x ∈ l, Covers start size x a := by
  induction l generalizing p with
  | nil =>
    refine iff_of_false (fun h => ?_) fun h => List.not_mem_nil h.choose_spec.1
    exact Nat.not_lt.mpr h.1 h.2
  | cons x l ih =>
    rw [List.exists_mem_cons_iff, ← ih h.2, Covers, h.1, extent_cons]
    omega

end Stretch
end PaldOs
