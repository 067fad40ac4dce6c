import Mathlib.Data.Finset.Card
import PaldOs.BitmapWords

/-! # A bitmap as a set of indices

Any calls of `Mark`, `Clear`, `Find` and `Test`, with indices below the number of bits, do to the
words of a bitmap what insertions and deletions do to a set (`bitmap_represents_set`).  `Represents`
is what is kept from call to call: the bits below `n` are those of the set; about the rest of
the last word nothing is known.
-/
namespace PaldOs

/-! ## A set of indices -/

/-- A call of an operation of a bitmap. -/
inductive BitmapOp where
  | mark (which : ℕ)
  | clear (which : ℕ)
  | find
  | test (which : ℕ)

/-- What a call returns: nothing, an index or a bit. -/
inductive BitmapAnswer (Index : Type) where
  | nothing
  | index (found : Index)
  | bit (value : Bool)

namespace BitmapAnswer
variable {Index Index' : Type}

def map (f : Index → Index') : BitmapAnswer Index → BitmapAnswer Index'
  | nothing => nothing
  | index found => index (f found)
  | bit value => bit value

end BitmapAnswer

/-- The index of the call is below `n`. -/
def BitmapOp.Below (n : ℕ) : BitmapOp → Prop
  | mark which | clear which | test which => which < n
  | find => True

instance (n : ℕ) : DecidablePred (BitmapOp.Below n)
  | .mark which => inferInstanceAs (Decidable (which < n))
  | .clear which => inferInstanceAs (Decidable (which < n))
  | .test which => inferInstanceAs (Decidable (which < n))
  | .find => .isTrue trivial

namespace IndexSet

/-- The least index below `n` that is not in the set. -/
def leastAbsent (n : ℕ) (S : Finset ℕ) : Option ℕ := (List.range n).find? (fun i => i ∉ S)

theorem leastAbsent_eq_some {n i : ℕ} {S : Finset ℕ} :
    leastAbsent n S = some i ↔ i < n ∧ i ∉ S ∧ ∀ j < i, j ∈ S := by
  rw [leastAbsent, List.find?_range_eq_some, List.mem_range]
  simp only [decide_not, Bool.not_eq_true', decide_eq_false_iff_not, Bool.not_not,
    decide_eq_true_eq]
  exact and_left_comm

theorem leastAbsent_eq_none {n : ℕ} {S : Finset ℕ} :
    leastAbsent n S = none ↔ ∀ i < n, i ∈ S := by
  rw [leastAbsent, List.find?_eq_none]
  simp only [List.mem_range, decide_not, Bool.not_eq_true', decide_eq_false_iff_not, not_not]

/-- **An operation on a set of indices below `n`.** -/
def apply (n : ℕ) : BitmapOp → Finset ℕ → BitmapAnswer (Option ℕ) × Finset ℕ
  | .mark which, S => (.nothing, insert which S)
  | .clear which, S => (.nothing, S.erase which)
  | .find, S =>
      (.index (leastAbsent n S),
        match leastAbsent n S with
        | some i => insert i S
        | none => S)
  | .test which, S => (.bit (which ∈ S), S)

/-- Operations one after the other: the answers, and the set in the end. -/
def applyAll (n : ℕ) :
    List BitmapOp → Finset ℕ → List (BitmapAnswer (Option ℕ)) × Finset ℕ
  | [], S => ([], S)
  | op :: ops, S =>
      let (answer, S) := apply n op S
      let (rest, S) := applyAll n ops S
      (answer :: rest, S)

end IndexSet

namespace WordBitmap

/-- An operation on the bitmap. -/
def perform (b : WordBitmap) : BitmapOp → Option (BitmapAnswer Int32 × WordBitmap)
  | .mark which => (b.mark which).map (.nothing, ·)
  | .clear which => (b.clear which).map (.nothing, ·)
  | .find => b.find.map fun r => (.index r.1, r.2)
  | .test which => (b.test which).map (.bit ·, b)

/-- Operations one after the other. -/
def performAll (b : WordBitmap) :
    List BitmapOp → Option (List (BitmapAnswer Int32) × WordBitmap)
  | [] => some ([], b)
  | op :: ops => do
      let (answer, b) ← b.perform op
      let (rest, b) ← b.performAll ops
      return (answer :: rest, b)

/-- **The array represents the set.** -/
structure Represents (b : WordBitmap) (n : ℕ) (S : Finset ℕ) : Prop where
  numBits_eq : b.numBits = n
  lt : ∀ i ∈ S, i < n
  bit_eq : ∀ i < n, b.bit i = decide (i ∈ S)

section Sets
variable {b : WordBitmap} {n : ℕ} {S : Finset ℕ}

theorem Represents.test_eq (h : b.Represents n S) {i : ℕ} (hi : i < n) :
    b.test i = some (decide (i ∈ S)) := by
  rw [WordBitmap.test_eq (h.numBits_eq ▸ hi), h.bit_eq i hi]

theorem Represents.clearBits_eq (h : b.Represents n S) :
    b.clearBits = (List.range n).filter (fun i => i ∉ S) := by
  rw [clearBits, h.numBits_eq]
  apply List.filter_congr
  intro i hi
  rw [h.bit_eq i (List.mem_range.mp hi), decide_not]

theorem Represents.head?_clearBits (h : b.Represents n S) :
    b.clearBits.head? = IndexSet.leastAbsent n S := by
  rw [h.clearBits_eq, List.head?_filter, IndexSet.leastAbsent]

theorem Represents.marked (h : b.Represents n S) {i : ℕ} (hi : i < n) :
    (b.marked i).Represents n (insert i S) where
  numBits_eq := h.numBits_eq
  lt := by
    intro j hj
    rcases Finset.mem_insert.mp hj with rfl | hj
    · exact hi
    · exact h.lt j hj
  bit_eq := by
    intro j hj
    rw [bit_marked (h.numBits_eq ▸ hi), Bitmap.mark]
    by_cases hji : j = i
    · subst hji
      rw [Function.update_self, decide_eq_true (Finset.mem_insert_self j S)]
    · rw [Function.update_of_ne hji, h.bit_eq j hj]
      exact decide_eq_decide.mpr (Finset.mem_insert.trans (or_iff_right hji)).symm

theorem Represents.cleared (h : b.Represents n S) {i : ℕ} (hi : i < n) :
    (b.cleared i).Represents n (S.erase i) where
  numBits_eq := h.numBits_eq
  lt := fun j hj => h.lt j (Finset.mem_of_mem_erase hj)
  bit_eq := by
    intro j hj
    rw [bit_cleared (h.numBits_eq ▸ hi), Bitmap.clear]
    by_cases hji : j = i
    · subst hji
      rw [Function.update_self, decide_eq_false (Finset.notMem_erase j S)]
    · rw [Function.update_of_ne hji, h.bit_eq j hj]
      exact decide_eq_decide.mpr (Finset.mem_erase.trans (and_iff_right hji)).symm

theorem Represents.countClear_eq (h : b.Represents n S) : b.countClear = some (n - S.card) := by
  have hset : b.clearBits.toFinset = Finset.range n \ S := by
    ext i
    rw [List.mem_toFinset, h.clearBits_eq, List.mem_filter, List.mem_range, decide_eq_true_eq,
      Finset.mem_sdiff, Finset.mem_range]
  have hsub : S ⊆ Finset.range n := fun i hi => Finset.mem_range.mpr (h.lt i hi)
  rw [WordBitmap.countClear_eq, ← List.toFinset_card_of_nodup b.nodup_clearBits, hset,
    Finset.card_sdiff_of_subset hsub, Finset.card_range]

/-- **One call.** -/
theorem Represents.perform (h : b.Represents n S) {op : BitmapOp} (hop : op.Below n) :
    ∃ b', b.perform op = some ((IndexSet.apply n op S).1.map asInt, b') ∧
      b'.Represents n (IndexSet.apply n op S).2 := by
  cases op with
  | mark which =>
    refine ⟨b.marked which, ?_, h.marked hop⟩
    rw [WordBitmap.perform, mark_eq (h.numBits_eq ▸ hop)]
    rfl
  | clear which =>
    refine ⟨b.cleared which, ?_, h.cleared hop⟩
    rw [WordBitmap.perform, clear_eq (h.numBits_eq ▸ hop)]
    rfl
  | test which =>
    refine ⟨b, ?_, h⟩
    rw [WordBitmap.perform, h.test_eq hop]
    rfl
  | find =>
    refine ⟨b.taken (IndexSet.leastAbsent n S), ?_, ?_⟩
    · rw [WordBitmap.perform, find_eq, h.head?_clearBits]
      rfl
    · rw [IndexSet.apply]
      cases hfound : IndexSet.leastAbsent n S with
      | none => exact h
      | some i => exact h.marked (IndexSet.leastAbsent_eq_some.mp hfound).1

/-- **Any number of calls.** -/
theorem Represents.performAll (h : b.Represents n S) {ops : List BitmapOp}
    (hops : ∀ op ∈ ops, op.Below n) : ∃ b', b.performAll ops =
        some ((IndexSet.applyAll n ops S).1.map (·.map asInt), b') ∧
      b'.Represents n (IndexSet.applyAll n ops S).2 := by
  induction ops generalizing b S with
  | nil => exact ⟨b, rfl, h⟩
  | cons op ops ih =>
    obtain ⟨hop, hops⟩ := List.forall_mem_cons.mp hops
    obtain ⟨b₁, hb₁, h₁⟩ := h.perform hop
    obtain ⟨b', hb', h'⟩ := ih h₁ hops
    refine ⟨b', ?_, h'⟩
    rw [WordBitmap.performAll, hb₁, Option.bind_eq_bind, Option.bind_some]
    dsimp only
    rw [hb']
    rfl

theorem make_represents (memory : ℕ → BitVec 32) (hpos : 0 < n) (hlt : n < 2 ^ 32) :
    ∃ b, make memory n = some b ∧ b.Represents n ∅ := by
  obtain ⟨b, hb, hnum, hclear⟩ := make_eq memory hpos hlt
  refine ⟨b, hb, hnum, fun i hi => absurd hi (Finset.notMem_empty i), fun i hi => ?_⟩
  rw [hclear i hi, decide_eq_false (Finset.notMem_empty i)]

end Sets

/-! ## Histories of calls -/

/-- **What the operations say of a bitmap is true of the set `S`.** -/
structure Reflects (b : WordBitmap) (n : ℕ) (S : Finset ℕ) : Prop where
  lt : ∀ i ∈ S, i < n
  test : ∀ i < n, b.test i = some (decide (i ∈ S))
  /-- `Mark` and `Clear` change one bit of the array. -/
  mark : ∀ i < n, ∃ b', b.mark i = some b' ∧ b'.bit i = true ∧ ∀ j, j ≠ i → b'.bit j = b.bit j
  clear : ∀ i < n, ∃ b', b.clear i = some b' ∧ b'.bit i = false ∧ ∀ j, j ≠ i → b'.bit j = b.bit j
  /-- The least absent index is returned as an `int`. -/
  find : ∃ r b', b.find = some (r, b') ∧ (r = -1 ↔ ∀ i < n, i ∈ S) ∧
    ∀ i, IndexSet.leastAbsent n S = some i →
      r.toUInt32.toNat = i ∧ r.toInt = if i < 2 ^ 31 then (i : ℤ) else (i : ℤ) - 2 ^ 32
  countClear : b.countClear = some (n - S.card)
  restored : ∀ {State : Type} (file : ArrayFile State) (s : State) (b' : WordBitmap),
    b'.numBits = n → 4 * b.map.length ≤ file.length s →
      b'.fetchFrom file (b.writeBack file s) = b

theorem Represents.reflects {b : WordBitmap} {n : ℕ} {S : Finset ℕ} (h : b.Represents n S) :
    b.Reflects n S where
  lt := h.lt
  test := fun i hi => h.test_eq hi
  mark := by
    intro i hi
    rw [← h.numBits_eq] at hi
    refine ⟨b.marked i, mark_eq hi, ?_, fun j hj => ?_⟩
    · rw [bit_marked hi, Bitmap.mark, Function.update_self]
    · rw [bit_marked hi, Bitmap.mark, Function.update_of_ne hj]
  clear := by
    intro i hi
    rw [← h.numBits_eq] at hi
    refine ⟨b.cleared i, clear_eq hi, ?_, fun j hj => ?_⟩
    · rw [bit_cleared hi, Bitmap.clear, Function.update_self]
    · rw [bit_cleared hi, Bitmap.clear, Function.update_of_ne hj]
  find := by
    have hn := h.numBits_eq ▸ b.numBits_lt
    have hlt : ∀ i, IndexSet.leastAbsent n S = some i → i < 2 ^ 32 - 1 := by
      intro i hi
      have := (IndexSet.leastAbsent_eq_some.mp hi).1
      omega
    refine ⟨_, _, find_eq b, ?_, fun i hi => ?_⟩
    · rw [h.head?_clearBits, asInt_eq_iff hlt, IndexSet.leastAbsent_eq_none]
    · have hi32 : i < 2 ^ 32 := by
        have := hlt i hi
        omega
      rw [h.head?_clearBits, hi]
      exact ⟨toNat_asInt hi32, toInt_asInt hi32⟩
  countClear := h.countClear_eq
  restored := fun file s b' hnum hlength =>
    fetchFrom_writeBack file (hnum.trans h.numBits_eq.symm) hlength

/-- **A bitmap is a set of indices.**  For any number of bits, anything in the memory of the new
array and any calls with indices below that number, the calls return what the same operations on a
set return, the index that `Find` finds as an `int`; and the array in the end is one of that set. -/
theorem bitmap_represents_set (memory : ℕ → BitVec 32) {n : ℕ} (hpos : 0 < n) (hlt : n < 2 ^ 32)
    {ops : List BitmapOp} (hops : ∀ op ∈ ops, op.Below n) :
    ∃ b₀ b, make memory n = some b₀ ∧
      b₀.performAll ops = some ((IndexSet.applyAll n ops ∅).1.map (·.map asInt), b) ∧
      b.Reflects n (IndexSet.applyAll n ops ∅).2 := by
  obtain ⟨b₀, hb₀, hempty⟩ := make_represents memory hpos hlt
  obtain ⟨b, hb, hrep⟩ := hempty.performAll hops
  exact ⟨b₀, b, hb₀, hb, hrep.reflects⟩

/-- A bitmap of 33 bits, in which bit 31 and the only bit of the second word are used. -/
theorem bitmap_represents_set_33 : ∃ b₀ b, make (fun _ => 4294967295#32) 33 = some b₀ ∧
    b₀.performAll [.mark 31, .mark 32, .find, .clear 31, .test 32] =
      some ([.nothing, .nothing, .index 0, .nothing, .bit true], b) ∧ b.Reflects 33 {0, 32} := by
  have hops : ∀ op ∈ [BitmapOp.mark 31, .mark 32, .find, .clear 31, .test 32], op.Below 33 := by
    decide
  obtain ⟨b₀, b, hb₀, hb, h⟩ := bitmap_represents_set (fun _ => 4294967295#32)
    (show 0 < 33 by decide) (by decide) hops
  have hset : (IndexSet.applyAll 33 [.mark 31, .mark 32, .find, .clear 31, .test 32] ∅).2 =
      {0, 32} := by decide
  rw [hset] at h
  exact ⟨b₀, b, hb₀, hb, h⟩

/-- The set after some indices have been marked. -/
theorem applyAll_mark (n : ℕ) (l : List ℕ) (S : Finset ℕ) :
    (IndexSet.applyAll n (l.map .mark) S).2 = S ∪ l.toFinset := by
  induction l generalizing S with
  | nil => exact (Finset.union_empty S).symm
  | cons i l ih =>
    show (IndexSet.applyAll n (l.map .mark) (insert i S)).2 = _
    rw [ih, List.toFinset_cons, Finset.insert_union, Finset.union_insert]

/-- The first `m` bits are marked, and `Find` finds the next one. -/
theorem find_behind {m n : ℕ} (hm : m < n) (hlt : n < 2 ^ 32) :
    ∃ b₀ answers b b', make (fun _ => 0) n = some b₀ ∧
      b₀.performAll ((List.range m).map .mark) = some (answers, b) ∧
      (∀ i < m, b.test i = some true) ∧ b.test m = some false ∧
      b.find = some (asInt (some m), b') := by
  obtain ⟨b₀, hb₀, hempty⟩ := make_represents (fun _ => 0) (Nat.zero_lt_of_lt hm) hlt
  have hops : ∀ op ∈ (List.range m).map BitmapOp.mark, op.Below n := by
    intro op hop
    obtain ⟨i, hi, rfl⟩ := List.mem_map.mp hop
    exact (List.mem_range.mp hi).trans hm
  obtain ⟨b, hb, hrep⟩ := hempty.performAll hops
  rw [applyAll_mark, Finset.empty_union] at hrep
  have hmem : ∀ i, i ∈ (List.range m).toFinset ↔ i < m := by
    intro i
    rw [List.mem_toFinset, List.mem_range]
  have hleast : IndexSet.leastAbsent n (List.range m).toFinset = some m :=
    IndexSet.leastAbsent_eq_some.mpr
      ⟨hm, fun hmm => lt_irrefl m ((hmem m).mp hmm), fun j hj => (hmem j).mpr hj⟩
  have hfind := find_eq b
  rw [hrep.head?_clearBits, hleast] at hfind
  refine ⟨b₀, _, b, _, hb₀, hb, fun i hi => ?_, ?_, hfind⟩
  · rw [hrep.test_eq (hi.trans hm), decide_eq_true ((hmem i).mpr hi)]
  · rw [hrep.test_eq hm, decide_eq_false fun hmm => lt_irrefl m ((hmem m).mp hmm)]

/-- **The least absent index is 2^31**, and what `Find` returns is a negative number. -/
theorem find_returns_negative : ∃ b₀ answers b r b', make (fun _ => 0) (2 ^ 31 + 1) = some b₀ ∧
    b₀.performAll ((List.range (2 ^ 31)).map .mark) = some (answers, b) ∧
    (∀ i < 2 ^ 31, b.test i = some true) ∧ b.test (2 ^ 31) = some false ∧
    b.find = some (r, b') ∧ r.toInt = -2147483648 := by
  obtain ⟨b₀, answers, b, b', hb₀, hb, hmarked, hclear, hfind⟩ :=
    find_behind (Nat.lt_succ_self (2 ^ 31)) (by omega)
  refine ⟨b₀, answers, b, _, b', hb₀, hb, hmarked, hclear, hfind, ?_⟩
  rw [toInt_asInt (by omega), if_neg (lt_irrefl _)]
  rfl

end WordBitmap
end PaldOs
