import Mathlib.Data.BitVec
import Mathlib.Tactic.Common

/-! # Machine words

Arithmetic of words the way it is done with the operations of a host: whether a sum or a difference
overflows is seen from sign bits, and a number of two words is added, doubled and negated word by
word.  All of it is modulo the double width.
-/
namespace PaldOs
namespace Words

/-! ## Sign bits -/

section Signs
variable {w : ℕ} {x y : BitVec w}

/-- The sign bit is masked out. -/
theorem and_intMin_eq_zero (x : BitVec w) : x &&& BitVec.intMin w = 0#w ↔ x.msb = false := by
  rw [BitVec.intMin, BitVec.and_twoPow, BitVec.msb_eq_getLsbD_last]
  by_cases hw : w = 0
  · subst hw
    simp [BitVec.of_length_zero]
  · cases hbit : x.getLsbD (w - 1) with
    | true =>
      have hne : BitVec.twoPow w (w - 1) ≠ 0#w := by
        rw [ne_eq, ← BitVec.toNat_inj, BitVec.toNat_twoPow_of_lt (by omega)]
        simp
      simp [hne]
    | false => simp

/-- **A sum overflows** if the signs agree and that of the sum does not. -/
theorem saddOverflow_iff : x.saddOverflow y = true ↔
    (x ^^^ y) &&& BitVec.intMin w = 0#w ∧ (x ^^^ (x + y)) &&& BitVec.intMin w ≠ 0#w := by
  rw [ne_eq, and_intMin_eq_zero, and_intMin_eq_zero, BitVec.msb_xor, BitVec.msb_xor,
    BitVec.saddOverflow_eq]
  cases x.msb <;> cases y.msb <;> cases (x + y).msb <;> decide

/-- **A difference overflows** if the signs are different and that of the difference is that of the
second. -/
theorem ssubOverflow_iff : x.ssubOverflow y = true ↔
    (x ^^^ y) &&& BitVec.intMin w ≠ 0#w ∧ (x ^^^ (x - y)) &&& BitVec.intMin w ≠ 0#w := by
  rw [ne_eq, ne_eq, and_intMin_eq_zero, and_intMin_eq_zero, BitVec.msb_xor, BitVec.msb_xor,
    BitVec.ssubOverflow_eq]
  cases x.msb <;> cases y.msb <;> cases (x - y).msb <;> decide

end Signs

/-! ## Two words -/

section Double
variable {hi lo hi' lo' : BitVec 32}

theorem toNat_append (hi lo : BitVec 32) : (hi ++ lo).toNat = hi.toNat * 2 ^ 32 + lo.toNat := by
  have hlt := lo.isLt
  rw [BitVec.toNat_append, Nat.shiftLeft_eq, Nat.mul_comm, ← Nat.two_pow_add_eq_or_of_lt hlt]

/-- **A sum of double words**, with the carry of the low words. -/
theorem append_add : (hi ++ lo) + (hi' ++ lo') =
    ((if lo + lo' < lo' then hi + 1 else hi) + hi') ++ (lo + lo') := by
  refine BitVec.eq_of_toNat_eq ?_
  have hlo := lo.isLt
  have hlo' := lo'.isLt
  have hcarry : lo + lo' < lo' ↔ 2 ^ 32 ≤ lo.toNat + lo'.toNat := by
    rw [BitVec.lt_def, BitVec.toNat_add]
    omega
  rw [BitVec.toNat_add, toNat_append, toNat_append, toNat_append, BitVec.toNat_add]
  split
  · rename_i h
    rw [hcarry] at h
    rw [BitVec.toNat_add, BitVec.toNat_add]
    show _ = ((hi.toNat + 1) % 2 ^ 32 + hi'.toNat) % 2 ^ 32 * 2 ^ 32 + _
    omega
  · rename_i h
    rw [hcarry] at h
    rw [BitVec.toNat_add]
    omega

theorem shiftLeft_or_one (x : BitVec 32) : (x <<< 1 ||| 1#32).toNat = x.toNat * 2 % 2 ^ 32 + 1 := by
  have hlow : x <<< 1 &&& 1#32 = 0#32 := by
    refine BitVec.eq_of_toNat_eq ?_
    rw [BitVec.toNat_and, BitVec.toNat_shiftLeft, Nat.shiftLeft_eq]
    show _ &&& 1 = 0
    rw [Nat.and_one_is_mod]
    omega
  rw [← BitVec.add_eq_or_of_and_eq_zero _ _ hlow, BitVec.toNat_add, BitVec.toNat_shiftLeft,
    Nat.shiftLeft_eq]
  show (_ + 1) % 2 ^ 32 = _
  omega

/-- **A double word is doubled.** -/
theorem append_double : (hi ++ lo) + (hi ++ lo) =
    (if lo.msb then hi <<< 1 ||| 1#32 else hi <<< 1) ++ (lo <<< 1) := by
  refine BitVec.eq_of_toNat_eq ?_
  have hlo := lo.isLt
  rw [BitVec.toNat_add, toNat_append, toNat_append, BitVec.toNat_shiftLeft, Nat.shiftLeft_eq]
  split
  · rename_i h
    have hbig := BitVec.msb_eq_true_iff_two_mul_ge.mp h
    rw [shiftLeft_or_one]
    omega
  · rename_i h
    rw [Bool.not_eq_true] at h
    have hsmall := BitVec.msb_eq_false_iff_two_mul_lt.mp h
    rw [BitVec.toNat_shiftLeft, Nat.shiftLeft_eq]
    omega

/-- **A double word is negated.** -/
theorem append_neg : -(hi ++ lo) =
    (if ~~~lo + 1 = 0#32 then ~~~hi + 1 else ~~~hi) ++ (~~~lo + 1) := by
  refine BitVec.eq_of_toNat_eq ?_
  have hhi := hi.isLt
  have hlo := lo.isLt
  have hcarry : ~~~lo + 1 = 0#32 ↔ lo.toNat = 0 := by
    rw [← BitVec.toNat_inj, BitVec.toNat_add, BitVec.toNat_not]
    show (2 ^ 32 - 1 - lo.toNat + 1) % 2 ^ 32 = 0 ↔ _
    omega
  rw [BitVec.toNat_neg, toNat_append, toNat_append, BitVec.toNat_add, BitVec.toNat_not]
  show _ = _ + (2 ^ 32 - 1 - lo.toNat + 1) % 2 ^ 32
  split
  · rename_i h
    rw [hcarry] at h
    rw [BitVec.toNat_add, BitVec.toNat_not]
    show _ = (2 ^ 32 - 1 - hi.toNat + 1) % 2 ^ 32 * 2 ^ 32 + _
    omega
  · rename_i h
    rw [hcarry] at h
    rw [BitVec.toNat_not]
    omega

end Double

end Words
end PaldOs
