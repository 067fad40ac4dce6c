import Mathlib.Tactic.Ring
import PaldOs.Words

/-! # Arithmetic instructions of the simulated processor

The processor executes an instruction in two steps: the word is decoded with the help of two tables,
and `ExecInstruction` does what the operation code says.  The instructions that compute with
registers are here; those that branch, jump, use memory or trap are not.

An `int` of the host has 32 bits.  Sums, differences and left shifts of them wrap around, as the
compiler leaves them, and a right shift of an `int` keeps the sign.  A quotient that does not fit
is not defined: the host stops at it.
-/
namespace PaldOs
namespace Machine

/-! ## Decoding -/

/-- The operation codes. -/
inductive OpCode
  | add | addi | addiu | addu | and | andi | beq | bgez | bgezal | bgtz | blez | bltz | bltzal | bne
  | div | divu | j | jal | jalr | jr | lb | lbu | lh | lhu | lui | lw | lwl | lwr
  | mfhi | mflo | mthi | mtlo | mult | multu | nor | or | ori | rfe | sb | sh | sll | sllv
  | slt | slti | sltiu | sltu | sra | srav | srl | srlv | sub | subu | sw | swl | swr | xor | xori
  | syscall | unimp | res
deriving DecidableEq, Repr

/-- What `OP_TABLE` has for an operation code. -/
inductive OpInfo
  | special
  | bcond
  | op (opCode : OpCode)

/-- How the rest of an instruction is read. -/
inductive Format
  | ifmt
  | jfmt
  | rfmt

/-- `OP_TABLE`. -/
def opTable : List (OpInfo × Format) := [
  (.special, .rfmt), (.bcond, .ifmt), (.op .j, .jfmt), (.op .jal, .jfmt),
  (.op .beq, .ifmt), (.op .bne, .ifmt), (.op .blez, .ifmt), (.op .bgtz, .ifmt),
  (.op .addi, .ifmt), (.op .addiu, .ifmt), (.op .slti, .ifmt), (.op .sltiu, .ifmt),
  (.op .andi, .ifmt), (.op .ori, .ifmt), (.op .xori, .ifmt), (.op .lui, .ifmt),
  (.op .unimp, .ifmt), (.op .unimp, .ifmt), (.op .unimp, .ifmt), (.op .unimp, .ifmt),
  (.op .res, .ifmt), (.op .res, .ifmt), (.op .res, .ifmt), (.op .res, .ifmt),
  (.op .res, .ifmt), (.op .res, .ifmt), (.op .res, .ifmt), (.op .res, .ifmt),
  (.op .res, .ifmt), (.op .res, .ifmt), (.op .res, .ifmt), (.op .res, .ifmt),
  (.op .lb, .ifmt), (.op .lh, .ifmt), (.op .lwl, .ifmt), (.op .lw, .ifmt),
  (.op .lbu, .ifmt), (.op .lhu, .ifmt), (.op .lwr, .ifmt), (.op .res, .ifmt),
  (.op .sb, .ifmt), (.op .sh, .ifmt), (.op .swl, .ifmt), (.op .sw, .ifmt),
  (.op .res, .ifmt), (.op .res, .ifmt), (.op .swr, .ifmt), (.op .res, .ifmt),
  (.op .unimp, .ifmt), (.op .unimp, .ifmt), (.op .unimp, .ifmt), (.op .unimp, .ifmt),
  (.op .res, .ifmt), (.op .res, .ifmt), (.op .res, .ifmt), (.op .res, .ifmt),
  (.op .unimp, .ifmt), (.op .unimp, .ifmt), (.op .unimp, .ifmt), (.op .unimp, .ifmt),
  (.op .res, .ifmt), (.op .res, .ifmt), (.op .res, .ifmt), (.op .res, .ifmt)]

/-- `SPECIAL_TABLE`. -/
def specialTable : List OpCode := [
  .sll, .res, .srl, .sra, .sllv, .res, .srlv, .srav,
  .jr, .jalr, .res, .res, .syscall, .unimp, .res, .res,
  .mfhi, .mthi, .mflo, .mtlo, .res, .res, .res, .res,
  .mult, .multu, .div, .divu, .res, .res, .res, .res,
  .add, .addu, .sub, .subu, .and, .or, .xor, .nor,
  .res, .res, .slt, .sltu, .res, .res, .res, .res,
  .res, .res, .res, .res, .res, .res, .res, .res,
  .res, .res, .res, .res, .res, .res, .res, .res]

/-- `Instruction`, decoded. -/
structure Instruction where
  opCode : OpCode
  rs : ℕ
  rt : ℕ
  rd : ℕ
  extra : BitVec 32

/-- The immediate operand, with its sign. -/
def signExtended (value : BitVec 32) : BitVec 32 :=
  let extra := value &&& 0xFFFF#32
  if extra &&& 0x8000#32 ≠ 0#32 then extra ||| 0xFFFF0000#32 else extra

/-- The operation code of a `BCOND`. -/
def bcondCode (value : BitVec 32) : OpCode :=
  let i := value &&& 0x1F0000#32
  if i = 0#32 then .bltz
  else if i = 0x10000#32 then .bgez
  else if i = 0x100000#32 then .bltzal
  else if i = 0x110000#32 then .bgezal
  else .unimp

/-- `Instruction::Decode`. -/
def decode (value : BitVec 32) : Instruction :=
  let opPtr := opTable.getD (value >>> 26 &&& 0x3F#32).toNat (.op .res, .ifmt)
  { rs := (value >>> 21 &&& 0x1F#32).toNat
    rt := (value >>> 16 &&& 0x1F#32).toNat
    rd := (value >>> 11 &&& 0x1F#32).toNat
    extra :=
      match opPtr.2 with
      | .ifmt => signExtended value
      | .rfmt => value >>> 6 &&& 0x1F#32
      | .jfmt => value &&& 0x3FFFFFF#32
    opCode :=
      match opPtr.1 with
      | .special => specialTable.getD (value &&& 0x3F#32).toNat .res
      | .bcond => bcondCode value
      | .op opCode => opCode }

/-! ## Execution -/

/-- `HI_REG`. -/
def hiReg : ℕ := 32

/-- `LO_REG`. -/
def loReg : ℕ := 33

/-- `PC_REG`. -/
def pcReg : ℕ := 34

/-- `NEXT_PC_REG`. -/
def nextPcReg : ℕ := 35

/-- `PREV_PC_REG`. -/
def prevPcReg : ℕ := 36

/-- `LOAD_REG`. -/
def loadReg : ℕ := 37

/-- `LOAD_VALUE_REG`. -/
def loadValueReg : ℕ := 38

/-- `BAD_VADDR_REG`. -/
def badVaddrReg : ℕ := 39

/-- `SIGN_BIT`. -/
def signBit : BitVec 32 := 0x80000000#32

/-- The registers of the machine. -/
abbrev Registers := ℕ → BitVec 32

/-- A register is written. -/
def Registers.set (registers : Registers) (i : ℕ) (value : BitVec 32) : Registers :=
  Function.update registers i value

/-- `DelayedLoad`. -/
def Registers.delayedLoad (registers : Registers) (nextReg nextValue : BitVec 32) : Registers :=
  let registers := registers.set (registers loadReg).toNat (registers loadValueReg)
  ((registers.set loadReg nextReg).set loadValueReg nextValue).set 0 0#32

/-- What becomes of an instruction. -/
inductive Outcome
  /-- It is executed. -/
  | next (registers : Registers)
  /-- `RaiseException` of an overflow, up to the call of the handler. -/
  | overflow (registers : Registers)
  /-- The operation of the host is not defined. -/
  | undefined

/-- `RaiseException(OVERFLOW_EXCEPTION, 0)`. -/
def Registers.raiseOverflow (registers : Registers) : Outcome :=
  .overflow ((registers.set badVaddrReg 0#32).delayedLoad 0#32 0#32)

/-- The end of `ExecInstruction`, without a new delayed load. -/
def Registers.finish (pcAfter : BitVec 32) (registers : Registers) : Outcome :=
  let registers := registers.delayedLoad 0#32 0#32
  let registers := registers.set prevPcReg (registers pcReg)
  let registers := registers.set pcReg (registers nextPcReg)
  .next (registers.set nextPcReg pcAfter)

/-- The loop of `Mult`, with the number of turns left: the high and the low word. -/
def multLoop : ℕ → BitVec 32 → BitVec 32 → BitVec 32 → BitVec 32 → BitVec 32 →
    BitVec 32 × BitVec 32
  | 0, _, _, _, hi, lo => (hi, lo)
  | n + 1, a, bHi, bLo, hi, lo =>
    let odd := a &&& 1#32 ≠ 0#32
    let lo' := if odd then lo + bLo else lo
    let hi' := if odd then (if lo' < bLo then hi + 1 else hi) + bHi else hi
    if odd ∧ a &&& 0xFFFFFFFE#32 = 0#32 then (hi', lo')
    else
      let bHi' := bHi <<< 1
      let bHi' := if bLo &&& signBit ≠ 0#32 then bHi' ||| 1#32 else bHi'
      multLoop n (a.sshiftRight 1) bHi' (bLo <<< 1) hi' lo'

/-- `Mult`: the high and the low word. -/
def mult (a b : BitVec 32) (signedArith : Bool) : BitVec 32 × BitVec 32 :=
  if a = 0#32 ∨ b = 0#32 then (0#32, 0#32)
  else
    let negative := signedArith && (a.msb ^^ b.msb)
    let a := if signedArith && a.msb then -a else a
    let b := if signedArith && b.msb then -b else b
    let (hi, lo) := multLoop 32 a 0#32 b 0#32 0#32
    if negative then
      let lo := ~~~lo + 1
      (if lo = 0#32 then ~~~hi + 1 else ~~~hi, lo)
    else (hi, lo)

/-- `ExecInstruction`, of the instructions that compute with registers. -/
def execInstruction (instr : Instruction) (registers : Registers) : Option Outcome :=
  let pcAfter := registers nextPcReg + 4
  let rs := registers instr.rs
  let rt := registers instr.rt
  let setRd (value : BitVec 32) := (registers.set instr.rd value).finish pcAfter
  let setRt (value : BitVec 32) := (registers.set instr.rt value).finish pcAfter
  let setHiLo (hi lo : BitVec 32) := ((registers.set loReg lo).set hiReg hi).finish pcAfter
  match instr.opCode with
  | .add =>
    let sum := rs + rt
    if (rs ^^^ rt) &&& signBit = 0#32 ∧ (rs ^^^ sum) &&& signBit ≠ 0#32 then
      some registers.raiseOverflow
    else some (setRd sum)
  | .addi =>
    let sum := rs + instr.extra
    if (rs ^^^ instr.extra) &&& signBit = 0#32 ∧ (instr.extra ^^^ sum) &&& signBit ≠ 0#32 then
      some registers.raiseOverflow
    else some (setRt sum)
  | .addiu => some (setRt (rs + instr.extra))
  | .addu => some (setRd (rs + rt))
  | .and => some (setRd (rs &&& rt))
  | .andi => some (setRt (rs &&& (instr.extra &&& 0xFFFF#32)))
  | .div =>
    if rt = 0#32 then some (setHiLo 0#32 0#32)
    else if rs = BitVec.intMin 32 ∧ rt = -1#32 then some .undefined
    else some (setHiLo (rs.srem rt) (rs.sdiv rt))
  | .divu =>
    if rt = 0#32 then some (setHiLo 0#32 0#32)
    else some (setHiLo (rs % rt) (rs / rt))
  | .lui => some (setRt (instr.extra <<< 16))
  | .mfhi => some (setRd (registers hiReg))
  | .mflo => some (setRd (registers loReg))
  | .mthi => some ((registers.set hiReg rs).finish pcAfter)
  | .mtlo => some ((registers.set loReg rs).finish pcAfter)
  | .mult => some (setHiLo (mult rs rt true).1 (mult rs rt true).2)
  | .multu => some (setHiLo (mult rs rt false).1 (mult rs rt false).2)
  | .nor => some (setRd (~~~(rs ||| rt)))
  | .or => some (setRd (rs ||| rt))
  | .ori => some (setRt (rs ||| (instr.extra &&& 0xFFFF#32)))
  | .sll => some (setRd (rt <<< instr.extra.toNat))
  | .sllv => some (setRd (rt <<< (rs &&& 0x1F#32).toNat))
  | .slt => some (setRd (if rs.slt rt then 1#32 else 0#32))
  | .slti => some (setRt (if rs.slt instr.extra then 1#32 else 0#32))
  | .sltiu => some (setRt (if rs < instr.extra then 1#32 else 0#32))
  | .sltu => some (setRd (if rs < rt then 1#32 else 0#32))
  | .sra => some (setRd (rt.sshiftRight instr.extra.toNat))
  | .srav => some (setRd (rt.sshiftRight (rs &&& 0x1F#32).toNat))
  -- the shifted copy is an `int`, so these shift as those do
  | .srl => some (setRd (rt.sshiftRight instr.extra.toNat))
  | .srlv => some (setRd (rt.sshiftRight (rs &&& 0x1F#32).toNat))
  | .sub =>
    let diff := rs - rt
    if (rs ^^^ rt) &&& signBit ≠ 0#32 ∧ (rs ^^^ diff) &&& signBit ≠ 0#32 then
      some registers.raiseOverflow
    else some (setRd diff)
  | .subu => some (setRd (rs - rt))
  | .xor => some (setRd (rs ^^^ rt))
  | .xori => some (setRt (rs ^^^ (instr.extra &&& 0xFFFF#32)))
  | _ => none

/-! ## Products -/

section Products
variable {a b bHi bLo hi lo : BitVec 32}

theorem and_signBit_ne_zero : a &&& signBit ≠ 0#32 ↔ a.msb = true := by
  have hmin : signBit = BitVec.intMin 32 := rfl
  rw [hmin, ne_eq, Words.and_intMin_eq_zero, Bool.not_eq_false]

theorem and_one_ne_zero : a &&& 1#32 ≠ 0#32 ↔ a.toNat % 2 = 1 := by
  rw [ne_eq, ← BitVec.toNat_inj, BitVec.toNat_and]
  show ¬ a.toNat &&& 1 = 0 ↔ _
  rw [Nat.and_one_is_mod]
  omega

/-- Nothing is left but the lowest bit. -/
theorem eq_one_of_and (hodd : a &&& 1#32 ≠ 0#32) (hrest : a &&& 0xFFFFFFFE#32 = 0#32) :
    a = 1#32 := by
  have hsplit : a = a &&& 1#32 := by
    have hall : a = a &&& (1#32 ||| 0xFFFFFFFE#32) := BitVec.and_allOnes.symm
    rw [BitVec.and_or_distrib_left, hrest, BitVec.or_zero] at hall
    exact hall
  refine BitVec.eq_of_toNat_eq ?_
  rw [and_one_ne_zero] at hodd
  rw [hsplit, BitVec.toNat_and]
  exact (Nat.and_one_is_mod _).trans hodd

/-- The low bits of `a`, after those that were shifted out. -/
theorem sshiftRight_mod {n : ℕ} (hn : n < 32) :
    a.toNat % 2 ^ (n + 1) = a.toNat % 2 + 2 * ((a.sshiftRight 1).toNat % 2 ^ n) := by
  have hlt := a.isLt
  have hhalf : (a.sshiftRight 1).toNat % 2 ^ n = a.toNat / 2 % 2 ^ n := by
    have hdvd : 2 ^ n ∣ 2 ^ 31 := Nat.pow_dvd_pow 2 (by omega)
    cases hmsb : a.msb with
    | false =>
      rw [BitVec.toNat_sshiftRight_of_msb_false hmsb, Nat.shiftRight_eq_div_pow, Nat.pow_one]
    | true =>
      have hsum : 2 ^ 32 - 1 - (2 ^ 32 - 1 - a.toNat) / 2 ^ 1 = a.toNat / 2 + 2 ^ 31 := by
        have := BitVec.msb_eq_true_iff_two_mul_ge.mp hmsb
        omega
      rw [BitVec.toNat_sshiftRight_of_msb_true hmsb, Nat.shiftRight_eq_div_pow, hsum, Nat.add_mod,
        Nat.mod_eq_zero_of_dvd hdvd, Nat.add_zero, Nat.mod_mod]
  rw [hhalf, Nat.pow_succ, Nat.mul_comm, Nat.mod_mul]

/-- The shifted `b`. -/
theorem double_eq :
    (if bLo &&& signBit ≠ 0#32 then bHi <<< 1 ||| 1#32 else bHi <<< 1) ++ (bLo <<< 1) =
      (bHi ++ bLo) + (bHi ++ bLo) := by
  rw [Words.append_double]
  simp only [and_signBit_ne_zero]

theorem ofNat_add_twice (p x : ℕ) (y : BitVec 64) :
    BitVec.ofNat 64 (p + 2 * x) * y = BitVec.ofNat 64 p * y + BitVec.ofNat 64 x * (y + y) := by
  rw [Nat.two_mul, BitVec.ofNat_add, BitVec.ofNat_add]
  ring

/-- **The loop adds the product** of what is left of `a` and the shifted `b`, modulo `2 ^ 64`. -/
theorem multLoop_spec {n : ℕ} (hn : n ≤ 32) :
    (multLoop n a bHi bLo hi lo).1 ++ (multLoop n a bHi bLo hi lo).2 =
      (hi ++ lo) + BitVec.ofNat 64 (a.toNat % 2 ^ n) * (bHi ++ bLo) := by
  induction n generalizing a bHi bLo hi lo with
  | zero =>
    rw [Nat.pow_zero, Nat.mod_one, multLoop, BitVec.zero_mul, BitVec.add_zero]
  | succ n ih =>
    rw [multLoop, sshiftRight_mod (by omega)]
    by_cases hodd : a &&& 1#32 ≠ 0#32
    · have hbit := and_one_ne_zero.mp hodd
      by_cases hrest : a &&& 0xFFFFFFFE#32 = 0#32
      -- the last bit that is set
      · obtain rfl := eq_one_of_and hodd hrest
        rw [if_pos ⟨hodd, hrest⟩]
        have hnone : (BitVec.sshiftRight 1#32 1).toNat % 2 ^ n = 0 := Nat.zero_mod _
        rw [hnone, if_pos hodd, if_pos hodd, ← Words.append_add]
        exact congrArg _ (BitVec.one_mul _).symm
      · rw [if_neg (fun h => hrest h.2), ih (by omega), if_pos hodd, if_pos hodd,
          ← Words.append_add, double_eq, hbit, ofNat_add_twice, ← BitVec.add_assoc,
          show BitVec.ofNat 64 1 * (bHi ++ bLo) = bHi ++ bLo from BitVec.one_mul _]
    · have hbit : a.toNat % 2 = 0 := by
        rw [and_one_ne_zero] at hodd
        omega
      rw [if_neg (fun h => hodd h.1), ih (by omega), if_neg hodd, if_neg hodd, double_eq, hbit,
        ofNat_add_twice, BitVec.zero_mul, BitVec.zero_add]

/-- The product of two numbers without a sign. -/
theorem multLoop_product :
    (multLoop 32 a 0#32 b 0#32 0#32).1 ++ (multLoop 32 a 0#32 b 0#32 0#32).2 =
      BitVec.ofNat 64 (a.toNat * b.toNat) := by
  have hb : (0#32 ++ b : BitVec 64) = BitVec.ofNat 64 b.toNat := by
    have hlt := b.isLt
    refine BitVec.eq_of_toNat_eq ?_
    rw [Words.toNat_append, BitVec.toNat_ofNat, BitVec.toNat_ofNat]
    omega
  have hzero : (0#32 ++ 0#32 : BitVec 64) = 0#64 := rfl
  rw [multLoop_spec (by omega), Nat.mod_eq_of_lt a.isLt, hzero, hb, BitVec.zero_add,
    BitVec.ofNat_mul]

/-- **`MULTU`.** -/
theorem mult_unsigned (a b : BitVec 32) : (mult a b false).1 ++ (mult a b false).2 =
    BitVec.ofNat 64 (a.toNat * b.toNat) := by
  rw [mult]
  split
  · rename_i h
    rcases h with rfl | rfl
    · rw [BitVec.toNat_zero, Nat.zero_mul]
      rfl
    · rw [BitVec.toNat_zero, Nat.mul_zero]
      rfl
  · exact multLoop_product

/-- The number without its sign. -/
theorem toNat_magnitude : (if a.msb then -a else a).toNat = a.toInt.natAbs := by
  have hlt := a.isLt
  rw [BitVec.toInt_eq_msb_cond]
  split
  · rename_i h
    have hbig := BitVec.msb_eq_true_iff_two_mul_ge.mp h
    rw [BitVec.toNat_neg]
    omega
  · omega

/-- **`MULT`.** -/
theorem mult_signed (a b : BitVec 32) : (mult a b true).1 ++ (mult a b true).2 =
    BitVec.ofInt 64 (a.toInt * b.toInt) := by
  have hproduct := multLoop_product (a := if a.msb then -a else a) (b := if b.msb then -b else b)
  rw [toNat_magnitude, toNat_magnitude, ← Int.natAbs_mul] at hproduct
  rw [mult]
  split
  · rename_i h
    rcases h with rfl | rfl
    · rw [BitVec.toInt_zero, Int.zero_mul]
      rfl
    · rw [BitVec.toInt_zero, Int.mul_zero]
      rfl
  · simp only [Bool.true_and]
    by_cases hsign : (a.msb ^^ b.msb) = true
    -- the signs are different
    · have hneg : a.toInt * b.toInt = -((a.toInt * b.toInt).natAbs : ℤ) := by
        refine (Int.neg_eq_comm.mp (Int.ofNat_natAbs_of_nonpos ?_).symm).symm
        rw [BitVec.msb_eq_toInt, BitVec.msb_eq_toInt] at hsign
        rcases lt_or_ge a.toInt 0 with ha | ha
        · have hb : ¬ b.toInt < 0 := by simpa [ha] using hsign
          exact Int.mul_nonpos_of_nonpos_of_nonneg ha.le (Int.not_lt.mp hb)
        · have hb : b.toInt < 0 := by simpa [Int.not_lt.mpr ha] using hsign
          exact Int.mul_nonpos_of_nonneg_of_nonpos ha hb.le
      rw [if_pos hsign, ← Words.append_neg, hproduct, hneg, BitVec.ofInt_neg, BitVec.ofInt_natCast,
        Int.natAbs_neg, Int.natAbs_natCast]
    · have hpos : a.toInt * b.toInt = ((a.toInt * b.toInt).natAbs : ℤ) := by
        refine (Int.natAbs_of_nonneg ?_).symm
        rw [BitVec.msb_eq_toInt, BitVec.msb_eq_toInt] at hsign
        rcases lt_or_ge a.toInt 0 with ha | ha
        · have hb : b.toInt < 0 := by simpa [ha] using hsign
          exact Int.mul_nonneg_of_nonpos_of_nonpos ha.le hb.le
        · have hb : ¬ b.toInt < 0 := by simpa [Int.not_lt.mpr ha] using hsign
          exact Int.mul_nonneg ha (Int.not_lt.mp hb)
      rw [if_neg hsign, hproduct, hpos, BitVec.ofInt_natCast, Int.natAbs_natCast]

end Products
end Machine
end PaldOs
