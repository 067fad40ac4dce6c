import PaldOs.Mips

/-! # The instruction set

What the arithmetic instructions of the architecture are to do, from the fields of the instruction
word and from numbers: a sum that does not fit is an overflow, a product has 64 bits, a quotient is
rounded towards zero.  The registers of the machine are seen as those of the architecture
(`visible`), and what `ExecInstruction` makes of them is compared with this.

The instructions follow it, but for three.  The two logical right shifts take the sign with them,
and the signed division stops the host at the quotient that does not fit
(`execInstruction_follows_iff`).
-/
namespace PaldOs
namespace Isa

/-! ## Instruction words -/

/-- Bits 26 to 31. -/
def opcode (w : BitVec 32) : ℕ := w.toNat / 2 ^ 26

/-- Five bits from bit `n` on: a register. -/
def field (w : BitVec 32) (n : ℕ) : Fin 32 := ⟨w.toNat / 2 ^ n % 32, Nat.mod_lt _ (by decide)⟩

/-- The first source register. -/
def rs (w : BitVec 32) : Fin 32 := field w 21

/-- The second source register, and the target of an immediate instruction. -/
def rt (w : BitVec 32) : Fin 32 := field w 16

/-- The target register. -/
def rd (w : BitVec 32) : Fin 32 := field w 11

/-- The shift amount. -/
def shamt (w : BitVec 32) : ℕ := field w 6

/-- Bits 0 to 5. -/
def funct (w : BitVec 32) : ℕ := w.toNat % 2 ^ 6

/-- Bits 0 to 15. -/
def immediate (w : BitVec 32) : ℕ := w.toNat % 2 ^ 16

/-- Bits 0 to 15 as a number with a sign. -/
def signedImmediate (w : BitVec 32) : ℤ :=
  if immediate w < 2 ^ 15 then immediate w else (immediate w : ℤ) - 2 ^ 16

/-! ## What an instruction does -/

/-- The registers of the architecture. -/
@[ext] structure Cpu where
  gpr : Fin 32 → BitVec 32
  hi : BitVec 32
  lo : BitVec 32
  pc : BitVec 32
  nextPc : BitVec 32

namespace Cpu

/-- A register is written; the first one stays what it is. -/
def write (c : Cpu) (i : Fin 32) (value : BitVec 32) : Cpu :=
  if i = 0 then c else { c with gpr := Function.update c.gpr i value }

theorem write_gpr (c : Cpu) (i j : Fin 32) (value : BitVec 32) :
    (c.write i value).gpr j = if i ≠ 0 ∧ j = i then value else c.gpr j := by
  rw [write]
  by_cases hi : i = 0
  · rw [if_pos hi, if_neg (fun h => h.1 hi)]
  · rw [if_neg hi]
    dsimp only
    rw [Function.update_apply]
    simp only [ne_eq, hi, not_false_eq_true, true_and]

/-- The next instruction. -/
def advance (c : Cpu) : Cpu := { c with pc := c.nextPc, nextPc := c.nextPc + 4 }

end Cpu

/-- What an instruction does with the registers. -/
inductive Operation
  /-- A register gets a value. -/
  | write (i : Fin 32) (value : BitVec 32)
  /-- A register gets a number, if it is one of 32 bits with a sign. -/
  | checked (i : Fin 32) (value : ℤ)
  /-- `HI` and `LO` get values. -/
  | hiLo (hi lo : BitVec 32)
  /-- `HI` and `LO` get any values. -/
  | unpredictable

/-- `HI` and `LO` get a number of 64 bits. -/
def Operation.double (value : BitVec 64) : Operation :=
  .hiLo (value.extractLsb' 32 32) (value.extractLsb' 0 32)

/-- The instructions that compute with registers. -/
def special (w : BitVec 32) (c : Cpu) : Option Operation :=
  let s := c.gpr (rs w)
  let t := c.gpr (rt w)
  let set (value : BitVec 32) := some (Operation.write (rd w) value)
  match funct w with
  | 0 => set (t <<< shamt w)
  | 2 => set (t >>> shamt w)
  | 3 => set (t.sshiftRight (shamt w))
  | 4 => set (t <<< (s.toNat % 32))
  | 6 => set (t >>> (s.toNat % 32))
  | 7 => set (t.sshiftRight (s.toNat % 32))
  | 16 => set c.hi
  | 17 => some (.hiLo s c.lo)
  | 18 => set c.lo
  | 19 => some (.hiLo c.hi s)
  | 24 => some (.double (BitVec.ofInt 64 (s.toInt * t.toInt)))
  | 25 => some (.double (BitVec.ofNat 64 (s.toNat * t.toNat)))
  | 26 =>
    if t = 0#32 then some .unpredictable
    else some (.hiLo (BitVec.ofInt 32 (s.toInt.tmod t.toInt))
      (BitVec.ofInt 32 (s.toInt.tdiv t.toInt)))
  | 27 =>
    if t = 0#32 then some .unpredictable
    else some (.hiLo (BitVec.ofNat 32 (s.toNat % t.toNat)) (BitVec.ofNat 32 (s.toNat / t.toNat)))
  | 32 => some (.checked (rd w) (s.toInt + t.toInt))
  | 33 => set (BitVec.ofInt 32 (s.toInt + t.toInt))
  | 34 => some (.checked (rd w) (s.toInt - t.toInt))
  | 35 => set (BitVec.ofInt 32 (s.toInt - t.toInt))
  | 36 => set (s &&& t)
  | 37 => set (s ||| t)
  | 38 => set (s ^^^ t)
  | 39 => set (~~~(s ||| t))
  | 42 => set (if s.toInt < t.toInt then 1#32 else 0#32)
  | 43 => set (if s.toNat < t.toNat then 1#32 else 0#32)
  | _ => none

/-- **The arithmetic instructions.** -/
def operation (w : BitVec 32) (c : Cpu) : Option Operation :=
  let s := c.gpr (rs w)
  let set (value : BitVec 32) := some (Operation.write (rt w) value)
  match opcode w with
  | 0 => special w c
  | 8 => some (.checked (rt w) (s.toInt + signedImmediate w))
  | 9 => set (BitVec.ofInt 32 (s.toInt + signedImmediate w))
  | 10 => set (if s.toInt < signedImmediate w then 1#32 else 0#32)
  | 11 => set (if s.toNat < (BitVec.ofInt 32 (signedImmediate w)).toNat then 1#32 else 0#32)
  | 12 => set (s &&& BitVec.ofNat 32 (immediate w))
  | 13 => set (s ||| BitVec.ofNat 32 (immediate w))
  | 14 => set (s ^^^ BitVec.ofNat 32 (immediate w))
  | 15 => set (BitVec.ofNat 32 (immediate w * 2 ^ 16))
  | _ => none

/-- **The word is none of the three**: no logical right shift of a number with a sign, unless the
shift is by nothing or into the first register, and no signed division whose quotient does not
fit. -/
def Harmless (w : BitVec 32) (c : Cpu) : Prop :=
  opcode w = 0 →
    (funct w = 2 → rd w = 0 ∨ shamt w = 0 ∨ 0 ≤ (c.gpr (rt w)).toInt) ∧
    (funct w = 6 → rd w = 0 ∨ (c.gpr (rs w)).toNat % 32 = 0 ∨ 0 ≤ (c.gpr (rt w)).toInt) ∧
    (funct w = 26 → ¬ (c.gpr (rs w) = BitVec.intMin 32 ∧ c.gpr (rt w) = -1#32))

/-- What can be seen of an instruction. -/
inductive Effect
  | next (c : Cpu)
  | overflow (c : Cpu)

/-- The operation allows the effect. -/
def Operation.Allows (c : Cpu) : Operation → Effect → Prop
  | .write i value, effect => effect = .next (c.write i value).advance
  | .checked i value, effect => effect =
      if -2 ^ 31 ≤ value ∧ value < 2 ^ 31 then .next (c.write i (BitVec.ofInt 32 value)).advance
      else .overflow c
  | .hiLo hi lo, effect => effect = .next { c with hi := hi, lo := lo }.advance
  | .unpredictable, effect => ∃ hi lo, effect = .next { c with hi := hi, lo := lo }.advance

end Isa

namespace Machine

/-- The registers of the architecture. -/
def visible (registers : Registers) : Isa.Cpu where
  gpr i := registers i
  hi := registers hiReg
  lo := registers loReg
  pc := registers pcReg
  nextPc := registers nextPcReg

/-- What can be seen of the outcome. -/
def Outcome.effect : Outcome → Option Isa.Effect
  | .next registers => some (.next (visible registers))
  | .overflow registers => some (.overflow (visible registers))
  | .undefined => none

/-- **The machine follows the instruction set** with this word and these registers. -/
def Follows (w : BitVec 32) (registers : Registers) : Prop :=
  ∃ op outcome effect, Isa.operation w (visible registers) = some op ∧
    execInstruction (decode w) registers = some outcome ∧ outcome.effect = some effect ∧
    op.Allows (visible registers) effect

/-! ## The fields -/

section Fields
variable {w : BitVec 32}

theorem field_eq (n : ℕ) : (w >>> n &&& 0x1F#32).toNat = (Isa.field w n : ℕ) := by
  rw [BitVec.toNat_and, BitVec.toNat_ushiftRight, Nat.shiftRight_eq_div_pow]
  exact Nat.and_two_pow_sub_one_eq_mod _ 5

theorem opcode_eq : (w >>> 26 &&& 0x3F#32).toNat = Isa.opcode w := by
  have hlt := w.isLt
  rw [BitVec.toNat_and, BitVec.toNat_ushiftRight, Nat.shiftRight_eq_div_pow]
  refine (Nat.and_two_pow_sub_one_eq_mod _ 6).trans (Nat.mod_eq_of_lt ?_)
  omega

theorem funct_eq : (w &&& 0x3F#32).toNat = Isa.funct w := by
  rw [BitVec.toNat_and]
  exact Nat.and_two_pow_sub_one_eq_mod _ 6

theorem immediate_eq : (w &&& 0xFFFF#32).toNat = Isa.immediate w := by
  rw [BitVec.toNat_and]
  exact Nat.and_two_pow_sub_one_eq_mod _ 16

/-- The sign of the immediate operand. -/
theorem immediate_sign : (w &&& 0xFFFF#32) &&& 0x8000#32 ≠ 0#32 ↔ 2 ^ 15 ≤ Isa.immediate w := by
  have hmask : (w &&& 0xFFFF#32) &&& 0x8000#32 = w &&& BitVec.twoPow 32 15 := by
    rw [BitVec.and_assoc]
    rfl
  have hbit : w.getLsbD 15 = true ↔ 2 ^ 15 ≤ Isa.immediate w := by
    rw [BitVec.getLsbD, Nat.testBit_eq_decide_div_mod_eq, decide_eq_true_iff, Isa.immediate]
    omega
  rw [hmask, BitVec.and_twoPow, ← hbit]
  split
  · rename_i h
    exact iff_of_true (by decide) h
  · rename_i h
    exact iff_of_false (fun hne => hne rfl) h

/-- The sign of the immediate operand is extended. -/
theorem signExtended_eq : signExtended w = BitVec.ofInt 32 (Isa.signedImmediate w) := by
  have hlt : Isa.immediate w < 2 ^ 16 := Nat.mod_lt _ (by decide)
  refine BitVec.eq_of_toNat_eq ?_
  rw [BitVec.toNat_ofInt, signExtended, Isa.signedImmediate]
  split
  · rename_i hneg
    rw [immediate_sign] at hneg
    have hdisjoint : (w &&& 0xFFFF#32) &&& 0xFFFF0000#32 = 0#32 := by
      rw [BitVec.and_assoc]
      exact BitVec.and_zero
    rw [← BitVec.add_eq_or_of_and_eq_zero _ _ hdisjoint, BitVec.toNat_add, immediate_eq,
      if_neg (by omega)]
    show (Isa.immediate w + 4294901760) % 2 ^ 32 = _
    omega
  · rename_i hpos
    rw [immediate_sign] at hpos
    rw [immediate_eq, if_pos (by omega)]
    omega

theorem signExtended_and : signExtended w &&& 0xFFFF#32 = BitVec.ofNat 32 (Isa.immediate w) := by
  have hlow : signExtended w &&& 0xFFFF#32 = w &&& 0xFFFF#32 := by
    rw [signExtended]
    split
    · rw [BitVec.and_or_distrib_right, BitVec.and_assoc]
      exact BitVec.or_zero
    · rw [BitVec.and_assoc]
      rfl
  refine BitVec.eq_of_toNat_eq ?_
  rw [hlow, immediate_eq, BitVec.toNat_ofNat, Isa.immediate]
  omega

/-- An instruction with a function code. -/
theorem decode_special (h : Isa.opcode w = 0) : decode w =
    ⟨specialTable.getD (Isa.funct w) .res, Isa.rs w, Isa.rt w, Isa.rd w,
      w >>> 6 &&& 0x1F#32⟩ := by
  unfold decode
  rw [opcode_eq, funct_eq, h, field_eq, field_eq, field_eq]
  rfl

/-- An instruction with an immediate operand. -/
theorem decode_immediate {opCode : OpCode}
    (h : opTable[Isa.opcode w]? = some (.op opCode, .ifmt)) :
    decode w = ⟨opCode, Isa.rs w, Isa.rt w, Isa.rd w, BitVec.ofInt 32 (Isa.signedImmediate w)⟩ := by
  unfold decode
  rw [opcode_eq, List.getD_eq_getElem?_getD, h, field_eq, field_eq, field_eq, ← signExtended_eq]
  rfl

end Fields

/-! ## The registers afterwards -/

section Registers
variable {registers : Registers}

theorem Registers.set_self (i : ℕ) (value : BitVec 32) : registers.set i value i = value :=
  Function.update_self ..

theorem Registers.set_of_ne {i j : ℕ} (value : BitVec 32) (h : j ≠ i) :
    registers.set i value j = registers j := Function.update_of_ne h ..

/-- **Without a delayed load pending**, the delayed load only writes the places for the next one. -/
theorem Registers.delayedLoad_apply (hload : registers loadReg = 0#32) {i : ℕ} (hi : i ≠ 0)
    (hreg : i ≠ loadReg) (hvalue : i ≠ loadValueReg) (nextReg nextValue : BitVec 32) :
    registers.delayedLoad nextReg nextValue i = registers i := by
  rw [delayedLoad, set_of_ne _ hi, set_of_ne _ hvalue, set_of_ne _ hreg, hload]
  exact set_of_ne _ hi

theorem Registers.delayedLoad_zero (nextReg nextValue : BitVec 32) :
    registers.delayedLoad nextReg nextValue 0 = 0#32 := set_self ..

/-- What can be seen after an instruction. -/
theorem effect_finish (hload : registers loadReg = 0#32) (pcAfter : BitVec 32) :
    (registers.finish pcAfter).effect = some (.next
      { visible (registers.set 0 0#32) with pc := registers nextPcReg, nextPc := pcAfter }) := by
  have hnext : registers.delayedLoad 0#32 0#32 nextPcReg = registers nextPcReg :=
    Registers.delayedLoad_apply hload (by decide) (by decide) (by decide) _ _
  -- a register that is no program counter
  have hother : ∀ i, i ≠ nextPcReg → i ≠ pcReg → i ≠ prevPcReg → i ≠ loadReg → i ≠ loadValueReg →
      ∀ a b c, (((registers.delayedLoad 0#32 0#32).set prevPcReg a).set pcReg b).set nextPcReg c i =
        registers.set 0 0#32 i := by
    intro i h1 h2 h3 h4 h5 a b c
    rw [Registers.set_of_ne _ h1, Registers.set_of_ne _ h2, Registers.set_of_ne _ h3]
    rcases eq_or_ne i 0 with rfl | hi
    · rw [Registers.delayedLoad_zero, Registers.set_self]
    · rw [Registers.delayedLoad_apply hload hi h4 h5, Registers.set_of_ne _ hi]
  rw [Registers.finish, Outcome.effect]
  refine congrArg some (congrArg Isa.Effect.next (Isa.Cpu.ext ?_ ?_ ?_ ?_ ?_)) <;>
    dsimp only [visible]
  · funext i
    have hi := i.isLt
    rw [hother]
    all_goals simp only [nextPcReg, pcReg, prevPcReg, loadReg, loadValueReg]; omega
  · rw [hother] <;> decide
  · rw [hother] <;> decide
  · rw [Registers.set_of_ne _ (by decide), Registers.set_self, Registers.set_of_ne _ (by decide),
      hnext]
  · rw [Registers.set_self]

theorem effect_raiseOverflow (hload : registers loadReg = 0#32) (hzero : registers 0 = 0#32) :
    registers.raiseOverflow.effect = some (.overflow (visible registers)) := by
  have hload' : registers.set badVaddrReg 0#32 loadReg = 0#32 := by
    rw [Registers.set_of_ne _ (by decide), hload]
  have hother : ∀ i, i ≠ badVaddrReg → i ≠ loadReg → i ≠ loadValueReg →
      (registers.set badVaddrReg 0#32).delayedLoad 0#32 0#32 i = registers i := by
    intro i h1 h2 h3
    rcases eq_or_ne i 0 with rfl | hi
    · rw [Registers.delayedLoad_zero, hzero]
    · rw [Registers.delayedLoad_apply hload' hi h2 h3, Registers.set_of_ne _ h1]
  rw [Registers.raiseOverflow, Outcome.effect]
  refine congrArg some (congrArg Isa.Effect.overflow (Isa.Cpu.ext ?_ ?_ ?_ ?_ ?_)) <;>
    dsimp only [visible]
  · funext i
    have hi := i.isLt
    rw [hother]
    all_goals simp only [badVaddrReg, loadReg, loadValueReg]; omega
  all_goals rw [hother] <;> decide

/-- After an instruction the first register is 0 and no delayed load is pending. -/
theorem finish_ready {registers' : Registers} {pcAfter : BitVec 32}
    (h : registers.finish pcAfter = .next registers') :
    registers' 0 = 0#32 ∧ registers' loadReg = 0#32 := by
  obtain rfl := Outcome.next.inj h
  have hload : registers.delayedLoad 0#32 0#32 loadReg = 0#32 := by
    rw [Registers.delayedLoad, Registers.set_of_ne _ (by decide), Registers.set_of_ne _ (by decide),
      Registers.set_self]
  constructor
  · rw [Registers.set_of_ne _ (by decide), Registers.set_of_ne _ (by decide),
      Registers.set_of_ne _ (by decide), Registers.delayedLoad_zero]
  · rw [Registers.set_of_ne _ (by decide), Registers.set_of_ne _ (by decide),
      Registers.set_of_ne _ (by decide), hload]

/-- **The arithmetic instructions leave the registers ready** for the next one. -/
theorem execInstruction_ready {instr : Instruction} {registers' : Registers}
    (h : execInstruction instr registers = some (.next registers')) :
    registers' 0 = 0#32 ∧ registers' loadReg = 0#32 := by
  unfold execInstruction at h
  dsimp only at h
  split at h
  case h_33 => cases h
  all_goals repeat' split at h
  all_goals first
    | exact finish_ready (Option.some.inj h)
    | cases Option.some.inj h

/-- What can be seen, if what is in the registers is what is in those of `c`. -/
theorem effect_of_eq {c : Isa.Cpu} (hload : registers loadReg = 0#32)
    (hgpr : ∀ i : Fin 32, registers.set 0 0#32 i = c.gpr i) (hhi : registers hiReg = c.hi)
    (hlo : registers loReg = c.lo) (hnext : registers nextPcReg = c.nextPc) :
    (registers.finish (c.nextPc + 4)).effect = some (.next c.advance) := by
  have hhi' : hiReg ≠ 0 := by decide
  have hlo' : loReg ≠ 0 := by decide
  rw [effect_finish hload]
  refine congrArg some (congrArg Isa.Effect.next (Isa.Cpu.ext (funext hgpr) ?_ ?_ hnext rfl))
  · exact (Registers.set_of_ne 0#32 hhi').trans hhi
  · exact (Registers.set_of_ne 0#32 hlo').trans hlo

theorem effect_set (hload : registers loadReg = 0#32) (hzero : registers 0 = 0#32) (i : Fin 32)
    (value : BitVec 32) : ((registers.set i value).finish (registers nextPcReg + 4)).effect =
      some (.next ((visible registers).write i value).advance) := by
  have hi := i.isLt
  have hother : ∀ j, 32 ≤ j → registers.set i value j = registers j :=
    fun j hj => Registers.set_of_ne _ (by omega)
  have hc : ((visible registers).write i value).hi = registers hiReg ∧
      ((visible registers).write i value).lo = registers loReg ∧
      ((visible registers).write i value).nextPc = registers nextPcReg := by
    rw [Isa.Cpu.write]
    split <;> exact ⟨rfl, rfl, rfl⟩
  obtain ⟨hhi, hlo, hnext⟩ := hc
  rw [← hnext]
  refine effect_of_eq ((hother _ (by decide)).trans hload) (fun j => ?_)
    ((hother _ (by decide)).trans hhi.symm) ((hother _ (by decide)).trans hlo.symm)
    ((hother _ (by decide)).trans hnext.symm)
  have hgpr : (visible registers).gpr j = registers j := rfl
  rw [Isa.Cpu.write_gpr, hgpr]
  rcases eq_or_ne j 0 with rfl | hj
  · rw [if_neg (fun h => h.1 h.2.symm)]
    exact (Registers.set_self _ _).trans hzero.symm
  · have hj' : (j : ℕ) ≠ 0 := fun h => hj (Fin.ext h)
    rw [Registers.set_of_ne _ hj']
    rcases eq_or_ne j i with rfl | hne
    · rw [if_pos ⟨hj, rfl⟩, Registers.set_self]
    · rw [if_neg (fun h => hne h.2), Registers.set_of_ne _ (fun h => hne (Fin.ext h))]

theorem effect_hiLo (hload : registers loadReg = 0#32) (hzero : registers 0 = 0#32)
    (hi lo : BitVec 32) :
    (((registers.set loReg lo).set hiReg hi).finish (registers nextPcReg + 4)).effect =
      some (.next { visible registers with hi := hi, lo := lo }.advance) := by
  have hother : ∀ j, j ≠ hiReg → j ≠ loReg →
      (registers.set loReg lo).set hiReg hi j = registers j :=
    fun j h h' => (Registers.set_of_ne _ h).trans (Registers.set_of_ne _ h')
  have hne : loReg ≠ hiReg := by decide
  refine effect_of_eq (c := { visible registers with hi := hi, lo := lo })
    ((hother _ (by decide) (by decide)).trans hload) (fun j => ?_) (Registers.set_self _ _)
    ((Registers.set_of_ne _ hne).trans (Registers.set_self _ _))
    (hother nextPcReg (by decide) (by decide))
  have hj := j.isLt
  rcases eq_or_ne j 0 with rfl | hj'
  · exact (Registers.set_self _ _).trans hzero.symm
  · have hj' : (j : ℕ) ≠ 0 := fun h => hj' (Fin.ext h)
    refine (Registers.set_of_ne _ hj').trans (hother _ ?_ ?_)
    · show (j : ℕ) ≠ 32
      omega
    · show (j : ℕ) ≠ 33
      omega

end Registers

/-! ## Following the instruction set -/

section Follows
variable {w : BitVec 32} {registers : Registers} {op : Isa.Operation} {outcome : Outcome}

theorem follows_iff (hop : Isa.operation w (visible registers) = some op)
    (hexec : execInstruction (decode w) registers = some outcome) :
    Follows w registers ↔ ∃ effect, outcome.effect = some effect ∧
      op.Allows (visible registers) effect := by
  constructor
  · rintro ⟨op', outcome', effect, hop', hexec', heffect, hallows⟩
    obtain rfl := Option.some.inj (hop'.symm.trans hop)
    obtain rfl := Option.some.inj (hexec'.symm.trans hexec)
    exact ⟨effect, heffect, hallows⟩
  · rintro ⟨effect, heffect, hallows⟩
    exact ⟨op, outcome, effect, hop, hexec, heffect, hallows⟩

/-- A register is written. -/
theorem follows_write (hzero : registers 0 = 0#32) (hload : registers loadReg = 0#32)
    {i : Fin 32} {value value' : BitVec 32}
    (hop : Isa.operation w (visible registers) = some (.write i value))
    (hexec : execInstruction (decode w) registers =
      some ((registers.set i value').finish (registers nextPcReg + 4))) :
    Follows w registers ↔ i = 0 ∨ value' = value := by
  rw [follows_iff hop hexec, effect_set hload hzero]
  constructor
  · rintro ⟨effect, heffect, hallows⟩
    obtain rfl := Option.some.inj heffect
    have hsame := congrArg (fun c : Isa.Cpu => c.gpr i) (Isa.Effect.next.inj hallows)
    have hsame : ((visible registers).write i value').gpr i =
        ((visible registers).write i value).gpr i := hsame
    rw [Isa.Cpu.write_gpr, Isa.Cpu.write_gpr] at hsame
    by_cases hi : i = 0
    · exact .inl hi
    · rw [if_pos ⟨hi, rfl⟩, if_pos ⟨hi, rfl⟩] at hsame
      exact .inr hsame
  · intro h
    refine ⟨_, rfl, congrArg Isa.Effect.next (congrArg Isa.Cpu.advance ?_)⟩
    rcases h with rfl | rfl
    · rfl
    · rfl

/-- `HI` and `LO` are written. -/
theorem follows_hiLo (hzero : registers 0 = 0#32) (hload : registers loadReg = 0#32)
    {hi lo hi' lo' : BitVec 32}
    (hop : Isa.operation w (visible registers) = some (.hiLo hi lo))
    (hexec : execInstruction (decode w) registers =
      some (((registers.set loReg lo').set hiReg hi').finish (registers nextPcReg + 4)))
    (hhi : hi' = hi) (hlo : lo' = lo) : Follows w registers := by
  rw [follows_iff hop hexec, effect_hiLo hload hzero]
  exact ⟨_, rfl, by rw [hhi, hlo]; rfl⟩

/-- `HI` and `LO` are written with anything. -/
theorem follows_unpredictable (hzero : registers 0 = 0#32) (hload : registers loadReg = 0#32)
    {hi lo : BitVec 32} (hop : Isa.operation w (visible registers) = some .unpredictable)
    (hexec : execInstruction (decode w) registers =
      some (((registers.set loReg lo).set hiReg hi).finish (registers nextPcReg + 4))) :
    Follows w registers := by
  rw [follows_iff hop hexec, effect_hiLo hload hzero]
  exact ⟨_, rfl, hi, lo, rfl⟩

/-- A register is written unless there is an overflow. -/
theorem follows_checked (hzero : registers 0 = 0#32) (hload : registers loadReg = 0#32)
    {i : Fin 32} {value : ℤ} {value' : BitVec 32} {overflow : Prop} [Decidable overflow]
    (hop : Isa.operation w (visible registers) = some (.checked i value))
    (hexec : execInstruction (decode w) registers =
      if overflow then some registers.raiseOverflow
      else some ((registers.set i value').finish (registers nextPcReg + 4)))
    (hoverflow : overflow ↔ ¬ (-2 ^ 31 ≤ value ∧ value < 2 ^ 31))
    (hvalue : value' = BitVec.ofInt 32 value) : Follows w registers := by
  by_cases h : overflow
  · rw [if_pos h] at hexec
    rw [follows_iff hop hexec, effect_raiseOverflow hload hzero]
    refine ⟨_, rfl, ?_⟩
    rw [Isa.Operation.Allows, if_neg (hoverflow.mp h)]
  · rw [if_neg h] at hexec
    rw [follows_iff hop hexec, effect_set hload hzero]
    refine ⟨_, rfl, ?_⟩
    rw [Isa.Operation.Allows, if_pos (not_not.mp (mt hoverflow.mpr h)), hvalue]

/-- A sum with a sign. -/
theorem add_overflow (a b : BitVec 32) :
    ((a ^^^ b) &&& signBit = 0#32 ∧ (a ^^^ (a + b)) &&& signBit ≠ 0#32) ↔
      ¬ (-2 ^ 31 ≤ a.toInt + b.toInt ∧ a.toInt + b.toInt < 2 ^ 31) := by
  have hmin : signBit = BitVec.intMin 32 := rfl
  rw [hmin, ← Words.saddOverflow_iff, BitVec.saddOverflow, Bool.or_eq_true, decide_eq_true_iff,
    decide_eq_true_iff]
  omega

/-- A difference with a sign. -/
theorem sub_overflow (a b : BitVec 32) :
    ((a ^^^ b) &&& signBit ≠ 0#32 ∧ (a ^^^ (a - b)) &&& signBit ≠ 0#32) ↔
      ¬ (-2 ^ 31 ≤ a.toInt - b.toInt ∧ a.toInt - b.toInt < 2 ^ 31) := by
  have hmin : signBit = BitVec.intMin 32 := rfl
  rw [hmin, ← Words.ssubOverflow_iff, BitVec.ssubOverflow, Bool.or_eq_true, decide_eq_true_iff,
    decide_eq_true_iff]
  omega

theorem add_eq_ofInt (a b : BitVec 32) : a + b = BitVec.ofInt 32 (a.toInt + b.toInt) := by
  rw [BitVec.ofInt_add, BitVec.ofInt_toInt, BitVec.ofInt_toInt]

theorem sub_eq_ofInt (a b : BitVec 32) : a - b = BitVec.ofInt 32 (a.toInt - b.toInt) := by
  rw [Int.sub_eq_add_neg, BitVec.ofInt_add, BitVec.ofInt_neg, BitVec.ofInt_toInt,
    BitVec.ofInt_toInt, BitVec.sub_eq_add_neg]

theorem slt_eq (a b : BitVec 32) : (if a.slt b then 1#32 else 0#32) =
    if a.toInt < b.toInt then 1#32 else 0#32 := by
  simp only [BitVec.slt_iff_toInt_lt]

/-- The shift amount of a register. -/
theorem and_mask (a : BitVec 32) : (a &&& 0x1F#32).toNat = a.toNat % 32 := by
  rw [BitVec.toNat_and]
  exact Nat.and_two_pow_sub_one_eq_mod _ 5

/-- **The arithmetic shift is the logical one** where there is no sign or no shift. -/
theorem sshiftRight_eq_iff {a : BitVec 32} {n : ℕ} :
    a.sshiftRight n = a >>> n ↔ n = 0 ∨ 0 ≤ a.toInt := by
  rcases Nat.eq_zero_or_pos n with rfl | hn
  · rw [BitVec.sshiftRight_zero, BitVec.ushiftRight_zero]
    exact iff_of_true rfl (.inl rfl)
  · rw [or_iff_right hn.ne']
    constructor
    · intro h
      have hsign := congrArg BitVec.msb h
      rw [BitVec.msb_sshiftRight, BitVec.msb_ushiftRight, decide_eq_true hn, Bool.not_true,
        Bool.false_and, BitVec.msb_eq_toInt, decide_eq_false_iff_not] at hsign
      exact Int.not_lt.mp hsign
    · intro h
      refine BitVec.sshiftRight_eq_of_msb_false ?_
      rw [BitVec.msb_eq_toInt, decide_eq_false_iff_not]
      exact Int.not_lt.mpr h

/-- The two words of a number of 64 bits. -/
theorem extract_of_append {hi lo : BitVec 32} {value : BitVec 64} (h : hi ++ lo = value) :
    hi = value.extractLsb' 32 32 ∧ lo = value.extractLsb' 0 32 := by
  rw [← h]
  exact ⟨BitVec.extractLsb'_append_eq_left.symm, BitVec.extractLsb'_append_eq_right.symm⟩

theorem sdiv_eq {a b : BitVec 32} : a.sdiv b = BitVec.ofInt 32 (a.toInt.tdiv b.toInt) := by
  refine BitVec.eq_of_toInt_eq ?_
  rw [BitVec.toInt_sdiv, BitVec.toInt_ofInt]

theorem srem_eq {a b : BitVec 32} : a.srem b = BitVec.ofInt 32 (a.toInt.tmod b.toInt) := by
  rw [← BitVec.toInt_srem, BitVec.ofInt_toInt]

/-- An instruction with a function code is executed by that code. -/
theorem exec_special (registers : Registers) {k : ℕ} (h0 : Isa.opcode w = 0)
    (hk : Isa.funct w = k) :
    execInstruction (decode w) registers =
      execInstruction ⟨specialTable.getD k .res, Isa.rs w, Isa.rt w, Isa.rd w,
        w >>> 6 &&& 0x1F#32⟩ registers := by
  rw [decode_special h0, hk]

/-- **The instructions with a function code** that follow the instruction set. -/
theorem follows_special (hzero : registers 0 = 0#32) (hload : registers loadReg = 0#32)
    (h0 : Isa.opcode w = 0) (hop : Isa.operation w (visible registers) = some op)
    (hsrl : Isa.funct w ≠ 2) (hsrlv : Isa.funct w ≠ 6) (hdiv : Isa.funct w ≠ 26) :
    Follows w registers := by
  have hs : (visible registers).gpr (Isa.rs w) = registers (Isa.rs w) := rfl
  have ht : (visible registers).gpr (Isa.rt w) = registers (Isa.rt w) := rfl
  have hspecial := hop
  rw [Isa.operation, h0] at hspecial
  have hspecial : Isa.special w (visible registers) = some op := hspecial
  unfold Isa.special at hspecial
  dsimp only at hspecial
  rw [hs, ht] at hspecial
  split at hspecial
  case h_1 hk =>
    obtain rfl := Option.some.inj hspecial
    refine (follows_write hzero hload hop ((exec_special registers h0 hk).trans rfl)).mpr (.inr ?_)
    exact congrArg (registers (Isa.rt w) <<< ·) (field_eq 6)
  case h_2 hk => exact absurd hk hsrl
  case h_3 hk =>
    obtain rfl := Option.some.inj hspecial
    refine (follows_write hzero hload hop ((exec_special registers h0 hk).trans rfl)).mpr (.inr ?_)
    exact congrArg (registers (Isa.rt w)).sshiftRight (field_eq 6)
  case h_4 hk =>
    obtain rfl := Option.some.inj hspecial
    refine (follows_write hzero hload hop ((exec_special registers h0 hk).trans rfl)).mpr (.inr ?_)
    exact congrArg (registers (Isa.rt w) <<< ·) (and_mask _)
  case h_5 hk => exact absurd hk hsrlv
  case h_6 hk =>
    obtain rfl := Option.some.inj hspecial
    refine (follows_write hzero hload hop ((exec_special registers h0 hk).trans rfl)).mpr (.inr ?_)
    exact congrArg (registers (Isa.rt w)).sshiftRight (and_mask _)
  case h_7 hk =>
    obtain rfl := Option.some.inj hspecial
    refine (follows_write hzero hload hop ((exec_special registers h0 hk).trans rfl)).mpr (.inr ?_)
    rfl
  case h_8 hk =>
    obtain rfl := Option.some.inj hspecial
    have hself : registers.set loReg (registers loReg) = registers := Function.update_eq_self _ _
    refine follows_hiLo hzero hload hop ((exec_special registers h0 hk).trans ?_) rfl rfl
    show _ = some (((registers.set loReg (registers loReg)).set hiReg _).finish _)
    rw [hself]
    rfl
  case h_9 hk =>
    obtain rfl := Option.some.inj hspecial
    refine (follows_write hzero hload hop ((exec_special registers h0 hk).trans rfl)).mpr (.inr ?_)
    rfl
  case h_10 hk =>
    obtain rfl := Option.some.inj hspecial
    have hself : (registers.set loReg (registers (Isa.rs w))).set hiReg (registers hiReg) =
        registers.set loReg (registers (Isa.rs w)) := by
      have hne : hiReg ≠ loReg := by decide
      exact Function.update_eq_self_iff.mpr (Registers.set_of_ne _ hne).symm
    refine follows_hiLo hzero hload hop ((exec_special registers h0 hk).trans ?_) rfl rfl
    show _ = some
      (((registers.set loReg (registers (Isa.rs w))).set hiReg (registers hiReg)).finish _)
    rw [hself]
    rfl
  case h_11 hk =>
    obtain rfl := Option.some.inj hspecial
    obtain ⟨hhi, hlo⟩ := extract_of_append
      (mult_signed (registers (Isa.rs w)) (registers (Isa.rt w)))
    exact follows_hiLo hzero hload hop ((exec_special registers h0 hk).trans rfl) hhi hlo
  case h_12 hk =>
    obtain rfl := Option.some.inj hspecial
    obtain ⟨hhi, hlo⟩ := extract_of_append
      (mult_unsigned (registers (Isa.rs w)) (registers (Isa.rt w)))
    exact follows_hiLo hzero hload hop ((exec_special registers h0 hk).trans rfl) hhi hlo
  case h_13 hk => exact absurd hk hdiv
  case h_14 hk =>
    have hexec := exec_special registers h0 hk
    split at hspecial
    · rename_i hdivisor
      obtain rfl := Option.some.inj hspecial
      exact follows_unpredictable hzero hload hop (hexec.trans (if_pos hdivisor))
    · rename_i hdivisor
      obtain rfl := Option.some.inj hspecial
      refine follows_hiLo hzero hload hop (hexec.trans (if_neg hdivisor)) ?_ ?_
      · rw [← BitVec.toNat_umod, BitVec.ofNat_toNat, BitVec.setWidth_eq]
      · rw [← BitVec.toNat_udiv, BitVec.ofNat_toNat, BitVec.setWidth_eq]
  case h_15 hk =>
    obtain rfl := Option.some.inj hspecial
    refine follows_checked hzero hload hop ((exec_special registers h0 hk).trans rfl)
      (add_overflow _ _) ?_
    exact add_eq_ofInt _ _
  case h_16 hk =>
    obtain rfl := Option.some.inj hspecial
    refine (follows_write hzero hload hop ((exec_special registers h0 hk).trans rfl)).mpr (.inr ?_)
    exact add_eq_ofInt _ _
  case h_17 hk =>
    obtain rfl := Option.some.inj hspecial
    refine follows_checked hzero hload hop ((exec_special registers h0 hk).trans rfl)
      (sub_overflow _ _) ?_
    exact sub_eq_ofInt _ _
  case h_18 hk =>
    obtain rfl := Option.some.inj hspecial
    refine (follows_write hzero hload hop ((exec_special registers h0 hk).trans rfl)).mpr (.inr ?_)
    exact sub_eq_ofInt _ _
  case h_19 hk =>
    obtain rfl := Option.some.inj hspecial
    refine (follows_write hzero hload hop ((exec_special registers h0 hk).trans rfl)).mpr (.inr ?_)
    rfl
  case h_20 hk =>
    obtain rfl := Option.some.inj hspecial
    refine (follows_write hzero hload hop ((exec_special registers h0 hk).trans rfl)).mpr (.inr ?_)
    rfl
  case h_21 hk =>
    obtain rfl := Option.some.inj hspecial
    refine (follows_write hzero hload hop ((exec_special registers h0 hk).trans rfl)).mpr (.inr ?_)
    rfl
  case h_22 hk =>
    obtain rfl := Option.some.inj hspecial
    refine (follows_write hzero hload hop ((exec_special registers h0 hk).trans rfl)).mpr (.inr ?_)
    rfl
  case h_23 hk =>
    obtain rfl := Option.some.inj hspecial
    refine (follows_write hzero hload hop ((exec_special registers h0 hk).trans rfl)).mpr (.inr ?_)
    exact slt_eq _ _
  case h_24 hk =>
    obtain rfl := Option.some.inj hspecial
    refine (follows_write hzero hload hop ((exec_special registers h0 hk).trans rfl)).mpr (.inr ?_)
    rfl
  case h_25 => cases hspecial

/-- The immediate operand has the sign it is to have. -/
theorem toInt_immediate (w : BitVec 32) :
    (BitVec.ofInt 32 (Isa.signedImmediate w)).toInt = Isa.signedImmediate w := by
  have hlt : Isa.immediate w < 2 ^ 16 := Nat.mod_lt _ (by decide)
  have hbounds : -2 ^ (32 - 1) ≤ Isa.signedImmediate w ∧ Isa.signedImmediate w < 2 ^ (32 - 1) := by
    rw [Isa.signedImmediate]
    split <;> omega
  exact BitVec.toInt_ofInt_eq_self (by decide) hbounds.1 hbounds.2

theorem ofInt_and (w : BitVec 32) : BitVec.ofInt 32 (Isa.signedImmediate w) &&& 0xFFFF#32 =
    BitVec.ofNat 32 (Isa.immediate w) := by
  rw [← signExtended_eq, signExtended_and]

/-- The immediate operand in the high half of a word. -/
theorem ofInt_shiftLeft (w : BitVec 32) : BitVec.ofInt 32 (Isa.signedImmediate w) <<< 16 =
    BitVec.ofNat 32 (Isa.immediate w * 2 ^ 16) := by
  refine BitVec.eq_of_toNat_eq ?_
  have hlt : Isa.immediate w < 2 ^ 16 := Nat.mod_lt _ (by decide)
  rw [BitVec.toNat_shiftLeft, BitVec.toNat_ofInt, BitVec.toNat_ofNat, Nat.shiftLeft_eq,
    Isa.signedImmediate]
  split <;> omega

/-- The sum of a register and an immediate operand. -/
theorem immediate_overflow (a : BitVec 32) (w : BitVec 32) :
    ((a ^^^ BitVec.ofInt 32 (Isa.signedImmediate w)) &&& signBit = 0#32 ∧
      (BitVec.ofInt 32 (Isa.signedImmediate w) ^^^
        (a + BitVec.ofInt 32 (Isa.signedImmediate w))) &&& signBit ≠ 0#32) ↔
      ¬ (-2 ^ 31 ≤ a.toInt + Isa.signedImmediate w ∧ a.toInt + Isa.signedImmediate w < 2 ^ 31) := by
  have h := add_overflow (BitVec.ofInt 32 (Isa.signedImmediate w)) a
  rw [toInt_immediate, BitVec.xor_comm _ a, BitVec.add_comm _ a, Int.add_comm] at h
  exact h

/-- An instruction with an immediate operand is executed by its operation code. -/
theorem exec_immediate {opCode : OpCode} {outcome : Option Outcome}
    (h : opTable[Isa.opcode w]? = some (.op opCode, .ifmt))
    (hexec : execInstruction ⟨opCode, Isa.rs w, Isa.rt w, Isa.rd w,
      BitVec.ofInt 32 (Isa.signedImmediate w)⟩ registers = outcome := by rfl) :
    execInstruction (decode w) registers = outcome := by
  rw [decode_immediate h, hexec]

/-- **The instructions with an immediate operand.** -/
theorem follows_immediate (hzero : registers 0 = 0#32) (hload : registers loadReg = 0#32)
    (h0 : Isa.opcode w ≠ 0) (hop : Isa.operation w (visible registers) = some op) :
    Follows w registers := by
  have hs : (visible registers).gpr (Isa.rs w) = registers (Isa.rs w) := rfl
  have himmediate := hop
  unfold Isa.operation at himmediate
  dsimp only at himmediate
  rw [hs] at himmediate
  split at himmediate
  case h_1 hk => exact absurd hk h0
  case h_2 hk =>
    obtain rfl := Option.some.inj himmediate
    refine follows_checked hzero hload hop (exec_immediate (by rw [hk]; rfl)) ?_ ?_
    · exact immediate_overflow _ _
    · rw [add_eq_ofInt, toInt_immediate]
  case h_3 hk =>
    obtain rfl := Option.some.inj himmediate
    refine (follows_write hzero hload hop (exec_immediate (by rw [hk]; rfl))).mpr (.inr ?_)
    rw [add_eq_ofInt, toInt_immediate]
  case h_4 hk =>
    obtain rfl := Option.some.inj himmediate
    refine (follows_write hzero hload hop (exec_immediate (by rw [hk]; rfl))).mpr (.inr ?_)
    rw [slt_eq, toInt_immediate]
  case h_5 hk =>
    obtain rfl := Option.some.inj himmediate
    refine (follows_write hzero hload hop (exec_immediate (by rw [hk]; rfl))).mpr (.inr ?_)
    rfl
  case h_6 hk =>
    obtain rfl := Option.some.inj himmediate
    refine (follows_write hzero hload hop (exec_immediate (by rw [hk]; rfl))).mpr (.inr ?_)
    rw [ofInt_and]
  case h_7 hk =>
    obtain rfl := Option.some.inj himmediate
    refine (follows_write hzero hload hop (exec_immediate (by rw [hk]; rfl))).mpr (.inr ?_)
    rw [ofInt_and]
  case h_8 hk =>
    obtain rfl := Option.some.inj himmediate
    refine (follows_write hzero hload hop (exec_immediate (by rw [hk]; rfl))).mpr (.inr ?_)
    rw [ofInt_and]
  case h_9 hk =>
    obtain rfl := Option.some.inj himmediate
    refine (follows_write hzero hload hop (exec_immediate (by rw [hk]; rfl))).mpr (.inr ?_)
    exact ofInt_shiftLeft w
  case h_10 => cases himmediate

/-! ## The three instructions -/

/-- What an instruction with a function code is to do. -/
theorem operation_special {k : ℕ} (h0 : Isa.opcode w = 0) (hk : Isa.funct w = k)
    {op : Option Isa.Operation}
    (hspecial : Isa.funct w = k → Isa.special w (visible registers) = op) :
    Isa.operation w (visible registers) = op := by
  rw [Isa.operation, h0]
  exact hspecial hk

/-- `SRL`. -/
theorem follows_srl (hzero : registers 0 = 0#32) (hload : registers loadReg = 0#32)
    (h0 : Isa.opcode w = 0) (hk : Isa.funct w = 2) : Follows w registers ↔
      Isa.rd w = 0 ∨ Isa.shamt w = 0 ∨ 0 ≤ (registers (Isa.rt w)).toInt := by
  have hop : Isa.operation w (visible registers) =
      some (.write (Isa.rd w) (registers (Isa.rt w) >>> Isa.shamt w)) :=
    operation_special h0 hk fun hk => by rw [Isa.special, hk]; rfl
  rw [follows_write hzero hload hop ((exec_special registers h0 hk).trans rfl), field_eq 6]
  exact or_congr_right sshiftRight_eq_iff

/-- `SRLV`. -/
theorem follows_srlv (hzero : registers 0 = 0#32) (hload : registers loadReg = 0#32)
    (h0 : Isa.opcode w = 0) (hk : Isa.funct w = 6) : Follows w registers ↔
      Isa.rd w = 0 ∨ (registers (Isa.rs w)).toNat % 32 = 0 ∨
        0 ≤ (registers (Isa.rt w)).toInt := by
  have hop : Isa.operation w (visible registers) = some
      (.write (Isa.rd w) (registers (Isa.rt w) >>> ((registers (Isa.rs w)).toNat % 32))) :=
    operation_special h0 hk fun hk => by rw [Isa.special, hk]; rfl
  rw [follows_write hzero hload hop ((exec_special registers h0 hk).trans rfl), and_mask]
  exact or_congr_right sshiftRight_eq_iff

/-- `DIV`. -/
theorem follows_div (hzero : registers 0 = 0#32) (hload : registers loadReg = 0#32)
    (h0 : Isa.opcode w = 0) (hk : Isa.funct w = 26) : Follows w registers ↔
      ¬ (registers (Isa.rs w) = BitVec.intMin 32 ∧ registers (Isa.rt w) = -1#32) := by
  have hexec := exec_special registers h0 hk
  by_cases hdivisor : registers (Isa.rt w) = 0#32
  · have hop : Isa.operation w (visible registers) = some .unpredictable :=
      operation_special h0 hk fun hk => by rw [Isa.special, hk]; exact if_pos hdivisor
    refine iff_of_true (follows_unpredictable hzero hload hop (hexec.trans (if_pos hdivisor))) ?_
    rintro ⟨-, hminus⟩
    exact absurd (hdivisor.symm.trans hminus) (by decide)
  · have hop : Isa.operation w (visible registers) = some (.hiLo
        (BitVec.ofInt 32 ((registers (Isa.rs w)).toInt.tmod (registers (Isa.rt w)).toInt))
        (BitVec.ofInt 32 ((registers (Isa.rs w)).toInt.tdiv (registers (Isa.rt w)).toInt))) :=
      operation_special h0 hk fun hk => by rw [Isa.special, hk]; exact if_neg hdivisor
    by_cases htrap : registers (Isa.rs w) = BitVec.intMin 32 ∧ registers (Isa.rt w) = -1#32
    -- there is no outcome that can be seen
    · refine iff_of_false ?_ (not_not.mpr htrap)
      rw [follows_iff hop (hexec.trans ((if_neg hdivisor).trans (if_pos htrap)))]
      rintro ⟨effect, heffect, -⟩
      cases heffect
    · exact iff_of_true (follows_hiLo hzero hload hop
        (hexec.trans ((if_neg hdivisor).trans (if_neg htrap))) srem_eq sdiv_eq) htrap

/-- **The machine follows the instruction set** in every arithmetic instruction but the logical
right shifts of numbers with a sign and the signed division whose quotient does not fit. -/
theorem execInstruction_follows_iff (hop : Isa.operation w (visible registers) = some op)
    (hzero : registers 0 = 0#32) (hload : registers loadReg = 0#32) :
    Follows w registers ↔ Isa.Harmless w (visible registers) := by
  by_cases h0 : Isa.opcode w = 0
  · rw [Isa.Harmless, forall_prop_of_true h0]
    by_cases hsrl : Isa.funct w = 2
    · simp only [hsrl, true_imp_iff, Nat.reduceEqDiff, false_imp_iff, and_true]
      exact follows_srl hzero hload h0 hsrl
    by_cases hsrlv : Isa.funct w = 6
    · simp only [hsrlv, true_imp_iff, Nat.reduceEqDiff, false_imp_iff, and_true, true_and]
      exact follows_srlv hzero hload h0 hsrlv
    by_cases hdiv : Isa.funct w = 26
    · simp only [hdiv, true_imp_iff, Nat.reduceEqDiff, false_imp_iff, true_and]
      exact follows_div hzero hload h0 hdiv
    · exact iff_of_true (follows_special hzero hload h0 hop hsrl hsrlv hdiv)
        ⟨fun h => absurd h hsrl, fun h => absurd h hsrlv, fun h => absurd h hdiv⟩
  · exact iff_of_true (follows_immediate hzero hload h0 hop) (fun h => absurd h h0)

end Follows

/-- Registers 1 and 2 have values. -/
def operands (a b : BitVec 32) : Registers := fun i =>
  if i = 1 then a else if i = 2 then b else 0#32

theorem operands_zero (a b : BitVec 32) : operands a b 0 = 0#32 := rfl

theorem operands_load (a b : BitVec 32) : operands a b loadReg = 0#32 := rfl

/-- `DIV` of registers 1 and 2. -/
def divWord : BitVec 32 := 0x0022001A#32

/-- `SRL` of register 2 by one bit into register 3. -/
def srlWord : BitVec 32 := 0x00021842#32

theorem execInstruction_follows_div : Follows divWord (operands (-7#32) 2#32) := by
  have hop : Isa.operation divWord (visible (operands (-7#32) 2#32)) =
      some (.hiLo (-1#32) (-3#32)) := rfl
  have hharmless : Isa.Harmless divWord (visible (operands (-7#32) 2#32)) := by
    unfold Isa.Harmless
    decide
  exact (execInstruction_follows_iff hop (operands_zero _ _) (operands_load _ _)).mpr hharmless

/-- A logical shift takes the sign with it, and a division stops the host. -/
theorem shift_and_division :
    (Isa.operation srlWord (visible (operands 0#32 0x80000000#32)) =
        some (.write 3 0x40000000#32) ∧
      execInstruction (decode srlWord) (operands 0#32 0x80000000#32) =
        some (((operands 0#32 0x80000000#32).set 3 0xC0000000#32).finish 4#32) ∧
      ¬ Follows srlWord (operands 0#32 0x80000000#32)) ∧
    (Isa.operation divWord (visible (operands (BitVec.intMin 32) (-1#32))) =
        some (.hiLo 0#32 (BitVec.intMin 32)) ∧
      execInstruction (decode divWord) (operands (BitVec.intMin 32) (-1#32)) = some .undefined ∧
      ¬ Follows divWord (operands (BitVec.intMin 32) (-1#32))) := by
  refine ⟨⟨rfl, rfl, fun h => ?_⟩, rfl, rfl, fun h => ?_⟩
  · have hopcode : Isa.opcode srlWord = 0 := rfl
    have hshift := (follows_srl (operands_zero _ _) (operands_load _ _) hopcode rfl).mp h
    exact absurd hshift (by decide)
  · have hopcode : Isa.opcode divWord = 0 := rfl
    exact (follows_div (operands_zero _ _) (operands_load _ _) hopcode rfl).mp h ⟨rfl, rfl⟩

end Machine
end PaldOs
