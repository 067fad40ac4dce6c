import Mathlib.Tactic.IntervalCases
import PaldOs.UserPrograms

/-! # The architecture

What every instruction is to do with registers and memory, from the fields of its word and from
numbers: those that compute (`Isa.operation`), and those that branch, jump, load, store and call the
kernel.  A branch or a jump takes effect after the instruction that follows it.  A load gives its
register the value at once, and an exception leaves everything as it was.

The processor does this (`cycle_executes`), apart from the instructions that are not `Covered`.
Its pseudo-registers for the delayed load are not seen.
-/
namespace PaldOs
namespace Isa

/-! ## Branches and jumps -/

/-- Bits 0 to 25. -/
def jumpIndex (w : BitVec 32) : ℕ := w.toNat % 2 ^ 26

theorem zeroRegister_lt : 0 < 32 := by decide

/-- Register 0. -/
def zeroRegister : Fin 32 := ⟨0, zeroRegister_lt⟩

theorem returnRegister_lt : 31 < 32 := by decide

/-- Register 31, which a call sets. -/
def returnRegister : Fin 32 := ⟨31, returnRegister_lt⟩

/-- What a branch or a jump does: the register that gets the address to return to, which is register
0 for none, and where to go after the instruction that follows. -/
structure Control where
  link : Fin 32
  target : BitVec 32

/-- Where a branch goes. -/
def branchTarget (w : BitVec 32) (c : Cpu) (taken : Bool) : BitVec 32 :=
  if taken then BitVec.ofInt 32 (c.nextPc.toInt + 4 * signedImmediate w) else c.nextPc + 4

/-- Where a jump goes: to a word in the same 256 MiB as the instruction that follows. -/
def jumpTarget (w : BitVec 32) (c : Cpu) : BitVec 32 :=
  BitVec.ofNat 32 (c.nextPc.toNat / 2 ^ 28 * 2 ^ 28 + 4 * jumpIndex w)

/-- **The branches and jumps.** -/
def control (w : BitVec 32) (c : Cpu) : Option Control :=
  let s := c.gpr (rs w)
  let t := c.gpr (rt w)
  let branch (link : Fin 32) (taken : Bool) := some ⟨link, branchTarget w c taken⟩
  match opcode w with
  | 0 =>
    match funct w with
    | 8 => some ⟨zeroRegister, s⟩
    | 9 => some ⟨rd w, s⟩
    | _ => none
  | 1 =>
    match (rt w).val with
    | 0 => branch zeroRegister (s.toInt < 0)
    | 1 => branch zeroRegister (0 ≤ s.toInt)
    | 16 => branch returnRegister (s.toInt < 0)
    | 17 => branch returnRegister (0 ≤ s.toInt)
    | _ => none
  | 2 => some ⟨zeroRegister, jumpTarget w c⟩
  | 3 => some ⟨returnRegister, jumpTarget w c⟩
  | 4 => branch zeroRegister (s = t)
  | 5 => branch zeroRegister (s ≠ t)
  | 6 => branch zeroRegister (s.toInt ≤ 0)
  | 7 => branch zeroRegister (0 < s.toInt)
  | _ => none

namespace Cpu

/-- The next instruction, and the one after it. -/
def go (c : Cpu) (target : BitVec 32) : Cpu := { c with pc := c.nextPc, nextPc := target }

theorem advance_eq (c : Cpu) : c.advance = c.go (c.nextPc + 4) := rfl

/-- A branch or a jump. -/
def jump (c : Cpu) (k : Control) : Cpu := (c.write k.link (c.nextPc + 4)).go k.target

@[simp] theorem write_zero (c : Cpu) (value : BitVec 32) : c.write 0 value = c := if_pos rfl

/-- Writing a register leaves the others alone. -/
theorem write_eq (c : Cpu) (i : Fin 32) (value : BitVec 32) :
    c.write i value = { c with gpr := (c.write i value).gpr } := by
  rw [write]
  split <;> rfl

@[simp] theorem write_hi (c : Cpu) (i : Fin 32) (value : BitVec 32) :
    (c.write i value).hi = c.hi := by rw [write_eq]

@[simp] theorem write_lo (c : Cpu) (i : Fin 32) (value : BitVec 32) :
    (c.write i value).lo = c.lo := by rw [write_eq]

@[simp] theorem write_nextPc (c : Cpu) (i : Fin 32) (value : BitVec 32) :
    (c.write i value).nextPc = c.nextPc := by rw [write_eq]

end Cpu

/-! ## Loads and stores -/

/-- The number that `n` bytes from address `a` on make up, the first of them the least. -/
def valueAt (mem : ℕ → UInt8) (a : ℕ) : ℕ → ℕ
  | 0 => 0
  | n + 1 => (mem a).toNat + 256 * valueAt mem (a + 1) n

/-- The memory after the `n` low bytes of a number are written to address `a`. -/
def storeAt (mem : ℕ → UInt8) (a n value : ℕ) : ℕ → UInt8 := fun x =>
  if a ≤ x ∧ x < a + n then UInt8.ofNat (value / 256 ^ (x - a) % 256) else mem x

/-- An access to memory: of how many bytes, and for a load whether they are a number with a sign. -/
inductive Access
  | load (bytes : ℕ) (signed : Bool)
  | store (bytes : ℕ)

def Access.bytes : Access → ℕ
  | .load n _ => n
  | .store n => n

/-- **The instructions that use memory.** -/
def access (w : BitVec 32) : Option Access :=
  match opcode w with
  | 32 => some (.load 1 true)
  | 33 => some (.load 2 true)
  | 35 => some (.load 4 true)
  | 36 => some (.load 1 false)
  | 37 => some (.load 2 false)
  | 40 => some (.store 1)
  | 41 => some (.store 2)
  | 43 => some (.store 4)
  | _ => none

/-- The address. -/
def address (w : BitVec 32) (c : Cpu) : ℕ :=
  (((c.gpr (rs w)).toInt + signedImmediate w) % 2 ^ 32).toNat

/-- What is loaded. -/
def loaded (mem : ℕ → UInt8) (a n : ℕ) (signed : Bool) : BitVec 32 :=
  if signed then BitVec.ofInt 32 (Int.bmod (valueAt mem a n) (256 ^ n))
  else BitVec.ofNat 32 (valueAt mem a n)

/-! ## What an instruction does -/

/-- The exceptions. -/
inductive Exception
  | syscall
  | overflow
  | addressError
  | busError
  /-- There is no such instruction. -/
  | reserved
deriving DecidableEq

/-- What an instruction comes to: registers and memory, and maybe an exception. -/
inductive Outcome
  | next (c : Cpu) (mem : ℕ → UInt8)
  | exception (e : Exception) (c : Cpu) (mem : ℕ → UInt8)

/-- What an access comes to, on a machine with memory at the addresses below `size`. -/
def Access.outcome (a : Access) (size : ℕ) (w : BitVec 32) (c : Cpu) (mem : ℕ → UInt8) : Outcome :=
  let x := address w c
  if x % a.bytes ≠ 0 then .exception .addressError c mem
  else if size ≤ x then .exception .busError c mem
  else
    match a with
    | .load n signed => .next (c.write (rt w) (loaded mem x n signed)).advance mem
    | .store n => .next c.advance (storeAt mem x n (c.gpr (rt w)).toNat)

/-- The instruction is a system call. -/
def IsSyscall (w : BitVec 32) : Prop := opcode w = 0 ∧ funct w = 12

/-- **What an instruction does.** -/
inductive Executes (size : ℕ) (w : BitVec 32) (c : Cpu) (mem : ℕ → UInt8) : Outcome → Prop
  | compute {op : Operation} {c' : Cpu} : operation w c = some op → op.Allows c (.next c') →
      Executes size w c mem (.next c' mem)
  | overflow {op : Operation} {c' : Cpu} : operation w c = some op → op.Allows c (.overflow c') →
      Executes size w c mem (.exception .overflow c' mem)
  | control {k : Control} : control w c = some k → Executes size w c mem (.next (c.jump k) mem)
  | access {a : Access} : access w = some a → Executes size w c mem (a.outcome size w c mem)
  | syscall : IsSyscall w → Executes size w c mem (.exception .syscall c mem)
  | reserved : operation w c = none → Isa.control w c = none → Isa.access w = none →
      ¬ IsSyscall w → Executes size w c mem (.exception .reserved c mem)

/-- The next instruction. -/
def fetched (c : Cpu) (mem : ℕ → UInt8) : BitVec 32 := BitVec.ofNat 32 (valueAt mem c.pc.toNat 4)

/-- **An instruction is fetched and executed.** -/
inductive Cycles (size : ℕ) (c : Cpu) (mem : ℕ → UInt8) : Outcome → Prop
  | addressError : c.pc.toNat % 4 ≠ 0 → Cycles size c mem (.exception .addressError c mem)
  | busError : c.pc.toNat % 4 = 0 → size ≤ c.pc.toNat →
      Cycles size c mem (.exception .busError c mem)
  | executed {o : Outcome} : c.pc.toNat % 4 = 0 → c.pc.toNat < size →
      Executes size (fetched c mem) c mem o → Cycles size c mem o

/-- **The instructions that are looked at.**  The loads and stores of parts of a word are not, nor
are those that set the register they branch by, a jump out of the last word of its 256 MiB, and the
three of `Harmless`. -/
structure Covered (w : BitVec 32) (c : Cpu) : Prop where
  harmless : Harmless w c
  whole : opcode w ≠ 34 ∧ opcode w ≠ 38 ∧ opcode w ≠ 42 ∧ opcode w ≠ 46
  linkRegister : opcode w = 0 → funct w = 9 → rs w ≠ rd w
  linkBranch : opcode w = 1 → 16 ≤ (rt w).val → rs w ≠ returnRegister
  region : opcode w = 2 ∨ opcode w = 3 →
    (c.nextPc.toNat + 4) / 2 ^ 28 = c.nextPc.toNat / 2 ^ 28

instance (w : BitVec 32) (c : Cpu) : Decidable (Harmless w c) :=
  inferInstanceAs (Decidable (_ → _ ∧ _ ∧ _))

instance (w : BitVec 32) (c : Cpu) : Decidable (Covered w c) :=
  decidable_of_iff
    (Harmless w c ∧ (opcode w ≠ 34 ∧ opcode w ≠ 38 ∧ opcode w ≠ 42 ∧ opcode w ≠ 46) ∧
      (opcode w = 0 → funct w = 9 → rs w ≠ rd w) ∧
      (opcode w = 1 → 16 ≤ (rt w).val → rs w ≠ returnRegister) ∧
      (opcode w = 2 ∨ opcode w = 3 →
        (c.nextPc.toNat + 4) / 2 ^ 28 = c.nextPc.toNat / 2 ^ 28))
    ⟨fun ⟨h1, h2, h3, h4, h5⟩ => ⟨h1, h2, h3, h4, h5⟩, fun ⟨h1, h2, h3, h4, h5⟩ =>
      ⟨h1, h2, h3, h4, h5⟩⟩

end Isa

namespace Machine

/-- The exception, as the architecture has it.  A page fault is none of its. -/
def Exception.seen : Exception → Option Isa.Exception
  | .syscall => some .syscall
  | .overflow => some .overflow
  | .illegalInstr => some .reserved
  | .mmu .addressError => some .addressError
  | .mmu .busError => some .busError
  | .mmu .pageFault => none
  | .mmu .readOnly => none

/-- The registers of the architecture, when the delayed load has been done. -/
def Registers.seen (r : Registers) : Isa.Cpu := visible (r.delayedLoad 0#32 0#32)

/-- What can be seen of a cycle. -/
def Cycle.outcome : Cycle (ℕ → UInt8) → Option Isa.Outcome
  | .done r mem => some (.next r.seen mem)
  | .raised et r mem => et.seen.map fun e => .exception e r.seen mem
  | .failed => none

/-! ## The registers that are seen -/

section Seen
variable {r : Registers} {pcAfter n v : BitVec 32} {mem : ℕ → UInt8}

/-- **Nothing is pending**, and register 0 is zero. -/
structure Registers.Settled (r : Registers) : Prop where
  zero : r 0 = 0#32
  load : r loadReg = 0#32

theorem Registers.settled_delayedLoad : (r.delayedLoad 0#32 0#32).Settled :=
  ⟨delayedLoad_zero _ _, delayedLoad_loadReg⟩

theorem visible_congr {q : Registers} (h : ∀ i, i ≤ nextPcReg → q i = r i) :
    visible q = visible r := by
  have hgpr : ∀ i : Fin 32, q i = r i := by
    intro i
    have hi := i.isLt
    apply h
    simp only [nextPcReg]
    omega
  exact Isa.Cpu.ext (funext hgpr) (h hiReg (by decide)) (h loReg (by decide)) (h pcReg (by decide))
    (h nextPcReg (by decide))

theorem Registers.Settled.seen_eq (h : r.Settled) : r.seen = visible r := by
  apply visible_congr
  intro i hi
  simp only [nextPcReg] at hi
  rcases Nat.eq_zero_or_pos i with rfl | hpos
  · exact (delayedLoad_zero _ _).trans h.zero.symm
  · exact delayedLoad_apply h.load hpos.ne' (by simp only [loadReg]; omega)
      (by simp only [loadValueReg]; omega) _ _

/-- **An exception changes nothing that is seen.** -/
theorem Registers.Settled.seen_raise (h : r.Settled) (addr : BitVec 32) :
    (r.raise addr).seen = visible r := by
  have hset : (r.set badVaddrReg addr).Settled :=
    ⟨(set_of_ne _ (by decide)).trans h.zero, (set_of_ne _ (by decide)).trans h.load⟩
  have hraise : (r.raise addr).Settled := settled_delayedLoad
  have hsame : visible (r.raise addr) = visible (r.set badVaddrReg addr) := hset.seen_eq
  rw [hraise.seen_eq, hsame]
  apply visible_congr
  intro i hi
  refine set_of_ne _ ?_
  simp only [nextPcReg, badVaddrReg] at hi ⊢
  omega

/-- An exception. -/
theorem Registers.Settled.outcome_raise (hs : r.Settled) {et : Exception} {e : Isa.Exception}
    (he : et.seen = some e) (addr : BitVec 32) :
    (Cycle.raised et (r.raise addr) mem).outcome = some (.exception e (visible r) mem) := by
  show Option.map _ et.seen = _
  rw [he, Option.map_some, hs.seen_raise]

theorem Registers.Settled.set_zero (hs : r.Settled) : r.set 0 0#32 = r := by
  rw [← hs.zero]
  exact Function.update_eq_self _ _

/-- A register that is no program counter, at the end of an instruction. -/
theorem Registers.advance_apply (hload : r loadReg = 0#32) {i : ℕ} (hi : i < pcReg) :
    r.advance pcAfter n v i = if i = 0 then 0#32 else r i := by
  simp only [pcReg] at hi
  have hpc : i ≠ nextPcReg ∧ i ≠ pcReg ∧ i ≠ prevPcReg := by
    simp only [nextPcReg, pcReg, prevPcReg]
    omega
  have hlow : i ≤ prevPcReg := by
    simp only [prevPcReg]
    omega
  rw [advance, set_of_ne _ hpc.1, set_of_ne _ hpc.2.1, set_of_ne _ hpc.2.2, delayedLoad_eq hlow,
    hload]
  split
  · rfl
  · rename_i h0
    exact if_neg h0

/-- **What is seen after an instruction**, the load that it starts included. -/
theorem Registers.seen_advance (hload : r loadReg = 0#32) (i : Fin 32) :
    (r.advance pcAfter (BitVec.ofNat 32 i) v).seen =
      ((visible (r.set 0 0#32)).write i v).go pcAfter := by
  have hi := i.isLt
  have hreg : r.advance pcAfter (BitVec.ofNat 32 i) v loadReg = BitVec.ofNat 32 i := by
    rw [advance, set_of_ne _ (by decide), set_of_ne _ (by decide), set_of_ne _ (by decide),
      delayedLoad_loadReg]
  have hvalue : r.advance pcAfter (BitVec.ofNat 32 i) v loadValueReg = v := by
    rw [advance, set_of_ne _ (by decide), set_of_ne _ (by decide), set_of_ne _ (by decide),
      delayedLoad_loadValueReg]
  have hnat : (BitVec.ofNat 32 i).toNat = i := by
    rw [BitVec.toNat_ofNat]
    omega
  have hread : ∀ j, j ≤ prevPcReg →
      (r.advance pcAfter (BitVec.ofNat 32 i) v).delayedLoad 0#32 0#32 j =
        if j = 0 then 0#32 else if j = i then v else
          r.advance pcAfter (BitVec.ofNat 32 i) v j := by
    intro j hj
    rw [delayedLoad_eq hj, hreg, hvalue, hnat]
  -- a register above the general ones
  have hhigh : ∀ j, 32 ≤ j → j ≤ prevPcReg →
      (r.advance pcAfter (BitVec.ofNat 32 i) v).delayedLoad 0#32 0#32 j =
        r.advance pcAfter (BitVec.ofNat 32 i) v j := by
    intro j hj hj'
    rw [hread j hj', if_neg (by omega), if_neg (by omega)]
  have hset : ∀ j, j ≠ 0 → r.set 0 0#32 j = r j := fun j hj => set_of_ne _ hj
  refine Isa.Cpu.ext (funext fun j => ?_) ?_ ?_ ?_ ?_
  · have hj := j.isLt
    show (r.advance pcAfter (BitVec.ofNat 32 i) v).delayedLoad 0#32 0#32 j =
      ((visible (r.set 0 0#32)).write i v).gpr j
    have hgpr : (visible (r.set 0 0#32)).gpr j = r.set 0 0#32 j := rfl
    rw [hread j (by simp only [prevPcReg]; omega),
      advance_apply hload (by simp only [pcReg]; omega), Isa.Cpu.write_gpr, hgpr]
    rcases eq_or_ne j 0 with rfl | h0
    · have h0 : ((0 : Fin 32) : ℕ) = 0 := rfl
      have hzero : r.set 0 0#32 0 = 0#32 := set_self ..
      rw [if_pos h0, if_neg (fun h : i ≠ 0 ∧ 0 = i => h.1 h.2.symm)]
      exact hzero.symm
    · have h0' : (j : ℕ) ≠ 0 := fun h => h0 (Fin.ext h)
      rw [if_neg h0', set_of_ne _ h0', if_neg h0']
      rcases eq_or_ne j i with rfl | hne
      · rw [if_pos rfl, if_pos ⟨h0, rfl⟩]
      · rw [if_neg (fun h => hne (Fin.ext h)), if_neg (fun h => hne h.2)]
  · show (r.advance pcAfter (BitVec.ofNat 32 i) v).delayedLoad 0#32 0#32 hiReg =
      ((visible (r.set 0 0#32)).write i v).hi
    rw [Isa.Cpu.write_hi, hhigh _ (by decide) (by decide), advance_apply hload (by decide),
      if_neg (by decide)]
    exact (hset hiReg (by decide)).symm
  · show (r.advance pcAfter (BitVec.ofNat 32 i) v).delayedLoad 0#32 0#32 loReg =
      ((visible (r.set 0 0#32)).write i v).lo
    rw [Isa.Cpu.write_lo, hhigh _ (by decide) (by decide), advance_apply hload (by decide),
      if_neg (by decide)]
    exact (hset loReg (by decide)).symm
  · show (r.advance pcAfter (BitVec.ofNat 32 i) v).delayedLoad 0#32 0#32 pcReg =
      ((visible (r.set 0 0#32)).write i v).nextPc
    rw [Isa.Cpu.write_nextPc, hhigh _ (by decide) (by decide), advance, set_of_ne _ (by decide),
      set_self, set_of_ne _ (by decide),
      delayedLoad_apply hload (by decide) (by decide) (by decide)]
    exact (hset nextPcReg (by decide)).symm
  · show (r.advance pcAfter (BitVec.ofNat 32 i) v).delayedLoad 0#32 0#32 nextPcReg = pcAfter
    rw [hhigh _ (by decide) (by decide), advance]
    exact set_self ..

/-- An instruction that loads nothing. -/
theorem Registers.outcome_advance (hload : r loadReg = 0#32) :
    (Cycle.done (r.advance pcAfter 0#32 0#32) mem).outcome =
      some (.next ((visible (r.set 0 0#32)).go pcAfter) mem) := by
  have h := @seen_advance r pcAfter 0#32 hload 0
  rw [Isa.Cpu.write_zero] at h
  exact congrArg (fun c => some (Isa.Outcome.next c mem)) h

/-- A register is written, whichever it is. -/
theorem Registers.Settled.visible_set (h : r.Settled) (i : Fin 32) (value : BitVec 32) :
    visible ((r.set i value).set 0 0#32) = (visible r).write i value := by
  have hi := i.isLt
  have hhigh : ∀ j, 32 ≤ j → (r.set i value).set 0 0#32 j = r j := fun j hj =>
    (set_of_ne _ (by omega)).trans (set_of_ne _ (by omega))
  rw [Isa.Cpu.write_eq]
  refine Isa.Cpu.ext (funext fun j => ?_) (hhigh hiReg (by decide)) (hhigh loReg (by decide))
    (hhigh pcReg (by decide)) (hhigh nextPcReg (by decide))
  show (r.set i value).set 0 0#32 j = ((visible r).write i value).gpr j
  have hgpr : (visible r).gpr j = r j := rfl
  rw [Isa.Cpu.write_gpr, hgpr]
  rcases eq_or_ne j 0 with rfl | h0
  · rw [if_neg (fun h => h.1 h.2.symm)]
    exact (set_self ..).trans h.zero.symm
  · have h0' : (j : ℕ) ≠ 0 := fun h => h0 (Fin.ext h)
    rw [set_of_ne _ h0']
    rcases eq_or_ne j i with rfl | hne
    · rw [if_pos ⟨h0, rfl⟩, set_self]
    · rw [if_neg (fun h => hne h.2), set_of_ne _ (fun h => hne (Fin.ext h))]

end Seen

/-! ## Decoding -/

section Decoding
variable {w : BitVec 32}

/-- A jump. -/
theorem decode_jump {opCode : OpCode} (h : opTable[Isa.opcode w]? = some (.op opCode, .jfmt)) :
    decode w = ⟨opCode, Isa.rs w, Isa.rt w, Isa.rd w, w &&& 0x3FFFFFF#32⟩ := by
  unfold decode
  rw [opcode_eq, List.getD_eq_getElem?_getD, h, field_eq, field_eq, field_eq]
  rfl

/-- A branch with a code in the place of the second register. -/
theorem decode_bcond (h : Isa.opcode w = 1) : decode w =
    ⟨bcondCode w, Isa.rs w, Isa.rt w, Isa.rd w, BitVec.ofInt 32 (Isa.signedImmediate w)⟩ := by
  unfold decode
  rw [opcode_eq, h, field_eq, field_eq, field_eq, ← signExtended_eq]
  rfl

theorem bcondCode_eq : bcondCode w =
    match (Isa.rt w).val with
    | 0 => .bltz
    | 1 => .bgez
    | 16 => .bltzal
    | 17 => .bgezal
    | _ => .unimp := by
  have hmask : w &&& 0x1F0000#32 = (w >>> 16 &&& 0x1F#32) <<< 16 := by
    have hbit : ∀ i, i < 32 → (0x1F0000#32).getLsbD i =
        (decide (16 ≤ i) && (0x1F#32).getLsbD (i - 16)) := by decide
    refine BitVec.eq_of_getLsbD_eq fun i hi => ?_
    rw [BitVec.getLsbD_and, hbit i hi, BitVec.getLsbD_shiftLeft, BitVec.getLsbD_and,
      BitVec.getLsbD_ushiftRight]
    rcases Nat.lt_or_ge i 16 with hlow | hhigh
    · simp [hlow, Nat.not_le.mpr hlow]
    · simp [hhigh, Nat.not_lt.mpr hhigh, hi, Nat.add_sub_cancel' hhigh]
  have hfield : w &&& 0x1F0000#32 = BitVec.ofNat 32 (Isa.rt w) <<< 16 := by
    rw [hmask, Isa.rt, ← field_eq, BitVec.ofNat_toNat, BitVec.setWidth_eq]
  rw [bcondCode, hfield]
  generalize Isa.rt w = i
  revert i
  decide

/-- The bits of the index of a jump. -/
theorem jumpIndex_eq : (w &&& 0x3FFFFFF#32).toNat = Isa.jumpIndex w := by
  rw [BitVec.toNat_and]
  exact Nat.and_two_pow_sub_one_eq_mod _ 26

end Decoding

/-! ## Branches and jumps -/

section Control
variable {r : Registers} {w : BitVec 32} {mmu : Mmu (ℕ → UInt8)} {mem : ℕ → UInt8}

theorem and_signBit_eq_zero {a : BitVec 32} : a &&& signBit = 0#32 ↔ 0 ≤ a.toInt := by
  have h : a &&& signBit ≠ 0#32 ↔ a.toInt < 0 := by
    rw [and_signBit_ne_zero, BitVec.msb_eq_toInt, decide_eq_true_iff]
  rw [← not_iff_not, ← ne_eq, h, Int.not_le]

/-- Where the processor goes on after a branch. -/
theorem branch_eq (r : Registers) (w : BitVec 32) (taken : Bool) :
    (if taken then r nextPcReg + indexToAddr (BitVec.ofInt 32 (Isa.signedImmediate w))
      else r nextPcReg + 4) = Isa.branchTarget w (visible r) taken := by
  have hnext : (visible r).nextPc = r nextPcReg := rfl
  have hindex : indexToAddr (BitVec.ofInt 32 (Isa.signedImmediate w)) =
      BitVec.ofInt 32 (4 * Isa.signedImmediate w) := by
    rw [indexToAddr, BitVec.shiftLeft_eq_mul_twoPow, BitVec.mul_comm, BitVec.ofInt_mul]
    rfl
  rw [Isa.branchTarget, hnext, hindex, BitVec.ofInt_add, BitVec.ofInt_toInt]

/-- The four highest bits. -/
theorem and_region (x : BitVec 32) :
    x &&& 0xF0000000#32 = BitVec.ofNat 32 (x.toNat / 2 ^ 28 * 2 ^ 28) := by
  have hshift : x &&& 0xF0000000#32 = x >>> 28 <<< 28 := by
    have hbit : ∀ i, i < 32 → (0xF0000000#32).getLsbD i = decide (28 ≤ i) := by decide
    refine BitVec.eq_of_getLsbD_eq fun i hi => ?_
    rw [BitVec.getLsbD_and, hbit i hi, BitVec.getLsbD_shiftLeft, BitVec.getLsbD_ushiftRight]
    rcases Nat.lt_or_ge i 28 with hlow | hhigh
    · simp [hlow, Nat.not_le.mpr hlow]
    · simp [hhigh, Nat.not_lt.mpr hhigh, hi, Nat.add_sub_cancel' hhigh]
  refine BitVec.eq_of_toNat_eq ?_
  rw [hshift, BitVec.toNat_shiftLeft, BitVec.toNat_ushiftRight, BitVec.toNat_ofNat,
    Nat.shiftRight_eq_div_pow, Nat.shiftLeft_eq]

/-- Where the processor goes on after a jump. -/
theorem jump_eq (hregion : ((visible r).nextPc.toNat + 4) / 2 ^ 28 =
    (visible r).nextPc.toNat / 2 ^ 28) :
    (r nextPcReg + 4 &&& 0xF0000000#32 ||| indexToAddr (w &&& 0x3FFFFFF#32)) =
      Isa.jumpTarget w (visible r) := by
  have hnext : (visible r).nextPc = r nextPcReg := rfl
  rw [hnext] at hregion
  have hlt := (r nextPcReg).isLt
  have hindex : Isa.jumpIndex w < 2 ^ 26 := Nat.mod_lt _ (by decide)
  have hsum : (r nextPcReg + 4).toNat = (r nextPcReg).toNat + 4 := by
    rw [BitVec.toNat_add]
    show ((r nextPcReg).toNat + 4) % 2 ^ 32 = _
    omega
  have hhigh : (r nextPcReg + 4 &&& 0xF0000000#32) =
      BitVec.ofNat 32 ((r nextPcReg).toNat / 2 ^ 28 * 2 ^ 28) := by
    rw [and_region, hsum, hregion]
  have hlow : indexToAddr (w &&& 0x3FFFFFF#32) = BitVec.ofNat 32 (4 * Isa.jumpIndex w) := by
    refine BitVec.eq_of_toNat_eq ?_
    rw [indexToAddr, BitVec.toNat_shiftLeft, jumpIndex_eq, BitVec.toNat_ofNat, Nat.shiftLeft_eq]
    omega
  have hdisjoint : BitVec.ofNat 32 ((r nextPcReg).toNat / 2 ^ 28 * 2 ^ 28) &&&
      BitVec.ofNat 32 (4 * Isa.jumpIndex w) = 0#32 := by
    refine BitVec.eq_of_getLsbD_eq fun i hi => ?_
    rw [BitVec.getLsbD_and, BitVec.getLsbD_zero, BitVec.getLsbD_ofNat, BitVec.getLsbD_ofNat]
    rcases Nat.lt_or_ge i 28 with hlow | hhigh
    · rw [Nat.testBit_mul_two_pow]
      simp [Nat.not_le.mpr hlow]
    · have hbound : 4 * Isa.jumpIndex w < 2 ^ i :=
        lt_of_lt_of_le (by omega) (Nat.pow_le_pow_right (by decide) hhigh)
      rw [Nat.testBit_lt_two_pow hbound]
      simp
  rw [Isa.jumpTarget, hnext, hhigh, hlow, ← BitVec.add_eq_or_of_and_eq_zero _ _ hdisjoint,
    BitVec.ofNat_add]

/-- **A branch or a jump that sets a register.** -/
theorem Registers.Settled.outcome_link (hs : r.Settled) (link : Fin 32) {target target' : BitVec 32}
    (h : target' = target) :
    (Cycle.done ((r.set link (r nextPcReg + 4)).advance target' 0#32 0#32) mem).outcome =
      some (.next ((visible r).jump ⟨link, target⟩) mem) := by
  have hlink := link.isLt
  have hload : r.set link (r nextPcReg + 4) loadReg = 0#32 := by
    rw [set_of_ne _ (by simp only [loadReg]; omega), hs.load]
  rw [outcome_advance hload, hs.visible_set, h]
  rfl

/-- A branch or a jump that sets none. -/
theorem Registers.Settled.outcome_go (hs : r.Settled) {target target' : BitVec 32}
    (h : target' = target) :
    (Cycle.done (r.advance target' 0#32 0#32) mem).outcome =
      some (.next ((visible r).jump ⟨0, target⟩) mem) := by
  rw [outcome_advance hs.load, hs.set_zero, h, Isa.Cpu.jump, Isa.Cpu.write_zero]

/-- A branch that sets none, by its condition. -/
theorem Registers.Settled.outcome_branch (hs : r.Settled) {taken taken' : Bool}
    (h : taken' = taken) :
    (Cycle.done (r.advance
      (if taken' then r nextPcReg + indexToAddr (BitVec.ofInt 32 (Isa.signedImmediate w))
        else r nextPcReg + 4) 0#32 0#32) mem).outcome =
      some (.next ((visible r).jump ⟨0, Isa.branchTarget w (visible r) taken⟩) mem) :=
  hs.outcome_go (by rw [branch_eq, h])

/-- A branch that sets register 31. -/
theorem Registers.Settled.outcome_branchLink (hs : r.Settled) {taken taken' : Bool}
    (h : taken' = taken) :
    (Cycle.done ((r.set 31 (r nextPcReg + 4)).advance
      (if taken' then r nextPcReg + indexToAddr (BitVec.ofInt 32 (Isa.signedImmediate w))
        else r nextPcReg + 4) 0#32 0#32) mem).outcome =
      some (.next ((visible r).jump ⟨31, Isa.branchTarget w (visible r) taken⟩) mem) :=
  hs.outcome_link 31 (by rw [branch_eq, h])

/-- **The processor branches and jumps as the architecture does.** -/
theorem execute_control (hs : r.Settled) (hc : Isa.Covered w (visible r)) {k : Isa.Control}
    (hk : Isa.control w (visible r) = some k) :
    (execute mmu (decode w) r mem).outcome = some (.next ((visible r).jump k) mem) := by
  have hrs : (visible r).gpr (Isa.rs w) = r (Isa.rs w) := rfl
  have hrt : (visible r).gpr (Isa.rt w) = r (Isa.rt w) := rfl
  unfold Isa.control at hk
  dsimp only at hk
  rw [hrs, hrt] at hk
  split at hk
  case h_1 h0 =>
    rw [decode_special h0]
    split at hk
    case h_1 hfunct =>
      cases hk
      rw [hfunct]
      exact hs.outcome_go rfl
    case h_2 hfunct =>
      cases hk
      rw [hfunct]
      have hne : (Isa.rs w : ℕ) ≠ (Isa.rd w : ℕ) :=
        fun h => hc.linkRegister h0 hfunct (Fin.ext h)
      exact hs.outcome_link (Isa.rd w) (Registers.set_of_ne _ hne)
    case h_3 => cases hk
  case h_2 h1 =>
    rw [decode_bcond h1, bcondCode_eq]
    have hother : 16 ≤ (Isa.rt w).val →
        r.set retAddrReg (r nextPcReg + 4) (Isa.rs w) = r (Isa.rs w) := fun hrt' =>
      Registers.set_of_ne _ fun h => hc.linkBranch h1 hrt' (Fin.ext h)
    split at hk
    case h_1 hrt' =>
      cases hk
      rw [hrt']
      exact hs.outcome_branch (by simp [and_signBit_eq_zero])
    case h_2 hrt' =>
      cases hk
      rw [hrt']
      exact hs.outcome_branch (by simp [and_signBit_eq_zero])
    case h_3 hrt' =>
      cases hk
      have hrs' := hother (by omega)
      rw [hrt']
      exact hs.outcome_branchLink (by rw [hrs']; simp [and_signBit_eq_zero])
    case h_4 hrt' =>
      cases hk
      have hrs' := hother (by omega)
      rw [hrt']
      exact hs.outcome_branchLink (by rw [hrs']; simp [and_signBit_eq_zero])
    case h_5 => cases hk
  case h_3 hop =>
    cases hk
    rw [@decode_jump w .j (by rw [hop]; rfl)]
    exact hs.outcome_go (jump_eq (hc.region (.inl hop)))
  case h_4 hop =>
    cases hk
    rw [@decode_jump w .jal (by rw [hop]; rfl)]
    exact hs.outcome_link 31 (jump_eq (hc.region (.inr hop)))
  case h_5 hop =>
    cases hk
    rw [@decode_immediate w .beq (by rw [hop]; rfl)]
    exact hs.outcome_branch rfl
  case h_6 hop =>
    cases hk
    rw [@decode_immediate w .bne (by rw [hop]; rfl)]
    exact hs.outcome_branch rfl
  case h_7 hop =>
    cases hk
    rw [@decode_immediate w .blez (by rw [hop]; rfl)]
    exact hs.outcome_branch (by simp [BitVec.sle])
  case h_8 hop =>
    cases hk
    rw [@decode_immediate w .bgtz (by rw [hop]; rfl)]
    exact hs.outcome_branch (by simp [BitVec.slt])
  case h_9 => cases hk

end Control

/-! ## Computing -/

section Compute
variable {r : Registers} {w : BitVec 32} {mmu : Mmu (ℕ → UInt8)} {mem : ℕ → UInt8} {size : ℕ}
  {op : Isa.Operation}

/-- What `execInstruction` executes, the processor executes. -/
theorem execute_of_exec {instr : Instruction} {outcome : Outcome}
    (h : execInstruction instr r = some outcome) :
    execute mmu instr r mem = Outcome.cycle mem (some outcome) := by
  obtain ⟨opCode, rs, rt, rd, extra⟩ := instr
  cases opCode <;> first | (rw [← h]; rfl) | cases h

/-- An overflow leaves the registers settled. -/
theorem execInstruction_overflow {instr : Instruction} {q : Registers}
    (h : execInstruction instr r = some (.overflow q)) : q.Settled := by
  unfold execInstruction at h
  dsimp only at h
  split at h
  case h_33 => cases h
  all_goals repeat' split at h
  all_goals
    first
    | (cases h; exact Registers.settled_delayedLoad)
    | cases Option.some.inj h

theorem follows_of_harmless (hs : r.Settled) (hharmless : Isa.Harmless w (visible r))
    (hop : Isa.operation w (visible r) = some op) : Follows w r := by
  by_cases h0 : Isa.opcode w = 0
  · obtain ⟨hsrl, hsrlv, hdiv⟩ := hharmless h0
    by_cases h2 : Isa.funct w = 2
    · exact (follows_srl hs.zero hs.load h0 h2).mpr (hsrl h2)
    by_cases h6 : Isa.funct w = 6
    · exact (follows_srlv hs.zero hs.load h0 h6).mpr (hsrlv h6)
    by_cases h26 : Isa.funct w = 26
    · exact (follows_div hs.zero hs.load h0 h26).mpr (hdiv h26)
    · exact follows_special hs.zero hs.load h0 hop h2 h6 h26
  · exact follows_immediate hs.zero hs.load h0 hop

/-- **The processor computes as the architecture does.** -/
theorem execute_operation (hs : r.Settled) (hharmless : Isa.Harmless w (visible r))
    (hop : Isa.operation w (visible r) = some op) :
    ∃ o, (execute mmu (decode w) r mem).outcome = some o ∧
      Isa.Executes size w (visible r) mem o := by
  obtain ⟨op', outcome, effect, hop', hexec, heffect, hallows⟩ :=
    follows_of_harmless hs hharmless hop
  rw [execute_of_exec hexec]
  cases outcome with
  | next q =>
    obtain rfl := Option.some.inj heffect
    obtain ⟨hzero, hload⟩ := execInstruction_ready hexec
    have hq : q.Settled := ⟨hzero, hload⟩
    refine ⟨.next (visible q) mem, ?_, .compute hop' hallows⟩
    show some (Isa.Outcome.next q.seen mem) = _
    rw [hq.seen_eq]
  | overflow q =>
    obtain rfl := Option.some.inj heffect
    have hq : q.Settled := execInstruction_overflow hexec
    refine ⟨.exception .overflow (visible q) mem, ?_, .overflow hop' hallows⟩
    show some (Isa.Outcome.exception .overflow q.seen mem) = _
    rw [hq.seen_eq]
  | undefined => cases heffect

end Compute

/-! ## Loads and stores -/

section Memory
variable {r : Registers} {w : BitVec 32} {mem : ℕ → UInt8} {size : ℕ}

theorem valueAt_byte (mem : ℕ → UInt8) (a : ℕ) : Isa.valueAt mem a 1 = (mem a).toNat := by
  simp [Isa.valueAt]

theorem valueAt_half (mem : ℕ → UInt8) (a : ℕ) :
    Isa.valueAt mem a 2 = (mem a).toNat + 256 * (mem (a + 1)).toNat := by
  simp [Isa.valueAt]

theorem valueAt_word (mem : ℕ → UInt8) (a : ℕ) : Isa.valueAt mem a 4 =
    (mem a).toNat + 256 * (mem (a + 1)).toNat + 256 ^ 2 * (mem (a + 2)).toNat +
      256 ^ 3 * (mem (a + 3)).toNat := by
  show (mem a).toNat + 256 * ((mem (a + 1)).toNat + 256 * ((mem (a + 2)).toNat +
    256 * ((mem (a + 3)).toNat + 256 * 0))) = _
  omega

/-- The value of a byte with its sign. -/
theorem loaded_lb (mem : ℕ → UInt8) (a : ℕ) :
    (if BitVec.ofInt 32 (Width.byte.load mem a) &&& 0x80#32 ≠ 0#32 then
        BitVec.ofInt 32 (Width.byte.load mem a) ||| 0xFFFFFF00#32
      else BitVec.ofInt 32 (Width.byte.load mem a) &&& 0xFF#32) = Isa.loaded mem a 1 true := by
  have hall : ∀ x : Fin 256,
      (if BitVec.ofInt 32 (Int.bmod x 256) &&& 0x80#32 ≠ 0#32 then
        BitVec.ofInt 32 (Int.bmod x 256) ||| 0xFFFFFF00#32
      else BitVec.ofInt 32 (Int.bmod x 256) &&& 0xFF#32) = BitVec.ofInt 32 (Int.bmod x 256) := by
    decide +kernel
  rw [Isa.loaded, if_pos rfl, valueAt_byte]
  exact hall ⟨(mem a).toNat, (mem a).toNat_lt⟩

/-- The value of a byte without a sign. -/
theorem loaded_lbu (mem : ℕ → UInt8) (a : ℕ) :
    BitVec.ofInt 32 (Width.byte.load mem a) &&& 0xFF#32 = Isa.loaded mem a 1 false := by
  have hall : ∀ x : Fin 256,
      BitVec.ofInt 32 (Int.bmod x 256) &&& 0xFF#32 = BitVec.ofNat 32 x := by
    decide +kernel
  rw [Isa.loaded, if_neg Bool.false_ne_true, valueAt_byte]
  exact hall ⟨(mem a).toNat, (mem a).toNat_lt⟩

/-- The value of two bytes, as the memory management unit gives it. -/
theorem load_half (mem : ℕ → UInt8) (a : ℕ) : Isa.valueAt mem a 2 < 2 ^ 16 ∧
    BitVec.ofInt 32 (Width.half.load mem a) = BitVec.ofNat 32 (Isa.valueAt mem a 2) := by
  have h0 := (mem a).toNat_lt
  have h1 := (mem (a + 1)).toNat_lt
  rw [valueAt_half]
  refine ⟨by omega, ?_⟩
  rw [← BitVec.ofInt_natCast]
  rfl

theorem and_half {x : ℕ} (hx : x < 2 ^ 16) :
    BitVec.ofNat 32 x &&& 0xFFFF#32 = BitVec.ofNat 32 x := by
  refine BitVec.eq_of_toNat_eq ?_
  rw [immediate_eq, Isa.immediate, BitVec.toNat_ofNat]
  omega

theorem bmod_half {x : ℕ} (hx : x < 2 ^ 16) :
    Int.bmod x (256 ^ 2) = if x < 2 ^ 15 then (x : ℤ) else x - 2 ^ 16 := by
  rw [Int.bmod_def]
  norm_num
  split <;> split <;> omega

/-- The value of two bytes with their sign. -/
theorem loaded_lh (mem : ℕ → UInt8) (a : ℕ) :
    (if BitVec.ofInt 32 (Width.half.load mem a) &&& 0x8000#32 ≠ 0#32 then
        BitVec.ofInt 32 (Width.half.load mem a) ||| 0xFFFF0000#32
      else BitVec.ofInt 32 (Width.half.load mem a) &&& 0xFFFF#32) = Isa.loaded mem a 2 true := by
  obtain ⟨hlt, hload⟩ := load_half mem a
  have hmod : Isa.valueAt mem a 2 % 2 ^ 32 % 2 ^ 16 = Isa.valueAt mem a 2 := by omega
  have hsign := signExtended_eq (w := BitVec.ofNat 32 (Isa.valueAt mem a 2))
  rw [signExtended, and_half hlt] at hsign
  rw [hload, and_half hlt, Isa.loaded, if_pos rfl, hsign, Isa.signedImmediate, Isa.immediate,
    BitVec.toNat_ofNat, hmod, bmod_half hlt]

/-- The value of two bytes without a sign. -/
theorem loaded_lhu (mem : ℕ → UInt8) (a : ℕ) :
    BitVec.ofInt 32 (Width.half.load mem a) &&& 0xFFFF#32 = Isa.loaded mem a 2 false := by
  obtain ⟨hlt, hload⟩ := load_half mem a
  rw [hload, and_half hlt, Isa.loaded, if_neg Bool.false_ne_true]

/-- The value of a word. -/
theorem loaded_lw (mem : ℕ → UInt8) (a : ℕ) :
    BitVec.ofInt 32 (Width.word.load mem a) = Isa.loaded mem a 4 true := by
  have hpow : 256 ^ 4 = 2 ^ 32 := by norm_num
  rw [Isa.loaded, if_pos rfl, valueAt_word, hpow]
  unfold Width.load
  dsimp only
  simp only [Nat.cast_add, Nat.cast_mul, Nat.cast_pow, Nat.cast_ofNat]

/-- **What is stored.** -/
theorem blit_storeByte (mem : ℕ → UInt8) (a : ℕ) (v : BitVec 32) {n : ℕ} (hn : n ≤ 4) :
    blit mem a n (storeByte v.toInt) = Isa.storeAt mem a n v.toNat := by
  funext x
  rw [blit, Isa.storeAt]
  by_cases hx : a ≤ x ∧ x < a + n
  · rw [if_pos hx, if_pos hx, storeByte]
    have hi : x - a < 4 := by omega
    generalize x - a = i at hi
    congr 1
    have hv := v.toInt_eq_toNat_cond
    have hlt := v.isLt
    split at hv
    · rw [hv]
      norm_cast
    · rw [hv]
      interval_cases i
      all_goals omega
  · rw [if_neg hx, if_neg hx]

theorem address_eq (r : Registers) (w : BitVec 32) :
    (r (Isa.rs w) + BitVec.ofInt 32 (Isa.signedImmediate w)).toNat =
      Isa.address w (visible r) := by
  rw [add_eq_ofInt, BitVec.toNat_ofInt, toInt_immediate]
  rfl

/-- **A load.** -/
theorem Registers.Settled.outcome_read (hs : r.Settled) (width : Width) (signed : Bool)
    (convert : BitVec 32 → BitVec 32)
    (hvalue : ∀ a, convert (BitVec.ofInt 32 (width.load mem a)) =
      Isa.loaded mem a width.bytes signed) :
    (readMem (flatMmu size) r mem (r (Isa.rs w) + BitVec.ofInt 32 (Isa.signedImmediate w)) width
      fun value mem => Cycle.done (r.advance (r nextPcReg + 4) (BitVec.ofNat 32 (Isa.rt w))
        (convert value)) mem).outcome =
      some ((Isa.Access.load width.bytes signed).outcome size w (visible r) mem) := by
  unfold readMem flatMmu
  dsimp only
  rw [address_eq]
  unfold Isa.Access.outcome Isa.Access.bytes
  dsimp only
  by_cases haligned : Isa.address w (visible r) % width.bytes ≠ 0
  · rw [if_pos haligned, if_pos haligned]
    exact hs.outcome_raise rfl _
  rw [if_neg haligned, if_neg haligned]
  by_cases hinside : Isa.address w (visible r) < size
  · rw [if_pos hinside, if_neg (Nat.not_le.mpr hinside)]
    show some (Isa.Outcome.next (Registers.seen _) mem) = _
    rw [seen_advance hs.load, hs.set_zero, hvalue, Isa.Cpu.advance_eq, Isa.Cpu.write_nextPc]
    rfl
  · rw [if_neg hinside, if_pos (Nat.not_lt.mp hinside)]
    exact hs.outcome_raise rfl _

/-- **A store.** -/
theorem Registers.Settled.outcome_write (hs : r.Settled) (width : Width) :
    (writeMem (flatMmu size) r mem (r (Isa.rs w) + BitVec.ofInt 32 (Isa.signedImmediate w)) width
      (r (Isa.rt w)) fun mem => Cycle.done (r.advance (r nextPcReg + 4) 0#32 0#32) mem).outcome =
      some ((Isa.Access.store width.bytes).outcome size w (visible r) mem) := by
  have hrt : (visible r).gpr (Isa.rt w) = r (Isa.rt w) := rfl
  have hbytes : width.bytes ≤ 4 := by cases width <;> decide
  unfold writeMem flatMmu
  dsimp only
  rw [address_eq]
  unfold Isa.Access.outcome Isa.Access.bytes
  dsimp only
  by_cases haligned : Isa.address w (visible r) % width.bytes ≠ 0
  · rw [if_pos haligned, if_pos haligned]
    exact hs.outcome_raise rfl _
  rw [if_neg haligned, if_neg haligned]
  by_cases hinside : Isa.address w (visible r) < size
  · rw [if_pos hinside, if_neg (Nat.not_le.mpr hinside), hrt, ← blit_storeByte _ _ _ hbytes]
    exact hs.outcome_go rfl
  · rw [if_neg hinside, if_pos (Nat.not_lt.mp hinside)]
    exact hs.outcome_raise rfl _

/-- An alignment that is tested before the memory management unit tests it. -/
theorem Registers.Settled.outcome_tested (hs : r.Settled) {a : Isa.Access} {addr mask : BitVec 32}
    {c : Cycle (ℕ → UInt8)} (haddr : addr.toNat = Isa.address w (visible r))
    (hmask : addr &&& mask = 0#32 ↔ addr.toNat % a.bytes = 0)
    (h : c.outcome = some (a.outcome size w (visible r) mem)) :
    (if addr &&& mask ≠ 0#32 then .raised (.mmu .addressError) (r.raise addr) mem else c).outcome =
      some (a.outcome size w (visible r) mem) := by
  by_cases haligned : addr &&& mask = 0#32
  · rwa [if_neg (not_not_intro haligned)]
  · have hodd : Isa.address w (visible r) % a.bytes ≠ 0 := by
      rw [← haddr]
      exact fun h0 => haligned (hmask.mpr h0)
    unfold Isa.Access.outcome
    dsimp only
    rw [if_pos haligned, if_pos hodd]
    exact hs.outcome_raise rfl _

/-- The low bits of an address. -/
theorem and_mask_eq_zero {addr mask : BitVec 32} {n : ℕ} (hmask : mask.toNat = 2 ^ n - 1) :
    addr &&& mask = 0#32 ↔ addr.toNat % 2 ^ n = 0 := by
  rw [← BitVec.toNat_inj, BitVec.toNat_and, hmask, Nat.and_two_pow_sub_one_eq_mod]
  rfl

/-- **The processor loads and stores as the architecture does.** -/
theorem execute_access (hs : r.Settled) {a : Isa.Access} (ha : Isa.access w = some a) :
    (execute (flatMmu size) (decode w) r mem).outcome =
      some (a.outcome size w (visible r) mem) := by
  unfold Isa.access at ha
  split at ha
  case h_1 hop =>
    cases ha
    rw [@decode_immediate w .lb (by rw [hop]; rfl), execute]
    dsimp only
    exact hs.outcome_read .byte true _ (loaded_lb mem)
  case h_2 hop =>
    cases ha
    rw [@decode_immediate w .lh (by rw [hop]; rfl), execute]
    dsimp only
    exact hs.outcome_tested (address_eq r w) (and_mask_eq_zero (n := 1) rfl)
      (hs.outcome_read .half true _ (loaded_lh mem))
  case h_3 hop =>
    cases ha
    rw [@decode_immediate w .lw (by rw [hop]; rfl), execute]
    dsimp only
    exact hs.outcome_tested (address_eq r w) (and_mask_eq_zero (n := 2) rfl)
      (hs.outcome_read .word true id (loaded_lw mem))
  case h_4 hop =>
    cases ha
    rw [@decode_immediate w .lbu (by rw [hop]; rfl), execute]
    dsimp only
    exact hs.outcome_read .byte false _ (loaded_lbu mem)
  case h_5 hop =>
    cases ha
    rw [@decode_immediate w .lhu (by rw [hop]; rfl), execute]
    dsimp only
    exact hs.outcome_tested (address_eq r w) (and_mask_eq_zero (n := 1) rfl)
      (hs.outcome_read .half false _ (loaded_lhu mem))
  case h_6 hop =>
    cases ha
    rw [@decode_immediate w .sb (by rw [hop]; rfl), execute]
    dsimp only
    exact hs.outcome_write .byte
  case h_7 hop =>
    cases ha
    rw [@decode_immediate w .sh (by rw [hop]; rfl), execute]
    dsimp only
    exact hs.outcome_write .half
  case h_8 hop =>
    cases ha
    rw [@decode_immediate w .sw (by rw [hop]; rfl), execute]
    dsimp only
    exact hs.outcome_write .word
  case h_9 => cases ha

end Memory

/-! ## Every instruction -/

section Every
variable {r : Registers} {w : BitVec 32} {mem : ℕ → UInt8} {size : ℕ}

/-- The functions that are no instructions. -/
theorem specialTable_reserved {f : ℕ} (hf : f < 64) (hcontrol : f ∉ [8, 9, 12])
    (hop : f ∉ [0, 2, 3, 4, 6, 7, 16, 17, 18, 19, 24, 25, 26, 27, 32, 33, 34, 35, 36, 37, 38, 39,
      42, 43]) : specialTable.getD f .res = .res ∨ specialTable.getD f .res = .unimp := by
  revert f
  decide

/-- The operation codes that are no instructions. -/
theorem opTable_reserved {op : ℕ} (hop : op < 64) (hbranch : op ∉ [0, 1, 2, 3, 4, 5, 6, 7])
    (hcompute : op ∉ [8, 9, 10, 11, 12, 13, 14, 15])
    (haccess : op ∉ [32, 33, 35, 36, 37, 40, 41, 43]) (hpart : op ∉ [34, 38, 42, 46]) :
    opTable[op]? = some (.op .res, .ifmt) ∨ opTable[op]? = some (.op .unimp, .ifmt) := by
  interval_cases op
  all_goals
    first
    | exact .inl rfl
    | exact .inr rfl
    | simp at hbranch hcompute haccess hpart

theorem not_mem_of_special {c : Isa.Cpu} (h : Isa.special w c = none) :
    Isa.funct w ∉ [0, 2, 3, 4, 6, 7, 16, 17, 18, 19, 24, 25, 26, 27, 32, 33, 34, 35, 36, 37, 38, 39,
      42, 43] := by
  intro hmem
  simp only [List.mem_cons, List.not_mem_nil, or_false] at hmem
  unfold Isa.special at h
  dsimp only at h
  split at h
  case h_25 => grind
  all_goals repeat' split at h
  all_goals cases h

/-- **The processor knows no other instruction.** -/
theorem decode_reserved (hop : Isa.operation w (visible r) = none)
    (hcontrol : Isa.control w (visible r) = none) (haccess : Isa.access w = none)
    (hsyscall : ¬ Isa.IsSyscall w)
    (hwhole : Isa.opcode w ≠ 34 ∧ Isa.opcode w ≠ 38 ∧ Isa.opcode w ≠ 42 ∧ Isa.opcode w ≠ 46) :
    (decode w).opCode = .res ∨ (decode w).opCode = .unimp := by
  have hlt : Isa.opcode w < 64 := by
    have hw := w.isLt
    rw [Isa.opcode]
    omega
  unfold Isa.operation at hop
  unfold Isa.control at hcontrol
  unfold Isa.access at haccess
  dsimp only at hop hcontrol
  by_cases h0 : Isa.opcode w = 0
  · rw [h0] at hop hcontrol
    rw [decode_special h0]
    refine specialTable_reserved (Nat.mod_lt _ (by decide)) ?_ (not_mem_of_special hop)
    intro hmem
    simp only [List.mem_cons, List.not_mem_nil, or_false] at hmem
    rcases hmem with h | h | h
    · rw [h] at hcontrol
      cases hcontrol
    · rw [h] at hcontrol
      cases hcontrol
    · exact hsyscall ⟨h0, h⟩
  by_cases h1 : Isa.opcode w = 1
  · rw [decode_bcond h1, bcondCode_eq]
    right
    split at hcontrol
    case h_2 =>
      split at hcontrol
      case h_5 => rfl
      all_goals cases hcontrol
    case h_9 hne _ _ _ _ _ _ => exact absurd h1 hne
    all_goals omega
  have hcases : opTable[Isa.opcode w]? = some (.op .res, .ifmt) ∨
      opTable[Isa.opcode w]? = some (.op .unimp, .ifmt) := by
    apply opTable_reserved hlt
    all_goals
      intro hmem
      simp only [List.mem_cons, List.not_mem_nil, or_false] at hmem
    · rcases hmem with h | h | h | h | h | h | h | h
      · exact h0 h
      · exact h1 h
      all_goals
        rw [h] at hcontrol
        cases hcontrol
    · rcases hmem with h | h | h | h | h | h | h | h
      all_goals
        rw [h] at hop
        cases hop
    · rcases hmem with h | h | h | h | h | h | h | h
      all_goals
        rw [h] at haccess
        cases haccess
    · omega
  rcases hcases with h | h
  · rw [decode_immediate h]
    exact .inl rfl
  · rw [decode_immediate h]
    exact .inr rfl

/-- **The processor executes an instruction as the architecture does.** -/
theorem execute_executes (hs : r.Settled) (hc : Isa.Covered w (visible r)) :
    ∃ o, (execute (flatMmu size) (decode w) r mem).outcome = some o ∧
      Isa.Executes size w (visible r) mem o := by
  cases hop : Isa.operation w (visible r) with
  | some op => exact execute_operation hs hc.harmless hop
  | none =>
    cases hcontrol : Isa.control w (visible r) with
    | some k => exact ⟨_, execute_control hs hc hcontrol, .control hcontrol⟩
    | none =>
      cases haccess : Isa.access w with
      | some a => exact ⟨_, execute_access hs haccess, .access haccess⟩
      | none =>
        by_cases hsyscall : Isa.IsSyscall w
        · refine ⟨_, ?_, .syscall hsyscall⟩
          rw [decode_special hsyscall.1, hsyscall.2]
          exact hs.outcome_raise rfl _
        · refine ⟨_, ?_, .reserved hop hcontrol haccess hsyscall⟩
          have hcode := decode_reserved hop hcontrol haccess hsyscall hc.whole
          generalize decode w = instr at hcode
          obtain ⟨opCode, rs, rt, rd, extra⟩ := instr
          rcases hcode with rfl | rfl
          · exact hs.outcome_raise rfl _
          · exact hs.outcome_raise rfl _

theorem fetched_eq (r : Registers) (mem : ℕ → UInt8) :
    BitVec.ofInt 32 (Width.word.load mem (r pcReg).toNat) = Isa.fetched (visible r) mem := by
  have hsame : BitVec.ofInt 32 (Isa.valueAt mem (r pcReg).toNat 4) =
      Isa.fetched (visible r) mem := BitVec.ofInt_natCast ..
  rw [loaded_lw, Isa.loaded, if_pos rfl, ← hsame]
  refine BitVec.eq_of_toInt_eq ?_
  rw [BitVec.toInt_ofInt, BitVec.toInt_ofInt]
  exact Int.bmod_bmod

/-- A cycle of registers that are settled. -/
theorem Registers.Settled.cycle_executes (hs : r.Settled)
    (hc : Isa.Covered (Isa.fetched (visible r) mem) (visible r)) :
    ∃ o, (cycle (flatMmu size) r mem).outcome = some o ∧ Isa.Cycles size (visible r) mem o := by
  have hpc : (visible r).pc = r pcReg := rfl
  unfold cycle readMem flatMmu
  dsimp only
  by_cases haligned : (r pcReg).toNat % Width.word.bytes ≠ 0
  · rw [if_pos haligned]
    exact ⟨_, hs.outcome_raise rfl _, .addressError haligned⟩
  rw [if_neg haligned]
  by_cases hinside : (r pcReg).toNat < size
  · rw [if_pos hinside]
    dsimp only
    rw [fetched_eq]
    obtain ⟨o, ho, hexec⟩ := @execute_executes r _ mem size hs hc
    exact ⟨o, ho, .executed (not_not.mp haligned) hinside hexec⟩
  · rw [if_neg hinside]
    exact ⟨_, hs.outcome_raise rfl _, .busError (not_not.mp haligned) (Nat.not_lt.mp hinside)⟩

end Every

/-! ## Loads that are pending -/

section Pending
variable {r q : Registers} {mem : ℕ → UInt8} {size : ℕ}

theorem Registers.mirrors_self (hzero : r 0 = 0#32) (hpending : (r loadReg).toNat < 32) :
    r.Mirrors r :=
  ⟨⟨hpending, fun _ _ _ => rfl, Or.inl ⟨rfl, fun _ => ⟨rfl, rfl⟩⟩⟩, hzero, hzero⟩

/-- A delayed load that has been done is not seen. -/
theorem Registers.Mirrors.seen_eq (h : r.Mirrors q) : q.seen = r.seen := by
  have hdone : (r.delayedLoad 0#32 0#32).Mirrors (q.delayedLoad 0#32 0#32) :=
    h.toAgrees.delayedLoad (by decide) fun _ => rfl
  apply visible_congr
  intro i hi
  refine hdone.read ?_ (Or.inl delayedLoad_loadReg)
  simp only [nextPcReg, prevPcReg] at hi ⊢
  omega

/-- A memory without page faults implements itself, if reading it changes nothing. -/
theorem Mmu.simulates_self {μ : Type} {mmu : Mmu μ}
    (hsame : ∀ a addr w value a', mmu.readMem a addr w = .ok (value, a') → a' = a)
    (hread : ∀ a addr w, mmu.readMem a addr w ≠ .error .pageFault)
    (hwrite : ∀ a addr w value, mmu.writeMem a addr w value ≠ .error .pageFault) :
    mmu.Simulates mmu Eq fun _ _ => False where
  read := by
    rintro a _ addr w rfl
    cases h : mmu.readMem a addr w with
    | ok result =>
      obtain ⟨value, a'⟩ := result
      obtain rfl := hsame _ _ _ _ _ h
      exact .inl ⟨_, _, rfl, rfl, rfl⟩
    | error et =>
      refine .inr (.inr ⟨et, fun hfault => ?_, rfl, .inr rfl⟩)
      rw [hfault] at h
      exact hread _ _ _ h
  write := by
    rintro a _ addr w value rfl
    cases h : mmu.writeMem a addr w value with
    | ok a' => exact .inl ⟨_, _, rfl, rfl, rfl⟩
    | error et =>
      refine .inr (.inr ⟨et, fun hfault => ?_, rfl, .inr rfl⟩)
      rw [hfault] at h
      exact hwrite _ _ _ _ h

theorem flatMmu_simulates :
    (flatMmu size).Simulates (flatMmu size) Eq fun _ _ => False := by
  apply Mmu.simulates_self
  · intro a addr w value a' h
    simp only [flatMmu] at h
    split at h
    · cases h
    split at h
    · cases h
      rfl
    · cases h
  · intro a addr w h
    simp only [flatMmu] at h
    split at h
    · cases h
    split at h
    · cases h
    · cases h
  · intro a addr w value h
    simp only [flatMmu] at h
    split at h
    · cases h
    split at h
    · cases h
    · cases h

/-- **It makes no difference when the load is done.** -/
theorem cycle_delayedLoad (hzero : r 0 = 0#32) (hpending : (r loadReg).toNat < 32)
    (hfree : HazardFree (flatMmu size) r mem)
    (hinside : ∀ q mem', cycle (flatMmu size) r mem ≠ .raised (.mmu .busError) q mem') :
    (cycle (flatMmu size) (r.delayedLoad 0#32 0#32) mem).outcome =
      (cycle (flatMmu size) r mem).outcome := by
  have hsettled : r.Mirrors (r.delayedLoad 0#32 0#32) :=
    (Registers.mirrors_self hzero hpending).settled
  have hfollows := flatMmu_simulates.cycle_follows rfl hsettled hfree
  generalize cycle (flatMmu size) r mem = c at hfollows hinside ⊢
  generalize cycle (flatMmu size) (r.delayedLoad 0#32 0#32) mem = c' at hfollows ⊢
  cases hfollows with
  | done hq hm =>
    subst hm
    rw [Cycle.outcome, Cycle.outcome, hq.seen_eq]
  | raised _ hq _ hm =>
    subst hm
    rw [Cycle.outcome, Cycle.outcome, hq.seen_eq]
  | failed => rfl
  | faulted _ _ hfault => exact hfault.elim
  | outside => exact absurd rfl (hinside _ _)

/-- **A turn of the loop of `Run` is an instruction of the architecture.** -/
theorem cycle_executes (hzero : r 0 = 0#32) (hpending : (r loadReg).toNat < 32)
    (hfree : HazardFree (flatMmu size) r mem)
    (hinside : ∀ q mem', cycle (flatMmu size) r mem ≠ .raised (.mmu .busError) q mem')
    (hc : Isa.Covered (Isa.fetched r.seen mem) r.seen) :
    ∃ o, (cycle (flatMmu size) r mem).outcome = some o ∧ Isa.Cycles size r.seen mem o := by
  rw [← cycle_delayedLoad hzero hpending hfree hinside]
  exact Registers.settled_delayedLoad.cycle_executes hc

end Pending

end Machine
end PaldOs
