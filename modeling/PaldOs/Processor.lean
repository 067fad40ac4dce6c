import PaldOs.InstructionSet
import PaldOs.Paging

/-! # The processor

All of `Machine::Run`, up to the handlers of exceptions: an instruction is fetched through the
memory management unit, decoded and executed.  Branches and jumps take effect after the instruction
that follows, and so do loads: `DelayedLoad` puts a value into its register when the next
instruction has been executed, or earlier, when there is an exception or an interrupt.

An instruction that raises an exception has no other effect and is fetched again afterwards.  It
then finds the delayed load done (`Registers.Mirrors`).  That makes no difference to an instruction
that does not touch the register of the load (`cycle_simulates`): this is what lets an
implementation of memory take page faults where another takes none.
-/
namespace PaldOs
namespace Machine

/-- A memory management unit: `MMU::ReadMem` and `MMU::WriteMem`. -/
structure Mmu (μ : Type) where
  readMem : μ → ℕ → Width → Except ExceptionType (ℤ × μ)
  writeMem : μ → ℕ → Width → ℤ → Except ExceptionType μ

/-- The exceptions of the processor, those of the memory management unit among them. -/
inductive Exception where
  | syscall
  | mmu (et : ExceptionType)
  | overflow
  | illegalInstr
deriving DecidableEq

/-- What a turn of the loop of `Run` comes to. -/
inductive Cycle (μ : Type) where
  /-- The instruction is executed. -/
  | done (registers : Registers) (mem : μ)
  /-- `RaiseException`, up to the call of the handler. -/
  | raised (et : Exception) (registers : Registers) (mem : μ)
  /-- An assertion fails, or the operation of the host is not defined. -/
  | failed

/-- `RET_ADDR_REG`. -/
def retAddrReg : ℕ := 31

/-- `IndexToAddr`. -/
def indexToAddr (x : BitVec 32) : BitVec 32 := x <<< 2

/-- `RaiseException`, up to the call of the handler. -/
def Registers.raise (registers : Registers) (badVAddr : BitVec 32) : Registers :=
  (registers.set badVaddrReg badVAddr).delayedLoad 0#32 0#32

/-- The end of `ExecInstruction`. -/
def Registers.advance (registers : Registers) (pcAfter nextLoadReg nextLoadValue : BitVec 32) :
    Registers :=
  let registers := registers.delayedLoad nextLoadReg nextLoadValue
  let registers := registers.set prevPcReg (registers pcReg)
  let registers := registers.set pcReg (registers nextPcReg)
  registers.set nextPcReg pcAfter

section Execution
variable {μ : Type} (mmu : Mmu μ)

/-- `Machine::ReadMem`, with what is done with the value. -/
def readMem (registers : Registers) (mem : μ) (addr : BitVec 32) (w : Width)
    (next : BitVec 32 → μ → Cycle μ) : Cycle μ :=
  match mmu.readMem mem addr.toNat w with
  | .error et => .raised (.mmu et) (registers.raise addr) mem
  | .ok (value, mem) => next (BitVec.ofInt 32 value) mem

/-- `Machine::WriteMem`, with what is done after it. -/
def writeMem (registers : Registers) (mem : μ) (addr : BitVec 32) (w : Width) (value : BitVec 32)
    (next : μ → Cycle μ) : Cycle μ :=
  match mmu.writeMem mem addr.toNat w value.toInt with
  | .error et => .raised (.mmu et) (registers.raise addr) mem
  | .ok mem => next mem

/-- The cycle of an arithmetic instruction. -/
def Outcome.cycle (mem : μ) : Option Outcome → Cycle μ
  | some (.next registers) => .done registers mem
  | some (.overflow registers) => .raised .overflow registers mem
  | some .undefined => .failed
  | none => .failed

/-- `ExecInstruction`.  `LWL`, `LWR`, `SWL` and `SWR` assert that their address is one of a word. -/
def execute (instr : Instruction) (registers : Registers) (mem : μ) : Cycle μ :=
  let nextPc := registers nextPcReg
  let pcAfter := nextPc + 4
  let rs := registers instr.rs
  let rt := registers instr.rt
  let tmp := rs + instr.extra
  let link := registers.set retAddrReg (nextPc + 4)
  let after (registers : Registers) (pcAfter : BitVec 32) :=
    Cycle.done (registers.advance pcAfter 0#32 0#32) mem
  let branch (registers : Registers) (taken : Bool) :=
    after registers (if taken then nextPc + indexToAddr instr.extra else pcAfter)
  let load (value : BitVec 32) (mem : μ) :=
    Cycle.done (registers.advance pcAfter (BitVec.ofNat 32 instr.rt) value) mem
  let stored (mem : μ) := Cycle.done (registers.advance pcAfter 0#32 0#32) mem
  match instr.opCode with
  | .beq => branch registers (rs = rt)
  | .bgezal => branch link (link instr.rs &&& signBit = 0#32)
  | .bgez => branch registers (rs &&& signBit = 0#32)
  | .bgtz => branch registers (BitVec.slt 0#32 rs)
  | .blez => branch registers (rs.sle 0#32)
  | .bltzal => branch link (link instr.rs &&& signBit ≠ 0#32)
  | .bltz => branch registers (rs &&& signBit ≠ 0#32)
  | .bne => branch registers (rs ≠ rt)
  | .jal => after link (pcAfter &&& 0xF0000000#32 ||| indexToAddr instr.extra)
  | .j => after registers (pcAfter &&& 0xF0000000#32 ||| indexToAddr instr.extra)
  | .jalr =>
    let linked := registers.set instr.rd (nextPc + 4)
    after linked (linked instr.rs)
  | .jr => after registers rs
  | .lb => readMem mmu registers mem tmp .byte fun value =>
      load (if value &&& 0x80#32 ≠ 0#32 then value ||| 0xFFFFFF00#32 else value &&& 0xFF#32)
  | .lbu => readMem mmu registers mem tmp .byte fun value => load (value &&& 0xFF#32)
  | .lh =>
    if tmp &&& 1#32 ≠ 0#32 then .raised (.mmu .addressError) (registers.raise tmp) mem
    else readMem mmu registers mem tmp .half fun value =>
      load (if value &&& 0x8000#32 ≠ 0#32 then value ||| 0xFFFF0000#32 else value &&& 0xFFFF#32)
  | .lhu =>
    if tmp &&& 1#32 ≠ 0#32 then .raised (.mmu .addressError) (registers.raise tmp) mem
    else readMem mmu registers mem tmp .half fun value => load (value &&& 0xFFFF#32)
  | .lw =>
    if tmp &&& 3#32 ≠ 0#32 then .raised (.mmu .addressError) (registers.raise tmp) mem
    else readMem mmu registers mem tmp .word load
  | .lwl =>
    if tmp &&& 3#32 ≠ 0#32 then .failed
    else readMem mmu registers mem tmp .word load
  | .lwr =>
    if tmp &&& 3#32 ≠ 0#32 then .failed
    else readMem mmu registers mem tmp .word fun value =>
      -- what is in the register, or is about to be
      let old := if registers loadReg = BitVec.ofNat 32 instr.rt then registers loadValueReg else rt
      load (old &&& 0xFFFFFF00#32 ||| value.sshiftRight 24 &&& 0xFF#32)
  | .sb => writeMem mmu registers mem tmp .byte rt stored
  | .sh => writeMem mmu registers mem tmp .half rt stored
  | .sw => writeMem mmu registers mem tmp .word rt stored
  | .swl =>
    if tmp &&& 3#32 ≠ 0#32 then .failed
    else readMem mmu registers mem (tmp &&& ~~~3#32) .word fun _ mem =>
      writeMem mmu registers mem (tmp &&& ~~~3#32) .word rt stored
  | .swr =>
    if tmp &&& 3#32 ≠ 0#32 then .failed
    else readMem mmu registers mem (tmp &&& ~~~3#32) .word fun value mem =>
      writeMem mmu registers mem (tmp &&& ~~~3#32) .word
        (value &&& 0xFFFFFF#32 ||| rt <<< 24) stored
  | .syscall => .raised .syscall (registers.raise 0#32) mem
  | .res => .raised .illegalInstr (registers.raise 0#32) mem
  | .unimp => .raised .illegalInstr (registers.raise 0#32) mem
  | _ => Outcome.cycle mem (execInstruction instr registers)

/-- **A turn of the loop of `Run`**: `FetchInstruction` and `ExecInstruction`. -/
def cycle (registers : Registers) (mem : μ) : Cycle μ :=
  readMem mmu registers mem (registers pcReg) .word fun raw mem =>
    execute mmu (decode raw) registers mem

end Execution

/-- The registers that the instruction reads before it is executed or writes at once: a load only
reads the register of its address. -/
def Instruction.touches (instr : Instruction) : List ℕ :=
  match instr.opCode with
  | .lui => [instr.rt]
  | .mfhi | .mflo => [instr.rd]
  | .mthi | .mtlo | .jr | .bgez | .bgtz | .blez | .bltz => [instr.rs]
  | .bgezal | .bltzal => [instr.rs, retAddrReg]
  | .jal => [retAddrReg]
  | .jalr => [instr.rs, instr.rd]
  | .lb | .lbu | .lh | .lhu | .lw | .lwl | .lwr => [instr.rs]
  | .sll | .sra | .srl => [instr.rt, instr.rd]
  | .addi | .addiu | .andi | .ori | .slti | .sltiu | .xori | .beq | .bne | .div | .divu | .mult
    | .multu | .sb | .sh | .sw | .swl | .swr => [instr.rs, instr.rt]
  | .add | .addu | .and | .nor | .or | .sllv | .slt | .sltu | .srav | .srlv | .sub | .subu
    | .xor => [instr.rs, instr.rt, instr.rd]
  | .j | .syscall | .res | .unimp | .rfe => []

/-! ## Before and after a delayed load -/

/-- **The registers seen through an exception**: those of `r'` are those of `r`, except that the
delayed load may have been done.  What is in `BAD_VADDR_REG` is left open, and what `LOAD_VALUE_REG`
has for register 0. -/
structure Registers.Agrees (r r' : Registers) : Prop where
  pending : (r loadReg).toNat < 32
  same : ∀ i, i ≤ prevPcReg → i ≠ (r loadReg).toNat → r' i = r i
  load : (r' loadReg = r loadReg ∧ (r loadReg ≠ 0#32 →
      r' loadValueReg = r loadValueReg ∧ r' (r loadReg).toNat = r (r loadReg).toNat)) ∨
    (r' loadReg = 0#32 ∧ (r loadReg ≠ 0#32 → r' (r loadReg).toNat = r loadValueReg))

/-- And register 0 is zero, as it is between two instructions. -/
structure Registers.Mirrors (r r' : Registers) : Prop extends Registers.Agrees r r' where
  zero : r 0 = 0#32
  zero' : r' 0 = 0#32

/-- Register `i` is not the one that is about to be loaded. -/
def Registers.Free (r : Registers) (i : ℕ) : Prop := r loadReg = 0#32 ∨ i ≠ (r loadReg).toNat

section Registers
variable {r r' : Registers} {pcAfter n v v' : BitVec 32} {i : ℕ}

/-- The registers after `DelayedLoad`. -/
theorem Registers.delayedLoad_eq (hi : i ≤ prevPcReg) : r.delayedLoad n v i =
    if i = 0 then 0#32 else if i = (r loadReg).toNat then r loadValueReg else r i := by
  have h37 : i ≠ loadReg := by
    simp only [prevPcReg, loadReg] at hi ⊢
    omega
  have h38 : i ≠ loadValueReg := by
    simp only [prevPcReg, loadValueReg] at hi ⊢
    omega
  by_cases h0 : i = 0
  · rw [if_pos h0, h0]
    exact delayedLoad_zero n v
  · rw [if_neg h0, delayedLoad, set_of_ne _ h0, set_of_ne _ h38, set_of_ne _ h37]
    by_cases hp : i = (r loadReg).toNat
    · rw [if_pos hp, hp, set_self]
    · rw [if_neg hp, set_of_ne _ hp]

theorem Registers.delayedLoad_loadReg : r.delayedLoad n v loadReg = n := by
  rw [delayedLoad, set_of_ne _ (by decide), set_of_ne _ (by decide), set_self]

theorem Registers.delayedLoad_loadValueReg : r.delayedLoad n v loadValueReg = v := by
  rw [delayedLoad, set_of_ne _ (by decide), set_self]

/-- A register that is not about to be loaded. -/
theorem Registers.Mirrors.read (h : r.Mirrors r') (hi : i ≤ prevPcReg) (hfree : r.Free i) :
    r' i = r i := by
  by_cases hp : i = (r loadReg).toNat
  · have hzero : r loadReg = 0#32 := hfree.resolve_right (not_not_intro hp)
    rw [hzero] at hp
    rw [hp]
    exact h.zero'.trans h.zero.symm
  · exact h.same i hi hp

/-- The program counters are never loaded. -/
theorem Registers.Agrees.read_pc (h : r.Agrees r') (hlow : 32 ≤ i) (hi : i ≤ prevPcReg) :
    r' i = r i := by
  have hpending := h.pending
  exact h.same i hi (by omega)

/-- A register that is not about to be loaded is written. -/
theorem Registers.Agrees.set (h : r.Agrees r') (hi : i ≤ prevPcReg) (hfree : r.Free i)
    (value : BitVec 32) : (r.set i value).Agrees (r'.set i value) := by
  have h37 : loadReg ≠ i := by
    simp only [prevPcReg, loadReg] at hi ⊢
    omega
  have h38 : loadValueReg ≠ i := by
    simp only [prevPcReg, loadValueReg] at hi ⊢
    omega
  refine ⟨?_, fun j hj hne => ?_, ?_⟩
  · rw [set_of_ne _ h37]
    exact h.pending
  · rw [set_of_ne _ h37] at hne
    by_cases hji : j = i
    · rw [hji, set_self, set_self]
    · rw [set_of_ne _ hji, set_of_ne _ hji]
      exact h.same j hj hne
  · simp only [set_of_ne _ h37, set_of_ne _ h38]
    by_cases hp : (r loadReg).toNat = i
    · have hzero : r loadReg = 0#32 := hfree.resolve_right (not_not_intro hp.symm)
      rcases h.load with ⟨hsame, -⟩ | ⟨hdone, -⟩
      · exact Or.inl ⟨hsame, fun hne => absurd hzero hne⟩
      · exact Or.inr ⟨hdone, fun hne => absurd hzero hne⟩
    · rw [set_of_ne _ hp, set_of_ne _ hp]
      exact h.load

/-- **After a delayed load the registers are the same.** -/
theorem Registers.Agrees.delayedLoad (h : r.Agrees r') (hn : n.toNat < 32)
    (hv : n ≠ 0#32 → v' = v) : (r.delayedLoad n v).Mirrors (r'.delayedLoad n v') := by
  have hall : ∀ i, i ≤ prevPcReg → r'.delayedLoad n v' i = r.delayedLoad n v i := by
    intro i hi
    rw [delayedLoad_eq hi, delayedLoad_eq hi]
    by_cases h0 : i = 0
    · rw [if_pos h0, if_pos h0]
    · rw [if_neg h0, if_neg h0]
      by_cases hp : i = (r loadReg).toNat
      · have hne : r loadReg ≠ 0#32 := by
          intro hzero
          rw [hzero] at hp
          exact h0 hp
        rw [if_pos hp]
        rcases h.load with ⟨hsame, hvalue⟩ | ⟨hdone, hvalue⟩
        · rw [if_pos (hp.trans (congrArg BitVec.toNat hsame.symm))]
          exact (hvalue hne).1
        · rw [if_neg (by rw [hdone]; exact h0), hp]
          exact hvalue hne
      · rw [if_neg hp, if_neg]
        · exact h.same i hi hp
        · rcases h.load with ⟨hsame, -⟩ | ⟨hdone, -⟩
          · rw [hsame]
            exact hp
          · rw [hdone]
            exact h0
  refine ⟨⟨?_, fun i hi _ => hall i hi, Or.inl ⟨?_, fun hne => ⟨?_, ?_⟩⟩⟩, ?_, ?_⟩
  · rw [delayedLoad_loadReg]
    exact hn
  · rw [delayedLoad_loadReg, delayedLoad_loadReg]
  · rw [delayedLoad_loadReg] at hne
    rw [delayedLoad_loadValueReg, delayedLoad_loadValueReg]
    exact hv hne
  · rw [delayedLoad_loadReg]
    apply hall
    simp only [prevPcReg]
    omega
  · exact delayedLoad_zero n v
  · exact delayedLoad_zero n v'

/-- An instruction is executed. -/
theorem Registers.Agrees.advance (h : r.Agrees r') (hn : n.toNat < 32) (hv : n ≠ 0#32 → v' = v) :
    (r.advance pcAfter n v).Mirrors (r'.advance pcAfter n v') := by
  have hload := h.delayedLoad hn hv
  have hfree : ∀ (q : Registers) (i : ℕ), (q loadReg).toNat < 32 → 32 ≤ i → q.Free i :=
    fun q i hq hi => Or.inr (by omega)
  have hpc := hload.read_pc (i := pcReg) (by decide) (by decide)
  unfold Registers.advance
  dsimp only
  rw [hpc]
  have hprev := hload.toAgrees.set (i := prevPcReg) (by decide)
    (hfree _ _ hload.pending (by decide)) (r.delayedLoad n v pcReg)
  rw [hprev.read_pc (i := nextPcReg) (by decide) (by decide)]
  have hnow := hprev.set (i := pcReg) (by decide) (hfree _ _ hprev.pending (by decide))
    ((r.delayedLoad n v).set prevPcReg (r.delayedLoad n v pcReg) nextPcReg)
  have hnext := hnow.set (i := nextPcReg) (by decide) (hfree _ _ hnow.pending (by decide)) pcAfter
  -- register 0 is no program counter
  refine ⟨hnext, ?_, ?_⟩
  · rw [set_of_ne _ (by decide), set_of_ne _ (by decide), set_of_ne _ (by decide)]
    exact hload.zero
  · rw [set_of_ne _ (by decide), set_of_ne _ (by decide), set_of_ne _ (by decide)]
    exact hload.zero'

/-- The address of an exception is not looked at. -/
theorem Registers.Agrees.set_badVaddr (h : r.Agrees r') (value value' : BitVec 32) :
    (r.set badVaddrReg value).Agrees (r'.set badVaddrReg value') := by
  have hother : ∀ (q : Registers) (x : BitVec 32) (i : ℕ), i ≤ prevPcReg →
      q.set badVaddrReg x i = q i := by
    intro q x i hi
    refine set_of_ne _ ?_
    simp only [prevPcReg, badVaddrReg] at hi ⊢
    omega
  have hpending : (r loadReg).toNat ≤ prevPcReg := by
    have hlt := h.pending
    simp only [prevPcReg]
    omega
  refine ⟨?_, fun i hi hne => ?_, ?_⟩
  · rw [set_of_ne _ (by decide)]
    exact h.pending
  · rw [set_of_ne _ (by decide)] at hne
    rw [hother _ _ _ hi, hother _ _ _ hi]
    exact h.same i hi hne
  · have h37 : loadReg ≠ badVaddrReg := by decide
    have h38 : loadValueReg ≠ badVaddrReg := by decide
    rw [set_of_ne _ h37, set_of_ne _ h37, set_of_ne _ h38, set_of_ne _ h38,
      hother _ _ _ hpending, hother _ _ _ hpending]
    exact h.load

/-- The delayed load does not change the address of an exception. -/
theorem Registers.Agrees.raise_badVaddr (h : r.Agrees r') (addr : BitVec 32) :
    r'.raise addr badVaddrReg = addr := by
  have hpending : badVaddrReg ≠ (r' loadReg).toNat := by
    have hlt := h.pending
    simp only [badVaddrReg]
    rcases h.load with ⟨hsame, -⟩ | ⟨hdone, -⟩
    · rw [hsame]
      omega
    · rw [hdone]
      decide
  rw [raise, Registers.delayedLoad, set_of_ne _ (by decide), set_of_ne _ (by decide),
    set_of_ne _ (by decide), set_of_ne _ (by decide : loadReg ≠ badVaddrReg),
    set_of_ne _ hpending, set_self]

/-- Both raise an exception. -/
theorem Registers.Agrees.raise (h : r.Agrees r') (addr addr' : BitVec 32) :
    (r.raise addr).Mirrors (r'.raise addr') :=
  (h.set_badVaddr addr addr').delayedLoad (by decide) fun _ => rfl

/-- **Only one has the delayed load done.** -/
theorem Registers.Mirrors.settled (h : r.Mirrors r') :
    r.Mirrors (r'.delayedLoad 0#32 0#32) := by
  have hboth : (r.delayedLoad 0#32 0#32).Mirrors (r'.delayedLoad 0#32 0#32) :=
    h.toAgrees.delayedLoad (by decide) fun _ => rfl
  have hnone : (r.delayedLoad 0#32 0#32) loadReg = 0#32 := delayedLoad_loadReg
  have hpending : (r loadReg).toNat ≤ prevPcReg := by
    have hlt := h.pending
    simp only [prevPcReg]
    omega
  have hread : ∀ i, i ≤ prevPcReg →
      r'.delayedLoad 0#32 0#32 i = r.delayedLoad 0#32 0#32 i := fun i hi =>
    hboth.read hi (Or.inl hnone)
  refine ⟨⟨h.pending, fun i hi hne => ?_, Or.inr ⟨delayedLoad_loadReg, fun hne => ?_⟩⟩, h.zero,
    hboth.zero'⟩
  · rw [hread i hi, delayedLoad_eq hi, if_neg hne]
    split
    · rename_i h0
      rw [h0, h.zero]
    · rfl
  · rw [hread _ hpending, delayedLoad_eq hpending, if_pos rfl, if_neg]
    intro h0
    exact hne (BitVec.eq_of_toNat_eq h0)

/-- One raises an exception. -/
theorem Registers.Mirrors.raised (h : r.Mirrors r') (addr : BitVec 32) :
    r.Mirrors (r'.raise addr) := by
  have hbad : r.Agrees (r'.set badVaddrReg addr) := by
    have hself := h.toAgrees.set_badVaddr (r badVaddrReg) addr
    have hsame : r.set badVaddrReg (r badVaddrReg) = r := Function.update_eq_self ..
    rwa [hsame] at hself
  have hzero' : r'.set badVaddrReg addr 0 = 0#32 := by
    rw [set_of_ne _ (by decide)]
    exact h.zero'
  exact (Registers.Mirrors.mk hbad h.zero hzero').settled

end Registers

/-! ## One memory for another -/

section Simulation
variable {α β : Type} {A : Mmu α} {B : Mmu β} {M : α → β → Prop} {F : ℕ → β → Prop}
  {a a' : α} {b b' : β} {r r' : Registers}

/-- **`B` implements `A`, which takes no page faults**, by the relation `M` between their memories:
what `A` reads and writes, `B` reads and writes too or takes a page fault at, where `F` is what is
known of the address.  A bus error of `A`, at an address it does not have, says nothing of `B`. -/
structure Mmu.Simulates (A : Mmu α) (B : Mmu β) (M : α → β → Prop) (F : ℕ → β → Prop) : Prop where
  read : ∀ {a b addr w}, M a b →
    (∃ value b', A.readMem a addr w = .ok (value, a) ∧ B.readMem b addr w = .ok (value, b') ∧
        M a b') ∨
      (B.readMem b addr w = .error .pageFault ∧ F addr b) ∨
      ∃ et, et ≠ .pageFault ∧ A.readMem a addr w = .error et ∧
        (et = .busError ∨ B.readMem b addr w = .error et)
  write : ∀ {a b addr w value}, M a b →
    (∃ a' b', A.writeMem a addr w value = .ok a' ∧ B.writeMem b addr w value = .ok b' ∧ M a' b') ∨
      (B.writeMem b addr w value = .error .pageFault ∧ F addr b) ∨
      ∃ et, et ≠ .pageFault ∧ A.writeMem a addr w value = .error et ∧
        (et = .busError ∨ B.writeMem b addr w value = .error et)

/-- **What a cycle with `B` is to one with `A`** from registers `r` and memory `a`: the same, or a
page fault that leaves both as they were. -/
inductive Cycle.Follows (M : α → β → Prop) (F : ℕ → β → Prop) (r : Registers) (a : α) :
    Cycle α → Cycle β → Prop
  | done {q q' : Registers} {a' : α} {b' : β} : q.Mirrors q' → M a' b' →
      Follows M F r a (.done q a') (.done q' b')
  | raised {et : Exception} {q q' : Registers} {a' : α} {b' : β} : et ≠ .mmu .pageFault →
      q.Mirrors q' → q loadReg = 0#32 → M a' b' →
      Follows M F r a (.raised et q a') (.raised et q' b')
  | failed : Follows M F r a .failed .failed
  | faulted {c : Cycle α} {q' : Registers} {b' : β} : r.Mirrors q' → M a b' →
      F (q' badVaddrReg).toNat b' → Follows M F r a c (.raised (.mmu .pageFault) q' b')
  | outside {q : Registers} {a' : α} {c : Cycle β} :
      Follows M F r a (.raised (.mmu .busError) q a') c

/-- An exception of both. -/
theorem Registers.Mirrors.exception (h : r.Mirrors r') {et : Exception}
    (het : et ≠ .mmu .pageFault) (hm : M a' b') {q : Registers} {a : α} {addr : BitVec 32} :
    Cycle.Follows M F q a (.raised et (r.raise addr) a') (.raised et (r'.raise addr) b') :=
  .raised het (h.raise addr addr) delayedLoad_loadReg hm

/-- A page fault. -/
theorem Registers.Mirrors.faulted (h : r.Mirrors r') (hm : M a b) {addr : BitVec 32}
    (hF : F addr.toNat b) {c : Cycle α} :
    Cycle.Follows M F r a c (.raised (.mmu .pageFault) (r'.raise addr) b) := by
  apply Cycle.Follows.faulted (h.raised addr) hm
  rwa [h.toAgrees.raise_badVaddr]

/-- A read by both. -/
theorem Mmu.Simulates.readMem_follows (hsim : A.Simulates B M F) (hm : M a b) (h : r.Mirrors r')
    {addr : BitVec 32} {w : Width} {next : BitVec 32 → α → Cycle α}
    {next' : BitVec 32 → β → Cycle β}
    (hnext : ∀ value b', M a b' → Cycle.Follows M F r a (next value a) (next' value b')) :
    Cycle.Follows M F r a (Machine.readMem A r a addr w next)
      (Machine.readMem B r' b addr w next') := by
  unfold Machine.readMem
  rcases @hsim.read a b addr.toNat w hm with
    ⟨value, b', hA, hB, hm'⟩ | ⟨hfault, hF⟩ | ⟨et, hne, hA, rfl | hB⟩
  · rw [hA, hB]
    exact hnext _ _ hm'
  · rw [hfault]
    exact h.faulted hm hF
  · rw [hA]
    exact .outside
  · rw [hA, hB]
    exact h.exception (fun he => hne (Exception.mmu.inj he)) hm

/-- A write by both. -/
theorem Mmu.Simulates.writeMem_follows (hsim : A.Simulates B M F) (hm : M a b) (h : r.Mirrors r')
    {addr : BitVec 32} {w : Width} {value : BitVec 32} {next : α → Cycle α} {next' : β → Cycle β}
    (hnext : ∀ a' b', M a' b' → Cycle.Follows M F r a (next a') (next' b')) :
    Cycle.Follows M F r a (Machine.writeMem A r a addr w value next)
      (Machine.writeMem B r' b addr w value next') := by
  unfold Machine.writeMem
  rcases @hsim.write a b addr.toNat w value.toInt hm with
    ⟨a', b', hA, hB, hm'⟩ | ⟨hfault, hF⟩ | ⟨et, hne, hA, rfl | hB⟩
  · rw [hA, hB]
    exact hnext _ _ hm'
  · rw [hfault]
    exact h.faulted hm hF
  · rw [hA]
    exact .outside
  · rw [hA, hB]
    exact h.exception (fun he => hne (Exception.mmu.inj he)) hm

/-- What the outcome of an arithmetic instruction is to that with other registers. -/
inductive Outcome.Mirrors : Option Outcome → Option Outcome → Prop
  | next {q q' : Registers} : q.Mirrors q' → Mirrors (some (.next q)) (some (.next q'))
  | overflow {q q' : Registers} : q.Mirrors q' → q loadReg = 0#32 →
      Mirrors (some (.overflow q)) (some (.overflow q'))
  | undefined : Mirrors (some .undefined) (some .undefined)
  | none : Mirrors .none .none

theorem Outcome.Mirrors.follows {o o' : Option Outcome} (h : Outcome.Mirrors o o') (hm : M a b) :
    Cycle.Follows M F r a (Outcome.cycle a o) (Outcome.cycle b o') := by
  cases h with
  | next hq => exact .done hq hm
  | overflow hq hload => exact .raised (by decide) hq hload hm
  | undefined | none => exact .failed

/-- The fields of an instruction are numbers of registers. -/
structure Instruction.Fields (instr : Instruction) : Prop where
  rs : instr.rs < 32
  rt : instr.rt < 32
  rd : instr.rd < 32

theorem decode_fields (w : BitVec 32) : (decode w).Fields := by
  have hfield : ∀ n : ℕ, (w >>> n &&& 0x1F#32).toNat < 32 := by
    intro n
    rw [field_eq]
    exact (Isa.field w n).isLt
  exact ⟨hfield 21, hfield 16, hfield 11⟩

theorem le_prevPcReg {i : ℕ} (hi : i < 32) : i ≤ prevPcReg := by
  simp only [prevPcReg]
  omega

/-- The instruction has a result. -/
theorem Registers.Mirrors.result (h : r.Mirrors r') {i : ℕ} (hi : i < 32) (hfree : r.Free i)
    {pcAfter pcAfter' value value' : BitVec 32} (hpc : pcAfter' = pcAfter)
    (hvalue : value' = value) :
    Outcome.Mirrors (some ((r.set i value).finish pcAfter))
      (some ((r'.set i value').finish pcAfter')) := by
  subst hpc hvalue
  exact .next ((h.toAgrees.set (le_prevPcReg hi) hfree _).advance (by decide) fun _ => rfl)

/-- `HI` and `LO` are never loaded. -/
theorem Registers.Agrees.free_high (h : r.Agrees r') {i : ℕ} (hi : 32 ≤ i) : r.Free i := by
  have hpending := h.pending
  exact Or.inr (by omega)

/-- **An arithmetic instruction** that does not touch the register of the delayed load. -/
theorem execInstruction_mirrors (h : r.Mirrors r') {instr : Instruction} (hfields : instr.Fields)
    (hfree : ∀ i ∈ instr.touches, r.Free i) :
    Outcome.Mirrors (execInstruction instr r) (execInstruction instr r') := by
  obtain ⟨hrs, hrt, hrd⟩ := hfields
  have hpc : r' nextPcReg = r nextPcReg := h.read_pc (by decide) (by decide)
  have hhi : r' hiReg = r hiReg := h.read_pc (by decide) (by decide)
  have hlo : r' loReg = r loReg := h.read_pc (by decide) (by decide)
  have hread : ∀ i, i < 32 → r.Free i → r' i = r i := fun i hi hf => h.read (le_prevPcReg hi) hf
  have hdouble : ∀ hi lo pcAfter, Outcome.Mirrors
      (some (((r.set loReg lo).set hiReg hi).finish pcAfter))
      (some (((r'.set loReg lo).set hiReg hi).finish pcAfter)) := by
    intro hi lo pcAfter
    have hset := h.toAgrees.set (i := loReg) (by decide) (h.free_high (by decide)) lo
    have hset' := hset.set (i := hiReg) (by decide) (hset.free_high (by decide)) hi
    exact .next (hset'.advance (by decide) fun _ => rfl)
  have hover : Outcome.Mirrors (some r.raiseOverflow) (some r'.raiseOverflow) :=
    .overflow (h.raise 0#32 0#32) Registers.delayedLoad_loadReg
  cases hop : instr.opCode with
  | add | sub =>
    simp only [Instruction.touches, hop, List.forall_mem_cons] at hfree
    obtain ⟨hfs, hft, hfd, -⟩ := hfree
    simp only [execInstruction, hop, hpc, hread _ hrs hfs, hread _ hrt hft]
    split
    · exact hover
    · exact h.result hrd hfd rfl rfl
  | addi =>
    simp only [Instruction.touches, hop, List.forall_mem_cons] at hfree
    obtain ⟨hfs, hft, -⟩ := hfree
    simp only [execInstruction, hop, hpc, hread _ hrs hfs]
    split
    · exact hover
    · exact h.result hrt hft rfl rfl
  | addu | and | nor | or | sllv | slt | sltu | srav | srlv | subu | xor =>
    simp only [Instruction.touches, hop, List.forall_mem_cons] at hfree
    obtain ⟨hfs, hft, hfd, -⟩ := hfree
    simp only [execInstruction, hop]
    refine h.result hrd hfd (by rw [hpc]) ?_
    rw [hread _ hrs hfs, hread _ hrt hft]
  | addiu | andi | ori | slti | sltiu | xori =>
    simp only [Instruction.touches, hop, List.forall_mem_cons] at hfree
    obtain ⟨hfs, hft, -⟩ := hfree
    simp only [execInstruction, hop]
    refine h.result hrt hft (by rw [hpc]) ?_
    rw [hread _ hrs hfs]
  | sll | sra | srl =>
    simp only [Instruction.touches, hop, List.forall_mem_cons] at hfree
    obtain ⟨hft, hfd, -⟩ := hfree
    simp only [execInstruction, hop]
    refine h.result hrd hfd (by rw [hpc]) ?_
    rw [hread _ hrt hft]
  | lui =>
    simp only [Instruction.touches, hop, List.forall_mem_cons] at hfree
    simp only [execInstruction, hop]
    exact h.result hrt hfree.1 (by rw [hpc]) rfl
  | mfhi | mflo =>
    simp only [Instruction.touches, hop, List.forall_mem_cons] at hfree
    simp only [execInstruction, hop]
    refine h.result hrd hfree.1 (by rw [hpc]) ?_
    first | exact hhi | exact hlo
  | mthi | mtlo =>
    simp only [Instruction.touches, hop, List.forall_mem_cons] at hfree
    simp only [execInstruction, hop, hpc, hread _ hrs hfree.1]
    exact .next ((h.toAgrees.set (by decide) (h.free_high (by decide)) _).advance (by decide)
      fun _ => rfl)
  | mult | multu =>
    simp only [Instruction.touches, hop, List.forall_mem_cons] at hfree
    simp only [execInstruction, hop, hpc, hread _ hrs hfree.1, hread _ hrt hfree.2.1]
    exact hdouble _ _ _
  | div =>
    simp only [Instruction.touches, hop, List.forall_mem_cons] at hfree
    simp only [execInstruction, hop, hpc, hread _ hrs hfree.1, hread _ hrt hfree.2.1]
    split
    · exact hdouble _ _ _
    · split
      · exact .undefined
      · exact hdouble _ _ _
  | divu =>
    simp only [Instruction.touches, hop, List.forall_mem_cons] at hfree
    simp only [execInstruction, hop, hpc, hread _ hrs hfree.1, hread _ hrt hfree.2.1]
    split
    · exact hdouble _ _ _
    · exact hdouble _ _ _
  | beq | bgez | bgezal | bgtz | blez | bltz | bltzal | bne | j | jal | jalr | jr | lb | lbu | lh
    | lhu | lw | lwl | lwr | rfe | sb | sh | sw | swl | swr | syscall | unimp | res =>
    simp only [execInstruction, hop]
    exact .none

/-- Both executed the instruction. -/
theorem Registers.Agrees.done (h : r.Agrees r') (hm : M a' b') {q : Registers} {a : α}
    {pcAfter n v v' : BitVec 32} (hn : n.toNat < 32) (hv : n ≠ 0#32 → v' = v) :
    Cycle.Follows M F q a (.done (r.advance pcAfter n v) a') (.done (r'.advance pcAfter n v') b') :=
  .done (h.advance hn hv) hm

/-- What is in the register of a load, or is about to be. -/
theorem Registers.Mirrors.old (h : r.Mirrors r') {i : ℕ} (hi : i < 32)
    (hne : BitVec.ofNat 32 i ≠ 0#32) :
    (if r' loadReg = BitVec.ofNat 32 i then r' loadValueReg else r' i) =
      if r loadReg = BitVec.ofNat 32 i then r loadValueReg else r i := by
  have hval : (BitVec.ofNat 32 i).toNat = i := by
    rw [BitVec.toNat_ofNat]
    omega
  by_cases hload : r loadReg = BitVec.ofNat 32 i
  · have hp : (r loadReg).toNat = i := (congrArg BitVec.toNat hload).trans hval
    have hsome : r loadReg ≠ 0#32 := by
      rw [hload]
      exact hne
    rw [if_pos hload]
    rcases h.load with ⟨hsame, hvalue⟩ | ⟨hdone, hvalue⟩
    · rw [if_pos (hsame.trans hload)]
      exact (hvalue hsome).1
    · rw [if_neg (by rw [hdone]; exact hne.symm), ← hp]
      exact hvalue hsome
  · have hp : i ≠ (r loadReg).toNat := by
      intro hi'
      exact hload (BitVec.eq_of_toNat_eq (hi'.symm.trans hval.symm))
    rw [if_neg hload, if_neg]
    · exact h.same i (le_prevPcReg hi) hp
    · rcases h.load with ⟨hsame, -⟩ | ⟨hdone, -⟩
      · rw [hsame]
        exact hload
      · rw [hdone]
        exact hne.symm

/-- **An instruction is executed**, by processors of which one may have done the delayed load. -/
theorem Mmu.Simulates.execute_follows (hsim : A.Simulates B M F) (hm : M a b) (h : r.Mirrors r')
    {instr : Instruction} (hfields : instr.Fields) (hfree : ∀ i ∈ instr.touches, r.Free i) :
    Cycle.Follows M F r a (execute A instr r a) (execute B instr r' b) := by
  have hpc : r' nextPcReg = r nextPcReg := h.read_pc (by decide) (by decide)
  have hread : ∀ i, i < 32 → r.Free i → r' i = r i := fun i hi hf => h.read (le_prevPcReg hi) hf
  -- an arithmetic instruction
  have harith := execInstruction_mirrors h hfields hfree
  obtain ⟨hrs, hrt, hrd⟩ := hfields
  have hafter : ∀ pcAfter, Cycle.Follows M F r a (.done (r.advance pcAfter 0#32 0#32) a)
      (.done (r'.advance pcAfter 0#32 0#32) b) := fun pcAfter =>
    h.done hm (by decide) fun _ => rfl
  have hlinked : ∀ i x pcAfter, i < 32 → r.Free i →
      Cycle.Follows M F r a (.done ((r.set i x).advance pcAfter 0#32 0#32) a)
        (.done ((r'.set i x).advance pcAfter 0#32 0#32) b) := fun i x pcAfter hi hf =>
    (h.set (le_prevPcReg hi) hf x).done hm (by decide) fun _ => rfl
  have hlink : ∀ i x j, i < 32 → j < 32 → r.Free j → r'.set i x j = r.set i x j := by
    intro i x j hi hj hf
    by_cases hji : j = i
    · rw [hji, Registers.set_self, Registers.set_self]
    · rw [Registers.set_of_ne _ hji, Registers.set_of_ne _ hji]
      exact hread j hj hf
  have hregister : (BitVec.ofNat 32 instr.rt).toNat < 32 := by
    rw [BitVec.toNat_ofNat]
    omega
  have hload : ∀ pcAfter value (b' : β), M a b' → Cycle.Follows M F r a
      (.done (r.advance pcAfter (BitVec.ofNat 32 instr.rt) value) a)
      (.done (r'.advance pcAfter (BitVec.ofNat 32 instr.rt) value) b') :=
    fun pcAfter value b' hm' => h.done hm' hregister fun _ => rfl
  have hstored : ∀ pcAfter (a' : α) (b' : β), M a' b' → Cycle.Follows M F r a
      (.done (r.advance pcAfter 0#32 0#32) a') (.done (r'.advance pcAfter 0#32 0#32) b') :=
    fun pcAfter a' b' hm' => h.done hm' (by decide) fun _ => rfl
  have hret : retAddrReg < 32 := by decide
  cases hop : instr.opCode with
  | beq | bne =>
    simp only [Instruction.touches, hop, List.forall_mem_cons] at hfree
    simp only [execute, hop, hpc, hread _ hrs hfree.1, hread _ hrt hfree.2.1]
    exact hafter _
  | bgez | bgtz | blez | bltz | jr =>
    simp only [Instruction.touches, hop, List.forall_mem_cons] at hfree
    simp only [execute, hop, hpc, hread _ hrs hfree.1]
    exact hafter _
  | bgezal | bltzal =>
    simp only [Instruction.touches, hop, List.forall_mem_cons] at hfree
    simp only [execute, hop, hpc, hlink _ _ _ hret hrs hfree.1]
    exact hlinked _ _ _ hret hfree.2.1
  | jal =>
    simp only [Instruction.touches, hop, List.forall_mem_cons] at hfree
    simp only [execute, hop, hpc]
    exact hlinked _ _ _ hret hfree.1
  | j =>
    simp only [execute, hop, hpc]
    exact hafter _
  | jalr =>
    simp only [Instruction.touches, hop, List.forall_mem_cons] at hfree
    simp only [execute, hop, hpc, hlink _ _ _ hrd hrs hfree.1]
    exact hlinked _ _ _ hrd hfree.2.1
  | lb | lbu =>
    simp only [Instruction.touches, hop, List.forall_mem_cons] at hfree
    simp only [execute, hop, hpc, hread _ hrs hfree.1]
    exact hsim.readMem_follows hm h fun value b' hm' => hload _ _ b' hm'
  | lh | lhu | lw =>
    simp only [Instruction.touches, hop, List.forall_mem_cons] at hfree
    simp only [execute, hop, hpc, hread _ hrs hfree.1]
    split
    · exact h.exception (by decide) hm
    · exact hsim.readMem_follows hm h fun value b' hm' => hload _ _ b' hm'
  | lwl =>
    simp only [Instruction.touches, hop, List.forall_mem_cons] at hfree
    simp only [execute, hop, hpc, hread _ hrs hfree.1]
    split
    · exact .failed
    · exact hsim.readMem_follows hm h fun value b' hm' => hload _ _ b' hm'
  | lwr =>
    simp only [Instruction.touches, hop, List.forall_mem_cons] at hfree
    simp only [execute, hop, hpc, hread _ hrs hfree.1]
    split
    · exact .failed
    · refine hsim.readMem_follows hm h fun value b' hm' => h.done hm' hregister fun hne => ?_
      rw [h.old hrt hne]
  | sb | sh | sw =>
    simp only [Instruction.touches, hop, List.forall_mem_cons] at hfree
    simp only [execute, hop, hpc, hread _ hrs hfree.1, hread _ hrt hfree.2.1]
    exact hsim.writeMem_follows hm h fun a' b' hm' => hstored _ a' b' hm'
  | swl | swr =>
    simp only [Instruction.touches, hop, List.forall_mem_cons] at hfree
    simp only [execute, hop, hpc, hread _ hrs hfree.1, hread _ hrt hfree.2.1]
    split
    · exact .failed
    · refine hsim.readMem_follows hm h fun value b' hm' => ?_
      exact hsim.writeMem_follows hm' h fun a' b'' hm'' => hstored _ a' b'' hm''
  | syscall | res | unimp =>
    simp only [execute, hop]
    exact h.exception (by decide) hm
  | add | addi | addiu | addu | and | andi | div | divu | lui | mfhi | mflo | mthi | mtlo | mult
    | multu | nor | or | ori | rfe | sll | sllv | slt | slti | sltiu | sltu | sra | srav | srl
    | srlv | sub | subu | xor | xori =>
    simp only [execute, hop]
    exact harith.follows hm

/-- **The next instruction has no load hazard**: it does not touch the register that the instruction
before it is about to load. -/
def HazardFree (mmu : Mmu α) (r : Registers) (a : α) : Prop :=
  ∀ raw a', mmu.readMem a (r pcReg).toNat .word = .ok (raw, a') →
    ∀ i ∈ (decode (BitVec.ofInt 32 raw)).touches, r.Free i

/-- **A cycle with one memory for another.** -/
theorem Mmu.Simulates.cycle_follows (hsim : A.Simulates B M F) (hm : M a b) (h : r.Mirrors r')
    (hfree : HazardFree A r a) : Cycle.Follows M F r a (cycle A r a) (cycle B r' b) := by
  have hpc : r' pcReg = r pcReg := h.read_pc (by decide) (by decide)
  unfold cycle Machine.readMem
  rw [hpc]
  rcases @hsim.read a b (r pcReg).toNat .word hm with
    ⟨value, b', hA, hB, hm'⟩ | ⟨hfault, hF⟩ | ⟨et, hne, hA, rfl | hB⟩
  · rw [hA, hB]
    exact hsim.execute_follows hm' h (decode_fields _) (hfree _ _ hA)
  · rw [hfault]
    exact h.faulted hm hF
  · rw [hA]
    exact .outside
  · rw [hA, hB]
    exact h.exception (fun he => hne (Exception.mmu.inj he)) hm

end Simulation
end Machine
end PaldOs
