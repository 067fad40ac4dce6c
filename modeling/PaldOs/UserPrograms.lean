import PaldOs.Processor
import PaldOs.UserMemory

/-! # User programs

The machine with the threads that run on it: the processor with its registers, the virtual memory,
and for each thread the registers that are saved at a context switch.  A thread with an address
space starts in the kernel, with `InitRegisters`; there it reads and writes registers and memory of
its program, with `Run` it executes the program, and a system call brings it back into the kernel.
A page fault is treated by its handler, and the instruction is executed again.  Any other exception
is an error that the kernel does not survive (`none`).

`Process` is the same program on a machine of its own, whose memory has all the addresses of the
address space and no page faults, with nobody else on it and no interrupts.
-/
namespace PaldOs
open Machine

/-- The memory management unit with the TLB. -/
def Vm.mmu : Mmu Vm := ⟨Vm.readMem, Vm.writeMem⟩

namespace Machine

/-- `STACK_REG`. -/
def stackReg : ℕ := 29

/-- `NUM_TOTAL_REGS`. -/
def numTotalRegs : ℕ := 40

/-- `WriteRegister`: register 0 never changes. -/
def Registers.writeRegister (r : Registers) (num : ℕ) (value : BitVec 32) : Registers :=
  if num = 0 then r else r.set num value

/-- `InitRegisters`, for an address space with `numPages` pages. -/
def Registers.initRegisters (r : Registers) (numPages : ℕ) : Registers :=
  let r := (List.range numTotalRegs).foldl (fun r i => r.writeRegister i 0#32) r
  let r := r.writeRegister pcReg 0#32
  let r := r.writeRegister nextPcReg 4#32
  r.writeRegister stackReg (BitVec.ofNat 32 (numPages * pageSize) - 16#32)

/-- `RestoreUserState`. -/
def Registers.restoreUserState (r userRegisters : Registers) : Registers :=
  (List.range numTotalRegs).foldl (fun r i => r.writeRegister i (userRegisters i)) r

end Machine

/-- Where a thread is. -/
inductive Mode where
  /-- Its registers have not been initialised. -/
  | fresh
  | kernel
  | user
deriving DecidableEq

/-- The machine with its threads.  `begun` tells which threads have had the processor. -/
structure Workstation where
  vm : Vm
  registers : Registers
  userRegisters : ℕ → Registers
  begun : ℕ → Bool
  mode : ℕ → Mode

namespace Workstation

/-- What can happen: threads and address spaces are made and destroyed, the processor is given to
another thread, and the running thread goes on in the kernel or in its program.  With what may be a
page fault goes the frame to be evicted if it comes to that. -/
inductive Action where
  | newThread
  | newSpace (h : ℕ) (exe : Executable)
  | destroy (h : ℕ)
  | switch (next : ℕ)
  | initRegisters
  | readRegister (num : ℕ)
  | writeRegister (num : ℕ) (value : BitVec 32)
  | readMem (addr : BitVec 32) (w : Width) (victim : ℕ)
  | writeMem (addr : BitVec 32) (w : Width) (value : ℤ) (victim : ℕ)
  /-- The kernel enters the program: `Run` is called, or the handler of a system call returns. -/
  | enter
  /-- `CheckIfDue` finds an interrupt to be due. -/
  | interrupt
  /-- A turn of the loop of `Run`. -/
  | cycle (victim : ℕ)

/-- What is recorded: an address space is made, the registers are initialised, the kernel reads or
writes a register or the memory of its program, and a cycle ends without a page fault. -/
inductive Event where
  | made (h : ℕ) (exe : Executable)
  | initialised (h : ℕ)
  | readRegister (h num : ℕ) (value : BitVec 32)
  | wroteRegister (h num : ℕ) (value : BitVec 32)
  | readMem (h addr : ℕ) (w : Width) (value : ℤ)
  | wroteMem (h addr : ℕ) (w : Width) (value : ℤ)
  | cycled (h : ℕ)

variable (s : Workstation)

/-- The registers after `SaveUserState`, of a thread with an address space. -/
def saveUserState : ℕ → Registers :=
  if (s.vm.space s.vm.currentThread).isSome then
    Function.update s.userRegisters s.vm.currentThread s.registers
  else s.userRegisters

/-- `Scheduler::Run`.  A thread that has had the processor comes back from `SWITCH` and restores its
registers. -/
def switch (next : ℕ) : Option Workstation := do
  let vm ← s.vm.switch next
  let restores := (s.vm.space next).isSome ∧ s.begun next = true
  some { s with
    vm := vm
    registers :=
      if restores then s.registers.restoreUserState (s.saveUserState next) else s.registers
    userRegisters := s.saveUserState
    begun := Function.update s.begun next true }

/-- `RaiseException` of a page fault, with its handler; the address is in `BAD_VADDR_REG`. -/
def pageFault (r : Registers) (vm : Vm) (victim : ℕ) : Option Workstation := do
  let vm ← vm.pageFaultHandler (r badVaddrReg).toNat victim
  some { s with vm := vm, registers := r }

/-- **One step.** -/
def step : Action → Option Workstation
  | .newThread => some { s with
      vm := s.vm.newThread
      begun := Function.update s.begun s.vm.nextThread false
      mode := Function.update s.mode s.vm.nextThread .fresh }
  | .newSpace h exe => do
      let vm ← s.vm.newSpace h exe
      some { s with vm := vm }
  | .destroy h => do
      let vm ← s.vm.destroy h
      some { s with vm := vm }
  | .switch next => s.switch next
  | .initRegisters => do
      let space ← s.vm.space s.vm.currentThread
      if s.mode s.vm.currentThread = .fresh then
        some { s with
          registers := s.registers.initRegisters space.numPages
          mode := Function.update s.mode s.vm.currentThread .kernel }
      else none
  | .readRegister _ => if s.mode s.vm.currentThread = .kernel then some s else none
  | .writeRegister num value =>
      if s.mode s.vm.currentThread = .kernel then
        some { s with registers := s.registers.writeRegister num value }
      else none
  | .readMem addr w victim =>
      if s.mode s.vm.currentThread = .kernel then
        match s.vm.readMem addr.toNat w with
        | .ok (_, vm) => some { s with vm := vm }
        | .error .pageFault => s.pageFault (s.registers.raise addr) s.vm victim
        | .error _ => none
      else none
  | .writeMem addr w value victim =>
      if s.mode s.vm.currentThread = .kernel then
        match s.vm.writeMem addr.toNat w value with
        | .ok vm => some { s with vm := vm }
        | .error .pageFault => s.pageFault (s.registers.raise addr) s.vm victim
        | .error _ => none
      else none
  | .enter =>
      if s.mode s.vm.currentThread = .kernel then
        some { s with mode := Function.update s.mode s.vm.currentThread .user }
      else none
  | .interrupt => some { s with registers := s.registers.delayedLoad 0#32 0#32 }
  | .cycle victim =>
      if s.mode s.vm.currentThread = .user then
        match Machine.cycle Vm.mmu s.registers s.vm with
        | .done r vm => some { s with vm := vm, registers := r }
        | .raised .syscall r vm => some { s with
            vm := vm
            registers := r
            mode := Function.update s.mode s.vm.currentThread .kernel }
        | .raised (.mmu .pageFault) r vm => s.pageFault r vm victim
        | .raised _ _ _ => none
        | .failed => none
      else none

/-- The events of an action. -/
def emit : Action → List Event
  | .newThread | .destroy _ | .switch _ | .enter | .interrupt => []
  | .newSpace h exe => [.made h exe]
  | .initRegisters => [.initialised s.vm.currentThread]
  | .readRegister num => [.readRegister s.vm.currentThread num (s.registers num)]
  | .writeRegister num value => [.wroteRegister s.vm.currentThread num value]
  | .readMem addr w _ =>
      match s.vm.readMem addr.toNat w with
      | .ok (value, _) => [.readMem s.vm.currentThread addr.toNat w value]
      | .error _ => []
  | .writeMem addr w value _ =>
      match s.vm.writeMem addr.toNat w value with
      | .ok _ => [.wroteMem s.vm.currentThread addr.toNat w value]
      | .error _ => []
  | .cycle _ =>
      match Machine.cycle Vm.mmu s.registers s.vm with
      | .raised (.mmu .pageFault) _ _ => []
      | _ => [.cycled s.vm.currentThread]

/-- The registers of a thread, in the processor or saved. -/
def registersOf (h : ℕ) : Registers :=
  if h = s.vm.currentThread then s.registers else s.userRegisters h

/-- The machine at the start, with the thread `main`. -/
def initial (data : ℤ → ℕ) (pageTable : ℕ → ℕ → TranslationEntry) (tlb : ℕ → TranslationEntry)
    (coreMap : ℕ → CoreMapEntry) (userRegisters : ℕ → Registers) : Workstation where
  vm := .initial data pageTable tlb coreMap
  registers _ := 0#32
  userRegisters := userRegisters
  begun h := h == 0
  mode _ := .fresh

end Workstation

/-! ## A machine for one program -/

/-- A memory of which all addresses below `size` are there. -/
def flatMmu (size : ℕ) : Mmu (ℕ → UInt8) where
  readMem mem addr w :=
    if addr % w.bytes ≠ 0 then .error .addressError
    else if addr < size then .ok (w.load mem addr, mem)
    else .error .busError
  writeMem mem addr w value :=
    if addr % w.bytes ≠ 0 then .error .addressError
    else if addr < size then .ok (blit mem addr w.bytes (storeByte value))
    else .error .busError

/-- A program on a machine of its own. -/
structure Process where
  registers : Registers
  memory : ℕ → UInt8
  numPages : ℕ

namespace Process

/-- The size of its memory. -/
def size (p : Process) : ℕ := p.numPages * pageSize

/-- A turn of the loop of `Run`. -/
def cycle (p : Process) : Machine.Cycle (ℕ → UInt8) :=
  Machine.cycle (flatMmu p.size) p.registers p.memory

/-- The program after a cycle. -/
def cycled (p : Process) : Process :=
  match p.cycle with
  | .done r memory => { p with registers := r, memory := memory }
  | .raised _ r memory => { p with registers := r, memory := memory }
  | .failed => p

theorem cycled_done {p : Process} {r : Registers} {memory : ℕ → UInt8}
    (h : p.cycle = .done r memory) : p.cycled = { p with registers := r, memory := memory } := by
  rw [cycled, h]

theorem cycled_raised {p : Process} {et : Exception} {r : Registers} {memory : ℕ → UInt8}
    (h : p.cycle = .raised et r memory) :
    p.cycled = { p with registers := r, memory := memory } := by
  rw [cycled, h]

/-- **What is asked of a program**: it has no load hazards and keeps to its addresses. -/
structure Proper (p : Process) : Prop where
  hazardFree : HazardFree (flatMmu p.size) p.registers p.memory
  inside : ∀ r memory, p.cycle ≠ .raised (.mmu .busError) r memory

instance (r : Registers) (i : ℕ) : Decidable (r.Free i) := inferInstanceAs (Decidable (_ ∨ _))

instance (p : Process) : Decidable p.Proper :=
  decidable_of_iff
    ((match (flatMmu p.size).readMem p.memory (p.registers pcReg).toNat .word with
      | .ok (raw, _) => (decode (BitVec.ofInt 32 raw)).touches.all fun i => p.registers.Free i
      | .error _ => true) = true ∧
    (match p.cycle with
      | .raised (.mmu .busError) _ _ => false
      | _ => true) = true) <| by
    constructor
    · rintro ⟨hfree, hinside⟩
      refine ⟨fun raw memory hraw => ?_, fun r memory hout => ?_⟩
      · rw [hraw] at hfree
        simpa using hfree
      · rw [hout] at hinside
        cases hinside
    · rintro ⟨hfree, hinside⟩
      refine ⟨?_, ?_⟩
      · split
        · rename_i hraw
          simpa using hfree _ _ hraw
        · rfl
      · split
        · rename_i hout
          exact absurd hout (hinside _ _)
        · rfl

/-- The program goes on, in itself or in the kernel. -/
def GoesOn (p : Process) : Prop :=
  match p.cycle with
  | .done _ _ => True
  | .raised .syscall _ _ => True
  | .raised _ _ _ => False
  | .failed => False

end Process

namespace Workstation

/-- The programs after an event. -/
def flatStep (ps : ℕ → Process) : Event → ℕ → Process
  | .made h exe => Function.update ps h { ps h with
      memory := Vm.image exe
      numPages := (AddressSpace.make exe 0).numPages }
  | .initialised h => Function.update ps h { ps h with
      registers := Registers.initRegisters (fun _ => 0#32) (ps h).numPages }
  | .readRegister _ _ _ => ps
  | .wroteRegister h num value => Function.update ps h { ps h with
      registers := (ps h).registers.writeRegister num value }
  | .readMem _ _ _ _ => ps
  | .wroteMem h addr w value => Function.update ps h { ps h with
      memory := blit (ps h).memory addr w.bytes (storeByte value) }
  | .cycled h => Function.update ps h (ps h).cycled

/-- **A machine for each program**, by the record of a run. -/
def flat (tr : List Event) : ℕ → Process :=
  tr.foldl flatStep fun _ => ⟨fun _ => 0#32, fun _ => 0, 0⟩

/-- What the kernel has read is what the machines of the programs had. -/
def Answered (tr : List Event) : Prop :=
  (∀ before h num value after, tr = before ++ .readRegister h num value :: after →
      value = (flat before h).registers num) ∧
    ∀ before h addr w value after, tr = before ++ .readMem h addr w value :: after →
      value = w.load (flat before h).memory addr

/-- The actions looked at: executables have the layout of the toolchain and are for threads that got
a `spaceId`, programs are proper, the kernel uses addresses of the program and the registers that
programs can use, and a victim is a frame. -/
def Allowed (tr : List Event) (s : Workstation) : Action → Prop
  | .newSpace h exe => s.vm.Allowed (.newSpace h exe) ∧ Vm.Layout exe
  | .readRegister num => num ≤ prevPcReg
  | .writeRegister num _ => num ≤ prevPcReg
  | .readMem addr w victim => s.vm.InRange addr.toNat w ∧ victim < numPhysPages
  | .writeMem addr w _ victim => s.vm.InRange addr.toNat w ∧ victim < numPhysPages
  | .cycle victim => (flat tr s.vm.currentThread).Proper ∧ victim < numPhysPages
  | _ => True

instance (tr : List Event) (s : Workstation) (a : Action) : Decidable (Allowed tr s a) :=
  match a with
  | .newSpace h exe => inferInstanceAs (Decidable (s.vm.Allowed (.newSpace h exe) ∧ Vm.Layout exe))
  | .readRegister num => inferInstanceAs (Decidable (num ≤ prevPcReg))
  | .writeRegister num _ => inferInstanceAs (Decidable (num ≤ prevPcReg))
  | .readMem addr w victim =>
      inferInstanceAs (Decidable (s.vm.InRange addr.toNat w ∧ victim < numPhysPages))
  | .writeMem addr w _ victim =>
      inferInstanceAs (Decidable (s.vm.InRange addr.toNat w ∧ victim < numPhysPages))
  | .cycle victim =>
      inferInstanceAs (Decidable ((flat tr s.vm.currentThread).Proper ∧ victim < numPhysPages))
  | .newThread | .destroy _ | .switch _ | .initRegisters | .enter | .interrupt => .isTrue trivial

/-- The runs of the machine. -/
def Runs (start : Workstation) : List Event → Workstation → Prop :=
  Run step emit Allowed start

end Workstation
end PaldOs
