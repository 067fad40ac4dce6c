import PaldOs.Architecture
import PaldOs.PrivateMachines

/-! # Programs and the architecture

A program on the machine that the architecture describes: its registers, and memory at all addresses
of its address space.  What it computes is said by the instructions alone (`Isa.Cycles`), without
pages, delayed loads, or other programs; a system call leaves it as it is, and the kernel then reads
and writes its registers and its memory.

Every run of the processor with its virtual memory is such a run of every program
(`programs_follow_architecture`), as long as the programs use the instructions that are `Covered`.
-/
namespace PaldOs
open Machine

namespace Isa

/-- The registers of a program that is about to start. -/
def Cpu.initial (numPages : ℕ) : Cpu where
  gpr i := if i.val = 29 then BitVec.ofNat 32 (numPages * pageSize) - 16#32 else 0#32
  hi := 0#32
  lo := 0#32
  pc := 0#32
  nextPc := 4#32

/-- What the kernel reads of a register. -/
def Cpu.readRegister (c : Cpu) (num : ℕ) : BitVec 32 :=
  if h : num < 32 then c.gpr ⟨num, h⟩
  else if num = hiReg then c.hi
  else if num = loReg then c.lo
  else if num = pcReg then c.pc
  else c.nextPc

/-- The kernel writes a register. -/
def Cpu.writeRegister (c : Cpu) (num : ℕ) (value : BitVec 32) : Cpu :=
  if h : num < 32 then c.write ⟨num, h⟩ value
  else if num = hiReg then { c with hi := value }
  else if num = loReg then { c with lo := value }
  else if num = pcReg then { c with pc := value }
  else { c with nextPc := value }

/-- A program on the machine that the architecture describes. -/
structure Program where
  cpu : Cpu
  memory : ℕ → UInt8
  numPages : ℕ

namespace Program

/-- The size of its memory. -/
def size (p : Program) : ℕ := p.numPages * pageSize

/-- What an instruction of the program comes to. -/
def Cycles (p : Program) : Outcome → Prop := Isa.Cycles p.size p.cpu p.memory

/-- The program before anything happens. -/
def empty : Program := ⟨⟨fun _ => 0#32, 0#32, 0#32, 0#32, 0#32⟩, fun _ => 0, 0⟩

/-- **What happens to a program.** -/
inductive Step (p : Program) : Workstation.Event → Program → Prop
  | made (h : ℕ) (exe : Executable) : Step p (.made h exe)
      { p with memory := Vm.image exe, numPages := (AddressSpace.make exe 0).numPages }
  | initialised (h : ℕ) : Step p (.initialised h) { p with cpu := Cpu.initial p.numPages }
  | readRegister (h num : ℕ) : Step p (.readRegister h num (p.cpu.readRegister num)) p
  | wroteRegister (h num : ℕ) (value : BitVec 32) : Step p (.wroteRegister h num value)
      { p with cpu := p.cpu.writeRegister num value }
  | readMem (h addr : ℕ) (w : Width) : Step p (.readMem h addr w (w.load p.memory addr)) p
  | wroteMem (h addr : ℕ) (w : Width) (value : ℤ) : Step p (.wroteMem h addr w value)
      { p with memory := blit p.memory addr w.bytes (storeByte value) }
  | next (h : ℕ) {cpu : Cpu} {memory : ℕ → UInt8} : p.Cycles (.next cpu memory) →
      Step p (.cycled h) { p with cpu := cpu, memory := memory }
  | syscall (h : ℕ) {cpu : Cpu} {memory : ℕ → UInt8} :
      p.Cycles (.exception .syscall cpu memory) → Step p (.cycled h)
        { p with cpu := cpu, memory := memory }

end Program
end Isa

namespace Machine

/-! ## The kernel and the registers -/

section Kernel
variable {r : Registers} {num : ℕ}

theorem visible_readRegister (hnum : num ≤ nextPcReg) :
    (visible r).readRegister num = r num := by
  simp only [nextPcReg] at hnum
  unfold Isa.Cpu.readRegister
  by_cases hlow : num < 32
  · rw [dif_pos hlow]
    rfl
  rw [dif_neg hlow]
  have hcases : num = 32 ∨ num = 33 ∨ num = 34 ∨ num = 35 := by omega
  rcases hcases with rfl | rfl | rfl | rfl
  all_goals rfl

theorem visible_writeRegister (hnum : num ≤ nextPcReg) (value : BitVec 32) :
    visible (r.writeRegister num value) = (visible r).writeRegister num value := by
  simp only [nextPcReg] at hnum
  unfold Isa.Cpu.writeRegister Registers.writeRegister
  by_cases h0 : num = 0
  · subst h0
    rw [if_pos rfl, dif_pos (by decide)]
    exact (Isa.Cpu.write_zero _ _).symm
  rw [if_neg h0]
  by_cases hlow : num < 32
  · rw [dif_pos hlow, Isa.Cpu.write_eq]
    refine Isa.Cpu.ext (funext fun j => ?_) (Registers.set_of_ne _ ?_) (Registers.set_of_ne _ ?_)
      (Registers.set_of_ne _ ?_) (Registers.set_of_ne _ ?_)
    · show r.set num value j = ((visible r).write ⟨num, hlow⟩ value).gpr j
      have hgpr : (visible r).gpr j = r j := rfl
      rw [Isa.Cpu.write_gpr, hgpr]
      by_cases hj : j = (⟨num, hlow⟩ : Fin 32)
      · rw [hj, if_pos ⟨fun h => h0 (congrArg Fin.val h), rfl⟩]
        exact Registers.set_self ..
      · rw [if_neg (fun h => hj h.2)]
        exact Registers.set_of_ne _ fun h => hj (Fin.ext h)
    all_goals
      simp only [hiReg, loReg, pcReg, nextPcReg]
      omega
  rw [dif_neg hlow]
  have hgpr : ∀ j : Fin 32, r.set num value j = r j := fun j =>
    Registers.set_of_ne _ (by omega)
  have hcases : num = 32 ∨ num = 33 ∨ num = 34 ∨ num = 35 := by omega
  rcases hcases with rfl | rfl | rfl | rfl
  all_goals exact Isa.Cpu.ext (funext hgpr) rfl rfl rfl rfl

/-- The kernel writes a register of a program that is settled. -/
theorem Registers.Settled.seen_writeRegister (hs : r.Settled) (hnum : num ≤ nextPcReg)
    (value : BitVec 32) :
    (r.writeRegister num value).seen = r.seen.writeRegister num value := by
  have hwritten : (r.writeRegister num value).Settled := by
    unfold Registers.writeRegister
    split
    · exact hs
    · rename_i h0
      refine ⟨(set_of_ne _ (Ne.symm h0)).trans hs.zero, (set_of_ne _ ?_).trans hs.load⟩
      simp only [nextPcReg, loadReg] at hnum ⊢
      omega
  rw [hwritten.seen_eq, hs.seen_eq, visible_writeRegister hnum]

/-- The registers that a program starts with. -/
theorem seen_initRegisters (numPages : ℕ) :
    (Registers.initRegisters (fun _ => 0#32) numPages).seen = Isa.Cpu.initial numPages := by
  have hsettled : (Registers.initRegisters (fun _ => 0#32) numPages).Settled := by
    obtain ⟨hmirrors, hload⟩ := Registers.mirrors_initRegisters
      (r := fun _ => 0#32) (q := fun _ => 0#32) numPages rfl rfl
    exact ⟨hmirrors.zero, hload⟩
  have hcleared : (List.range numTotalRegs).foldl
      (fun (r : Registers) i => r.writeRegister i 0#32) (fun _ => 0#32) = fun _ => 0#32 := by
    funext j
    rw [Registers.writeRegisters_apply fun _ => 0#32]
    split
    · rfl
    · rfl
  rw [hsettled.seen_eq]
  unfold Registers.initRegisters
  rw [hcleared]
  dsimp only
  rw [visible_writeRegister (by decide), visible_writeRegister (by decide),
    visible_writeRegister (by decide)]
  refine Isa.Cpu.ext (funext fun j => ?_) rfl rfl rfl rfl
  show (Isa.Cpu.write _ 29 _).gpr j = _
  rw [Isa.Cpu.write_gpr]
  refine if_congr ?_ rfl rfl
  rw [and_iff_right (by decide)]
  exact Fin.ext_iff

end Kernel
end Machine

/-! ## A program and its process -/

namespace Process

/-- The program on the machine that the architecture describes. -/
def architecture (p : Process) : Isa.Program := ⟨p.registers.seen, p.memory, p.numPages⟩

/-- **A turn of the loop of `Run`.** -/
theorem architecture_cycled {p : Process} (hproper : p.Proper) (hzero : p.registers 0 = 0#32)
    (hpending : (p.registers loadReg).toNat < 32)
    (hcovered : Isa.Covered (Isa.fetched p.registers.seen p.memory) p.registers.seen)
    (hgoes : p.GoesOn) (h : ℕ) : p.architecture.Step (.cycled h) p.cycled.architecture := by
  obtain ⟨o, ho, hcycles⟩ :=
    cycle_executes hzero hpending hproper.hazardFree hproper.inside hcovered
  have ho' : p.cycle.outcome = some o := ho
  have hcycles' : p.architecture.Cycles o := hcycles
  unfold GoesOn at hgoes
  cases hc : p.cycle with
  | done r memory =>
    rw [hc] at ho'
    cases ho'
    rw [cycled_done hc]
    exact .next h hcycles'
  | raised et r memory =>
    rw [hc] at ho' hgoes
    cases et with
    | syscall =>
      cases ho'
      rw [cycled_raised hc]
      exact .syscall h hcycles'
    | overflow | illegalInstr | mmu => exact hgoes.elim
  | failed =>
    rw [hc] at hgoes
    exact hgoes.elim

end Process

namespace Workstation

/-- The thread of an event. -/
def Event.thread : Event → ℕ
  | .made h _ => h
  | .initialised h => h
  | .readRegister h _ _ => h
  | .wroteRegister h _ _ => h
  | .readMem h _ _ _ => h
  | .wroteMem h _ _ _ => h
  | .cycled h => h

/-- **The programs that a record tells of**, each on a machine of the architecture. -/
inductive Follows : List Event → (ℕ → Isa.Program) → Prop
  | start : Follows [] fun _ => .empty
  | next {tr : List Event} {ps : ℕ → Isa.Program} {e : Event} {p : Isa.Program} :
      Follows tr ps → (ps e.thread).Step e p →
      Follows (tr ++ [e]) (Function.update ps e.thread p)

/-- The instruction that the program of the running thread is about to execute is one that is
looked at, and the kernel does not look for the address of the instruction before. -/
def Specified (tr : List Event) (s : Workstation) (a : Action) : Prop :=
  Allowed tr s a ∧
    match a with
    | .readRegister num => num ≤ nextPcReg
    | .writeRegister num _ => num ≤ nextPcReg
    | .cycle _ =>
        let p := flat tr s.vm.currentThread
        Isa.Covered (Isa.fetched p.registers.seen p.memory) p.registers.seen
    | _ => True

section Steps
variable {tr : List Event} {s s' : Workstation} {a : Action} {e : Event}

/-- An event is about the program of one thread. -/
theorem flatStep_eq (ps : ℕ → Process) (e : Event) :
    flatStep ps e = Function.update ps e.thread (flatStep ps e e.thread) := by
  funext u
  by_cases hu : u = e.thread
  · rw [hu, Function.update_self]
  · rw [Function.update_of_ne hu]
    cases e with
    | made | initialised | wroteRegister | wroteMem | cycled => exact Function.update_of_ne hu ..
    | readRegister | readMem => rfl

/-- The programs of a record, with one event more. -/
theorem Follows.concat (h : Follows tr fun u => (flat tr u).architecture)
    (he : (flat tr e.thread).architecture.Step e (flat (tr ++ [e]) e.thread).architecture) :
    Follows (tr ++ [e]) fun u => (flat (tr ++ [e]) u).architecture := by
  have hsame : (fun u => (flat (tr ++ [e]) u).architecture) =
      Function.update (fun u => (flat tr u).architecture) e.thread
        (flat (tr ++ [e]) e.thread).architecture := by
    funext u
    by_cases hu : u = e.thread
    · rw [hu, Function.update_self]
    · rw [Function.update_of_ne hu, flat_concat, flatStep_eq, Function.update_of_ne hu]
  rw [hsame]
  exact h.next he

/-- **What a turn of the loop of `Run` records.** -/
theorem Mirrored.ended (h : Mirrored tr s) {victim : ℕ}
    (hproper : (flat tr s.vm.currentThread).Proper) (hs : s.step (.cycle victim) = some s') :
    s.emit (.cycle victim) = [] ∨ s.emit (.cycle victim) = [.cycled s.vm.currentThread] ∧
      (flat tr s.vm.currentThread).GoesOn := by
  simp only [Workstation.step] at hs
  split at hs
  · rename_i hmode
    have hfollows := h.follows (by rw [hmode]; decide) hproper
    have hinside := hproper.inside
    unfold Process.GoesOn
    simp only [emit]
    generalize (flat tr s.vm.currentThread).cycle = c at hfollows hinside ⊢
    generalize Machine.cycle Vm.mmu s.registers s.vm = c' at hfollows hs ⊢
    cases hfollows with
    | done => exact .inr ⟨rfl, trivial⟩
    | @raised et =>
      cases et with
      | syscall => exact .inr ⟨rfl, trivial⟩
      | overflow | illegalInstr => cases hs
      | mmu et =>
        cases et with
        | pageFault => exact .inl rfl
        | busError => exact absurd rfl (hinside _ _)
        | readOnly | addressError => cases hs
    | failed => cases hs
    | faulted => exact .inl rfl
    | outside => exact absurd rfl (hinside _ _)
  · cases hs

/-- A thread whose program is started, in its program or in the kernel. -/
theorem Mirrored.alone (h : Mirrored tr s) {u : ℕ} (hu : s.mode u ≠ .fresh) :
    (flat tr u).registers 0 = 0#32 ∧ ((flat tr u).registers loadReg).toNat < 32 :=
  ⟨(h.registers u hu).zero, (h.registers u hu).pending⟩

theorem Mirrored.settled_kernel (h : Mirrored tr s) (hmode : s.mode s.vm.currentThread = .kernel) :
    (flat tr s.vm.currentThread).registers.Settled :=
  ⟨(h.alone (by rw [hmode]; decide)).1, h.settled _ hmode⟩

/-- **Every step is one of the program that it records**, or not seen. -/
theorem Mirrored.followed (h : Mirrored tr s) (ha : Specified tr s a) (hs : s.step a = some s') :
    s.emit a = [] ∨ ∃ e, s.emit a = [e] ∧
      (flat tr e.thread).architecture.Step e (flat (tr ++ [e]) e.thread).architecture := by
  have hanswered := (h.step ha.1 hs).answered
  cases a with
  | newThread | destroy | switch | enter | interrupt => exact .inl rfl
  | newSpace u exe =>
    refine .inr ⟨_, rfl, ?_⟩
    rw [flat_concat, flatStep, Event.thread, Function.update_self]
    exact .made u exe
  | initRegisters =>
    refine .inr ⟨_, rfl, ?_⟩
    rw [flat_concat, flatStep, Event.thread, Function.update_self]
    have hinit := Isa.Program.Step.initialised (p := (flat tr s.vm.currentThread).architecture)
      s.vm.currentThread
    rw [Process.architecture, ← seen_initRegisters] at hinit
    exact hinit
  | readRegister num =>
    have hmode : s.mode s.vm.currentThread = .kernel := by
      by_contra hne
      rw [Workstation.step, if_neg hne] at hs
      cases hs
    have hsettled := h.settled_kernel hmode
    have hvalue := hanswered.1 tr _ num _ [] rfl
    have hnum : num ≤ nextPcReg := ha.2
    have hseen : (flat tr s.vm.currentThread).registers num =
        (flat tr s.vm.currentThread).architecture.cpu.readRegister num := by
      rw [Process.architecture, hsettled.seen_eq, visible_readRegister hnum]
    refine .inr ⟨_, rfl, ?_⟩
    rw [flat_concat, flatStep, Event.thread, hvalue, hseen]
    exact .readRegister _ num
  | writeRegister num value =>
    have hmode : s.mode s.vm.currentThread = .kernel := by
      by_contra hne
      rw [Workstation.step, if_neg hne] at hs
      cases hs
    have hsettled := h.settled_kernel hmode
    have hnum : num ≤ nextPcReg := ha.2
    refine .inr ⟨_, rfl, ?_⟩
    rw [flat_concat, flatStep, Event.thread, Function.update_self]
    have hwrote := Isa.Program.Step.wroteRegister
      (p := (flat tr s.vm.currentThread).architecture) s.vm.currentThread num value
    rw [Process.architecture, ← hsettled.seen_writeRegister hnum] at hwrote
    exact hwrote
  | readMem addr w victim =>
    simp only [emit] at hanswered ⊢
    split
    · rename_i value vm hread
      rw [hread] at hanswered
      have hvalue := hanswered.2 tr _ addr.toNat w value [] rfl
      refine .inr ⟨_, rfl, ?_⟩
      rw [flat_concat, flatStep, Event.thread, hvalue]
      exact .readMem _ _ w
    · exact .inl rfl
  | writeMem addr w value victim =>
    simp only [emit]
    split
    · refine .inr ⟨_, rfl, ?_⟩
      rw [flat_concat, flatStep, Event.thread, Function.update_self]
      exact .wroteMem _ _ w value
    · exact .inl rfl
  | cycle victim =>
    have hmode : s.mode s.vm.currentThread = .user := by
      by_contra hne
      rw [Workstation.step, if_neg hne] at hs
      cases hs
    obtain ⟨hzero, hpending⟩ := h.alone (u := s.vm.currentThread) (by rw [hmode]; decide)
    obtain hnone | ⟨hcycled, hgoes⟩ := h.ended ha.1.1 hs
    · exact .inl hnone
    · refine .inr ⟨_, hcycled, ?_⟩
      rw [flat_concat, flatStep, Event.thread, Function.update_self]
      exact Process.architecture_cycled ha.1.1 hzero hpending ha.2 hgoes _

end Steps

/-! ## Runs -/

section Runs
variable {data : ℤ → ℕ} {pageTable : ℕ → ℕ → TranslationEntry} {tlb : ℕ → TranslationEntry}
  {coreMap : ℕ → CoreMapEntry} {userRegisters : ℕ → Registers} {tr : List Event} {s : Workstation}

theorem Runs.follows
    (h : Run step emit Specified (initial data pageTable tlb coreMap userRegisters) tr s) :
    Mirrored tr s ∧ Follows tr fun u => (flat tr u).architecture := by
  have hstart : (fun u => (flat [] u).architecture) = fun _ => Isa.Program.empty := by
    funext u
    have hsettled : Registers.Settled fun _ => 0#32 := ⟨rfl, rfl⟩
    show Isa.Program.mk (Registers.seen fun _ => 0#32) _ _ = _
    rw [hsettled.seen_eq]
    rfl
  induction h with
  | start => exact ⟨mirrored_initial, hstart ▸ .start⟩
  | next a _ ha hs ih =>
    obtain ⟨hmirrored, hfollows⟩ := ih
    refine ⟨hmirrored.step ha.1 hs, ?_⟩
    rcases hmirrored.followed ha hs with hnone | ⟨e, he, hstep⟩
    · rw [hnone, List.append_nil]
      exact hfollows
    · rw [he]
      exact hfollows.concat hstep

end Runs

instance (tr : List Event) (s : Workstation) (a : Action) : Decidable (Specified tr s a) :=
  match a with
  | .readRegister num =>
      inferInstanceAs (Decidable (Allowed tr s (.readRegister num) ∧ num ≤ nextPcReg))
  | .writeRegister num value =>
      inferInstanceAs (Decidable (Allowed tr s (.writeRegister num value) ∧ num ≤ nextPcReg))
  | .cycle victim =>
      inferInstanceAs (Decidable (Allowed tr s (.cycle victim) ∧
        let p := flat tr s.vm.currentThread
        Isa.Covered (Isa.fetched p.registers.seen p.memory) p.registers.seen))
  | .newThread => inferInstanceAs (Decidable (_ ∧ True))
  | .newSpace _ _ => inferInstanceAs (Decidable (_ ∧ True))
  | .destroy _ => inferInstanceAs (Decidable (_ ∧ True))
  | .switch _ => inferInstanceAs (Decidable (_ ∧ True))
  | .initRegisters => inferInstanceAs (Decidable (_ ∧ True))
  | .readMem _ _ _ => inferInstanceAs (Decidable (_ ∧ True))
  | .writeMem _ _ _ _ => inferInstanceAs (Decidable (_ ∧ True))
  | .enter => inferInstanceAs (Decidable (_ ∧ True))
  | .interrupt => inferInstanceAs (Decidable (_ ∧ True))

/-- A program with a loop: two times it adds 5, in the slot behind the branch.  It stores the sum,
loads it into another register and makes a system call. -/
def loopsAndTraps : Executable where
  code := ⟨0, 0, 32⟩
  initData := ⟨0, 0, 0⟩
  uninitData := ⟨0, 0, 0⟩
  file := ⟨32, fun i => byteOf ([0x24020002, 0x2442FFFF, 0x1440FFFE, 0x24840005, 0xAC04001C,
    0x8C03001C, 0x0000000C, 7].getD (i / 4) 0) (i % 4)⟩

/-- It runs up to the system call. -/
def loop : List Action :=
  [.newSpace 0 loopsAndTraps, .initRegisters, .enter] ++ List.replicate 11 (.cycle 0) ++
    [.readRegister 3]

end Workstation
end PaldOs
