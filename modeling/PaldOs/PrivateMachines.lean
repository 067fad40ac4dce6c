import PaldOs.UserPrograms

/-! # A program is alone on the machine

Whatever the other threads do, and wherever page faults, evictions, interrupts and context switches
come, the registers and the memory of a program are those of the same program on a machine of its
own (`programs_run_alone`).  The registers may be ahead of it by a delayed load, which a page fault
or an interrupt has done early: a program that does not touch the register of a load in the
instruction after it cannot tell.

The memory is that of `PagingTransparency`; `flat_simulates` makes of it a memory management unit
that implements the flat one, and `Mmu.Simulates.cycle_follows` carries this over to the processor.
-/
namespace PaldOs
open Machine

/-! ## The virtual memory as a memory management unit -/

namespace Vm

/-- The same threads with the same address spaces, of which the same one runs. -/
structure SameThreads (k k' : Vm) : Prop where
  current : k'.currentThread = k.currentThread
  thread : ∀ h, (k'.thread h).map Thread.space = (k.thread h).map Thread.space

section Same
variable {k k' k'' : Vm}

theorem SameThreads.refl : SameThreads k k := ⟨rfl, fun _ => rfl⟩

theorem SameThreads.trans (h : SameThreads k k') (h' : SameThreads k' k'') : SameThreads k k'' :=
  ⟨h'.current.trans h.current, fun t => (h'.thread t).trans (h.thread t)⟩

theorem SameThreads.space (hs : SameThreads k k') (h : ℕ) : k'.space h = k.space h := by
  have hbind : ∀ q : Vm, q.space h = ((q.thread h).map Thread.space).join := by
    intro q
    rw [Vm.space]
    cases q.thread h <;> rfl
  rw [hbind, hbind, hs.thread]

theorem Agrees.sameThreads (ha : Agrees k k') : SameThreads k k' := by
  refine ⟨ha.current, fun h => ?_⟩
  have hid := congrArg (Option.map Prod.snd) (ha.ident h)
  rw [Option.map_map, Option.map_map] at hid
  exact hid

theorem writeMem_sameThreads {addr : ℕ} {w : Width} {value : ℤ}
    (h : k.writeMem addr w value = .ok k') : SameThreads k k' := by
  unfold writeMem translate at h
  split at h
  · cases h
  · split at h
    · cases h
    · dsimp only at h
      split at h
      · cases h
      · split at h
        · cases h
        · cases h
          exact ⟨rfl, fun _ => rfl⟩

/-- The handler only counts the page fault. -/
theorem FrameInv.handled_sameThreads (hi : FrameInv k none) {addr victim : ℕ} {w : Width}
    (hr : k.InRange addr w) (hvictim : victim < numPhysPages) (hmiss : k.Misses (addr / pageSize))
    (h : k.pageFaultHandler addr victim = some k') : SameThreads k k' := by
  obtain ⟨s, hs, -⟩ := hr.2
  obtain ⟨t, k1, k2, -, -, hl, heq⟩ := hi.handler_cases hs (hr.page_lt hs) hvictim hmiss
  rw [heq, Option.some.injEq] at h
  subst h
  refine ⟨hl.fillSlot_space.1, fun u => ?_⟩
  have hthread : (k2.fillSlot t (addr / pageSize)).thread =
      Function.update k2.thread k2.currentThread
        (some { t with numFaults := t.numFaults + 1 }) := by
    simp only [Vm.fillSlot]
    split <;> rfl
  rw [hthread]
  by_cases hu : u = k2.currentThread
  · have ht := hl.thread
    rw [hl.threads] at ht
    rw [hu, Function.update_self, ht]
    rfl
  · rw [Function.update_of_ne hu, hl.threads]

/-- A context switch changes the running thread. -/
theorem FrameInv.switch_threads (hi : FrameInv k none) {next : ℕ}
    (h : k.switch next = some k') : k'.currentThread = next ∧ (∃ t, k.thread next = some t) ∧
      ∀ u, (k'.thread u).map Thread.space = (k.thread u).map Thread.space := by
  simp only [Vm.switch, Option.bind_eq_bind, Option.bind_eq_some_iff, Option.pure_def,
    Option.some.injEq] at h
  obtain ⟨t, ht, rfl⟩ := h
  have hsaved : ∀ u, ((if (k.space k.currentThread).isSome then k.saveState else k).thread u).map
      Thread.space = (k.thread u).map Thread.space := by
    intro u
    split
    · exact hi.agrees_saveState.sameThreads.thread u
    · rfl
  generalize (if (k.space k.currentThread).isSome then k.saveState else k) = k1 at hsaved ⊢
  split
  · exact ⟨rfl, ⟨t, ht⟩, hsaved⟩
  · exact ⟨rfl, ⟨t, ht⟩, hsaved⟩

end Same

/-- **The memory of one program in the virtual memory**, where `mems` are those of the others. -/
structure HoldsMemory (k₀ : Vm) (mems : ℕ → ℕ → UInt8) (memory : ℕ → UInt8) (k : Vm) : Prop where
  inv : FrameInv k none
  content : Content k (Function.update mems k₀.currentThread memory)
  same : SameThreads k₀ k

/-- What is known of a page fault. -/
def Faults (addr : ℕ) (k : Vm) : Prop :=
  ∃ w, k.InRange addr w ∧ k.Misses (addr / pageSize)

section Simulation
variable {k₀ k : Vm} {mems : ℕ → ℕ → UInt8} {memory : ℕ → UInt8} {space : AddressSpace}

/-- Addresses of the program. -/
theorem HoldsMemory.inRange (h : HoldsMemory k₀ mems memory k)
    (hs : k₀.space k₀.currentThread = some space)
    {addr : ℕ} {w : Width} (ha : addr % w.bytes = 0) (hlt : addr < space.numPages * pageSize) :
    k.InRange addr w := by
  refine ⟨ha, space, ?_, hlt⟩
  rw [h.same.current, h.same.space]
  exact hs

/-- **The virtual memory implements a flat one.** -/
theorem flat_simulates (hs : k₀.space k₀.currentThread = some space) :
    (flatMmu (space.numPages * pageSize)).Simulates mmu (HoldsMemory k₀ mems) Faults where
  read {memory k addr w} h := by
    show _ ∨ (k.readMem addr w = _ ∧ _) ∨ _
    by_cases ha : addr % w.bytes = 0
    · by_cases hlt : addr < space.numPages * pageSize
      · have hr := h.inRange hs ha hlt
        rcases h.content.readMem_cases h.inv hr with ⟨i, hok⟩ | ⟨hfault, hmiss⟩
        · left
          rw [h.same.current, Function.update_self] at hok
          refine ⟨_, _, ?_, hok, h.inv.of_agree agrees_touch, h.content.touch,
            h.same.trans agrees_touch.sameThreads⟩
          simp only [flatMmu]
          rw [if_neg (not_not_intro ha), if_pos hlt]
        · exact Or.inr (Or.inl ⟨hfault, w, hr, hmiss⟩)
      · right; right
        refine ⟨.busError, by decide, ?_, Or.inl rfl⟩
        simp only [flatMmu]
        rw [if_neg (not_not_intro ha), if_neg hlt]
    · right; right
      refine ⟨.addressError, by decide, if_pos ha, Or.inr ?_⟩
      show k.readMem addr w = _
      rw [readMem, translate, if_pos ha]
      rfl
  write {memory k addr w value} h := by
    show _ ∨ (k.writeMem addr w value = _ ∧ _) ∨ _
    by_cases ha : addr % w.bytes = 0
    · by_cases hlt : addr < space.numPages * pageSize
      · have hr := h.inRange hs ha hlt
        rcases h.content.writeMem_cases h.inv hr value with ⟨k', hok, -, hi', hc'⟩ | ⟨hfault, hmiss⟩
        · left
          rw [h.same.current, Function.update_self, Function.update_idem] at hc'
          refine ⟨_, k', ?_, hok, hi', hc', h.same.trans (writeMem_sameThreads hok)⟩
          simp only [flatMmu]
          rw [if_neg (not_not_intro ha), if_pos hlt]
        · exact Or.inr (Or.inl ⟨hfault, w, hr, hmiss⟩)
      · right; right
        refine ⟨.busError, by decide, ?_, Or.inl rfl⟩
        simp only [flatMmu]
        rw [if_neg (not_not_intro ha), if_neg hlt]
    · right; right
      refine ⟨.addressError, by decide, if_pos ha, Or.inr ?_⟩
      show k.writeMem addr w value = _
      rw [writeMem, translate, if_pos ha]
      rfl

end Simulation
end Vm

/-! ## The registers at a context switch and in the kernel -/

namespace Machine
section Registers
variable {r q q' u : Registers}

/-- Registers are written one after the other. -/
theorem Registers.writeRegisters_apply (f : ℕ → BitVec 32) (n j : ℕ) :
    (List.range n).foldl (fun r i => r.writeRegister i (f i)) r j =
      if j ≠ 0 ∧ j < n then f j else r j := by
  induction n with
  | zero => rw [if_neg (by omega)]; rfl
  | succ n ih =>
    rw [List.range_succ, List.foldl_append, List.foldl_cons, List.foldl_nil, writeRegister]
    by_cases hn : n = 0
    · rw [if_pos hn, ih, if_neg (by omega), if_neg (by omega)]
    · rw [if_neg hn]
      by_cases hj : j = n
      · rw [hj, set_self, if_pos ⟨hn, by omega⟩]
      · rw [set_of_ne _ hj, ih]
        exact if_congr (by omega) rfl rfl

theorem Registers.restoreUserState_apply (j : ℕ) :
    r.restoreUserState u j = if j ≠ 0 ∧ j < numTotalRegs then u j else r j :=
  writeRegisters_apply u numTotalRegs j

/-- What registers mirror depends on those that a program can use, and on the delayed load. -/
theorem Registers.Mirrors.congr (h : r.Mirrors q)
    (hsame : ∀ i, i ≠ 0 → i ≤ loadValueReg → q' i = q i) (hzero : q' 0 = 0#32) :
    r.Mirrors q' := by
  have hall : ∀ i, i ≤ loadValueReg → q' i = q i := by
    intro i hi
    by_cases h0 : i = 0
    · rw [h0, hzero, h.zero']
    · exact hsame i h0 hi
  have hpending : (r loadReg).toNat ≤ loadValueReg := by
    have hlt := h.pending
    simp only [loadValueReg]
    omega
  refine ⟨⟨h.pending, fun i hi hne => ?_, ?_⟩, h.zero, hzero⟩
  · rw [hall i (by simp only [prevPcReg, loadValueReg] at hi ⊢; omega)]
    exact h.same i hi hne
  · rw [hall loadReg (by decide), hall loadValueReg le_rfl, hall _ hpending]
    exact h.load

/-- **A context switch** leaves the registers of a thread as they were. -/
theorem Registers.Mirrors.restored (h : r.Mirrors u) (hzero : q 0 = 0#32) :
    r.Mirrors (q.restoreUserState u) := by
  apply h.congr
  · intro i h0 hi
    rw [restoreUserState_apply, if_pos]
    simp only [loadValueReg] at hi
    exact ⟨h0, by simp only [numTotalRegs]; omega⟩
  · rw [restoreUserState_apply, if_neg (by omega), hzero]

/-- The kernel writes a register when no load is pending. -/
theorem Registers.Mirrors.written (h : r.Mirrors q) (hsettled : r loadReg = 0#32) {num : ℕ}
    (hnum : num ≤ prevPcReg) (value : BitVec 32) :
    (r.writeRegister num value).Mirrors (q.writeRegister num value) ∧
      r.writeRegister num value loadReg = 0#32 := by
  unfold writeRegister
  by_cases h0 : num = 0
  · rw [if_pos h0, if_pos h0]
    exact ⟨h, hsettled⟩
  · rw [if_neg h0, if_neg h0]
    refine ⟨⟨h.set hnum (Or.inl hsettled) value, ?_, ?_⟩, ?_⟩
    · rw [set_of_ne _ (Ne.symm h0)]
      exact h.zero
    · rw [set_of_ne _ (Ne.symm h0)]
      exact h.zero'
    · rw [set_of_ne _]
      · exact hsettled
      · simp only [prevPcReg, loadReg] at hnum ⊢
        omega

/-- Nothing but zeros, whatever else there was. -/
theorem Registers.Mirrors.zeros (hall : ∀ i, i ≤ loadValueReg → r i = 0#32)
    (hall' : ∀ i, i ≤ loadValueReg → q i = 0#32) : r.Mirrors q := by
  have hload : r loadReg = 0#32 := hall loadReg (by decide)
  refine ⟨⟨?_, fun i hi _ => ?_, Or.inr ⟨hall' loadReg (by decide), fun hne => absurd hload hne⟩⟩,
    hall 0 (by decide), hall' 0 (by decide)⟩
  · rw [hload]
    decide
  · simp only [prevPcReg] at hi
    rw [hall i (by simp only [loadValueReg]; omega), hall' i (by simp only [loadValueReg]; omega)]

/-- The registers a program starts with. -/
theorem Registers.mirrors_initRegisters (numPages : ℕ) (hr : r 0 = 0#32) (hq : q 0 = 0#32) :
    (r.initRegisters numPages).Mirrors (q.initRegisters numPages) ∧
      r.initRegisters numPages loadReg = 0#32 := by
  have hcleared : ∀ p : Registers, p 0 = 0#32 → ∀ i, i ≤ loadValueReg →
      (List.range numTotalRegs).foldl (fun r i => r.writeRegister i 0#32) p i = 0#32 := by
    intro p hp i hi
    rw [writeRegisters_apply fun _ => 0#32]
    split
    · rfl
    · rename_i hout
      simp only [loadValueReg] at hi
      simp only [numTotalRegs] at hout
      rw [show i = 0 by omega, hp]
  have h0 := Registers.Mirrors.zeros (hcleared r hr) (hcleared q hq)
  have hpc : pcReg ≤ prevPcReg := by decide
  have hnextPc : nextPcReg ≤ prevPcReg := by decide
  have hstack : stackReg ≤ prevPcReg := by decide
  obtain ⟨h1, hload1⟩ := h0.written (hcleared r hr loadReg (by decide)) hpc 0#32
  obtain ⟨h2, hload2⟩ := h1.written hload1 hnextPc 4#32
  exact h2.written hload2 hstack _

end Registers
end Machine

/-! ## The invariant -/

namespace Workstation

/-- **The programs are where their own machines are.** -/
structure Mirrored (tr : List Event) (s : Workstation) : Prop where
  inv : Vm.FrameInv s.vm none
  content : Vm.Content s.vm fun h => (flat tr h).memory
  numPages : ∀ h space, s.vm.space h = some space → (flat tr h).numPages = space.numPages
  alive : ∃ t, s.vm.thread s.vm.currentThread = some t
  spaces : ∀ h t, s.vm.thread h = some t → s.mode h ≠ .fresh → t.space.isSome = true
  current : s.begun s.vm.currentThread = true
  begun : ∀ h, s.mode h ≠ .fresh → s.begun h = true
  zero : s.registers 0 = 0#32
  registers : ∀ h, s.mode h ≠ .fresh → (flat tr h).registers.Mirrors (s.registersOf h)
  settled : ∀ h, s.mode h = .kernel → (flat tr h).registers loadReg = 0#32
  answered : Answered tr

section Record
variable {tr : List Event} {e : Event}

theorem flat_concat (tr : List Event) (e : Event) : flat (tr ++ [e]) = flatStep (flat tr) e := by
  rw [flat, List.foldl_append]
  rfl

/-- One more answer. -/
theorem Answered.concat (ht : Answered tr)
    (hregister : ∀ h num value, e = .readRegister h num value →
      value = (flat tr h).registers num)
    (hmem : ∀ h addr w value, e = .readMem h addr w value →
      value = w.load (flat tr h).memory addr) : Answered (tr ++ [e]) := by
  refine ⟨fun before h num value after heq => ?_, fun before h addr w value after heq => ?_⟩
  · rcases List.eq_nil_or_concat after with rfl | ⟨after, e', rfl⟩
    · obtain ⟨rfl, hlast⟩ := List.append_inj' heq rfl
      exact hregister h num value (List.singleton_inj.mp hlast)
    · rw [List.concat_eq_append, ← List.cons_append, ← List.append_assoc] at heq
      exact ht.1 before h num value after (List.append_inj' heq rfl).1
  · rcases List.eq_nil_or_concat after with rfl | ⟨after, e', rfl⟩
    · obtain ⟨rfl, hlast⟩ := List.append_inj' heq rfl
      exact hmem h addr w value (List.singleton_inj.mp hlast)
    · rw [List.concat_eq_append, ← List.cons_append, ← List.append_assoc] at heq
      exact ht.2 before h addr w value after (List.append_inj' heq rfl).1

/-- The memories, when one program has changed. -/
theorem memory_update (ps : ℕ → Process) (c : ℕ) (p : Process) :
    (fun h => (Function.update ps c p h).memory) =
      Function.update (fun h => (ps h).memory) c p.memory := by
  funext h
  by_cases hc : h = c
  · rw [hc, Function.update_self, Function.update_self]
  · rw [Function.update_of_ne hc, Function.update_of_ne hc]

end Record

section Steps
variable {tr es : List Event} {s : Workstation} {vm : Vm} {r : Registers} {p : Process} {m : Mode}

/-- The thread that runs has an address space, unless it is fresh. -/
theorem Mirrored.space (h : Mirrored tr s) (hm : s.mode s.vm.currentThread ≠ .fresh) :
    ∃ space, s.vm.space s.vm.currentThread = some space := by
  obtain ⟨t, ht⟩ := h.alive
  obtain ⟨space, hs⟩ := Option.isSome_iff_exists.mp (h.spaces _ t ht hm)
  exact ⟨space, Vm.space_eq_some.mpr ⟨t, ht, hs⟩⟩

/-- Its registers are in the processor. -/
theorem Mirrored.running (h : Mirrored tr s) (hm : s.mode s.vm.currentThread ≠ .fresh) :
    (flat tr s.vm.currentThread).registers.Mirrors s.registers := by
  have hregisters := h.registers _ hm
  rwa [registersOf, if_pos rfl] at hregisters

/-- **The thread that runs does something**, and its own machine does it too. -/
theorem Mirrored.acted (h : Mirrored tr s)
    (hflat : flat (tr ++ es) = Function.update (flat tr) s.vm.currentThread p)
    (hpages : p.numPages = (flat tr s.vm.currentThread).numPages)
    (hinv : Vm.FrameInv vm none)
    (hcontent : Vm.Content vm
      (Function.update (fun h => (flat tr h).memory) s.vm.currentThread p.memory))
    (hsame : Vm.SameThreads s.vm vm) (hzero : r 0 = 0#32)
    (hspace : m ≠ .fresh → ∃ space, s.vm.space s.vm.currentThread = some space)
    (hregisters : m ≠ .fresh → p.registers.Mirrors r)
    (hsettled : m = .kernel → p.registers loadReg = 0#32) (hanswered : Answered (tr ++ es)) :
    Mirrored (tr ++ es) { s with
      vm := vm
      registers := r
      mode := Function.update s.mode s.vm.currentThread m } := by
  have hother : ∀ u, u ≠ s.vm.currentThread → flat (tr ++ es) u = flat tr u := by
    intro u hu
    rw [hflat, Function.update_of_ne hu]
  have hself : flat (tr ++ es) s.vm.currentThread = p := by rw [hflat, Function.update_self]
  have hthread : ∀ u t, vm.thread u = some t →
      ∃ t', s.vm.thread u = some t' ∧ t'.space = t.space := by
    intro u t ht
    have hmap := hsame.thread u
    rw [ht, Option.map_some, eq_comm, Option.map_eq_some_iff] at hmap
    exact hmap
  refine ⟨hinv, ?_, fun u space hs => ?_, ?_, fun u t ht hu => ?_, ?_, fun u hu => ?_, hzero,
    fun u hu => ?_, fun u hu => ?_, hanswered⟩
  · rw [hflat, memory_update]
    exact hcontent
  · have hs' : s.vm.space u = some space := (hsame.space u).symm.trans hs
    by_cases hc : u = s.vm.currentThread
    · subst hc
      rw [hself, hpages]
      exact h.numPages _ space hs'
    · rw [hother u hc]
      exact h.numPages u space hs'
  · obtain ⟨t, ht⟩ := h.alive
    have hmap := hsame.thread s.vm.currentThread
    rw [ht, Option.map_some, Option.map_eq_some_iff] at hmap
    obtain ⟨t', ht', -⟩ := hmap
    exact ⟨t', by rw [hsame.current]; exact ht'⟩
  · obtain ⟨t', ht', hspace'⟩ := hthread u t ht
    rw [← hspace']
    change Function.update s.mode s.vm.currentThread m u ≠ .fresh at hu
    by_cases hc : u = s.vm.currentThread
    · subst hc
      rw [Function.update_self] at hu
      obtain ⟨space, hs⟩ := hspace hu
      obtain ⟨t'', ht'', hs'⟩ := Vm.space_eq_some.mp hs
      rw [ht', Option.some.injEq] at ht''
      rw [ht'', hs']
      rfl
    · rw [Function.update_of_ne hc] at hu
      exact h.spaces u t' ht' hu
  · show s.begun vm.currentThread = true
    rw [hsame.current]
    exact h.current
  · change Function.update s.mode s.vm.currentThread m u ≠ .fresh at hu
    by_cases hc : u = s.vm.currentThread
    · rw [hc]
      exact h.current
    · rw [Function.update_of_ne hc] at hu
      exact h.begun u hu
  · show (flat (tr ++ es) u).registers.Mirrors
      (if u = vm.currentThread then r else s.userRegisters u)
    rw [hsame.current]
    change Function.update s.mode s.vm.currentThread m u ≠ .fresh at hu
    by_cases hc : u = s.vm.currentThread
    · subst hc
      rw [Function.update_self] at hu
      rw [if_pos rfl, hself]
      exact hregisters hu
    · rw [Function.update_of_ne hc] at hu
      have hold := h.registers u hu
      rw [registersOf, if_neg hc] at hold
      rw [if_neg hc, hother u hc]
      exact hold
  · change Function.update s.mode s.vm.currentThread m u = .kernel at hu
    by_cases hc : u = s.vm.currentThread
    · subst hc
      rw [Function.update_self] at hu
      rw [hself]
      exact hsettled hu
    · rw [Function.update_of_ne hc] at hu
      rw [hother u hc]
      exact h.settled u hu

/-- The same, where the thread stays in its mode. -/
theorem Mirrored.acted_same (h : Mirrored tr s)
    (hflat : flat (tr ++ es) = Function.update (flat tr) s.vm.currentThread p)
    (hpages : p.numPages = (flat tr s.vm.currentThread).numPages)
    (hinv : Vm.FrameInv vm none)
    (hcontent : Vm.Content vm
      (Function.update (fun h => (flat tr h).memory) s.vm.currentThread p.memory))
    (hsame : Vm.SameThreads s.vm vm) (hzero : r 0 = 0#32)
    (hregisters : s.mode s.vm.currentThread ≠ .fresh → p.registers.Mirrors r)
    (hsettled : s.mode s.vm.currentThread = .kernel → p.registers loadReg = 0#32)
    (hanswered : Answered (tr ++ es)) :
    Mirrored (tr ++ es) { s with vm := vm, registers := r } := by
  have hacted :=
    h.acted hflat hpages hinv hcontent hsame hzero h.space hregisters hsettled hanswered
  rwa [Function.update_eq_self] at hacted

/-- Nothing happens on its own machine. -/
theorem Mirrored.unseen (h : Mirrored tr s) (hinv : Vm.FrameInv vm none)
    (hcontent : Vm.Content vm fun h => (flat tr h).memory) (hsame : Vm.SameThreads s.vm vm)
    (hzero : r 0 = 0#32)
    (hregisters : s.mode s.vm.currentThread ≠ .fresh →
      (flat tr s.vm.currentThread).registers.Mirrors r) :
    Mirrored (tr ++ []) { s with vm := vm, registers := r } := by
  apply h.acted_same (p := flat tr s.vm.currentThread)
  · rw [List.append_nil, Function.update_eq_self]
  · rfl
  · exact hinv
  · rw [Function.update_eq_self]
    exact hcontent
  · exact hsame
  · exact hzero
  · exact hregisters
  · exact h.settled _
  · rw [List.append_nil]
    exact h.answered

/-- **A page fault is not seen.** -/
theorem Mirrored.pageFault {s' : Workstation} {victim : ℕ} (h : Mirrored tr s)
    (hinv : Vm.FrameInv vm none) (hcontent : Vm.Content vm fun h => (flat tr h).memory)
    (hsame : Vm.SameThreads s.vm vm) (hvictim : victim < numPhysPages)
    (hregisters : (flat tr s.vm.currentThread).registers.Mirrors r)
    (hfault : Vm.Faults (r badVaddrReg).toNat vm) (hs : s.pageFault r vm victim = some s') :
    Mirrored (tr ++ []) s' := by
  simp only [Workstation.pageFault, Option.bind_eq_bind, Option.bind_eq_some_iff,
    Option.some.injEq] at hs
  obtain ⟨vm', hhandler, rfl⟩ := hs
  obtain ⟨w, hr, hmiss⟩ := hfault
  obtain ⟨k', heq, -, hinv', hcontent', -⟩ := hinv.handled hcontent hr hvictim hmiss
  rw [hhandler, Option.some.injEq] at heq
  subst heq
  exact h.unseen hinv' hcontent'
    (hsame.trans (hinv.handled_sameThreads hr hvictim hmiss hhandler)) hregisters.zero'
    fun _ => hregisters

/-- The program of the thread that runs, in the virtual memory. -/
theorem Mirrored.holds (h : Mirrored tr s) :
    Vm.HoldsMemory s.vm (fun u => (flat tr u).memory) (flat tr s.vm.currentThread).memory s.vm := by
  refine ⟨h.inv, ?_, .refl⟩
  rw [Function.update_eq_self]
  exact h.content

/-- **A turn of the loop of `Run`**, on its own machine and here. -/
theorem Mirrored.follows (h : Mirrored tr s) (hfresh : s.mode s.vm.currentThread ≠ .fresh)
    (hproper : (flat tr s.vm.currentThread).Proper) :
    Machine.Cycle.Follows (Vm.HoldsMemory s.vm fun u => (flat tr u).memory) Vm.Faults
      (flat tr s.vm.currentThread).registers (flat tr s.vm.currentThread).memory
      (flat tr s.vm.currentThread).cycle (Machine.cycle Vm.mmu s.registers s.vm) := by
  obtain ⟨space, hspace⟩ := h.space hfresh
  have hsize : (flat tr s.vm.currentThread).size = space.numPages * pageSize := by
    rw [Process.size, h.numPages _ _ hspace]
  unfold Process.cycle
  rw [hsize]
  exact (Vm.flat_simulates hspace).cycle_follows h.holds (h.running hfresh)
    (hsize ▸ hproper.hazardFree)

/-- What it leaves is the same. -/
theorem Mirrored.cycle (h : Mirrored tr s) {victim : ℕ} {s' : Workstation}
    (hproper : (flat tr s.vm.currentThread).Proper) (hvictim : victim < numPhysPages)
    (hs : s.step (.cycle victim) = some s') : Mirrored (tr ++ s.emit (.cycle victim)) s' := by
  simp only [step] at hs
  split at hs
  · rename_i hmode
    have hfresh : s.mode s.vm.currentThread ≠ .fresh := by rw [hmode]; decide
    have hspace := h.space hfresh
    have hfollows := h.follows hfresh hproper
    have hinside := hproper.inside
    have hanswered : Answered (tr ++ [.cycled s.vm.currentThread]) := h.answered.concat nofun nofun
    simp only [emit]
    generalize hc : (flat tr s.vm.currentThread).cycle = c at hfollows hinside
    generalize Machine.cycle Vm.mmu s.registers s.vm = c' at hfollows hs ⊢
    cases hfollows with
    | @done q q' memory vm hq hm =>
      cases hs
      refine h.acted_same (flat_concat ..) ?_ hm.inv ?_ hm.same hq.zero' (fun _ => ?_)
        (fun hkernel => ?_) hanswered
      · rw [Process.cycled_done hc]
      · rw [Process.cycled_done hc]
        exact hm.content
      · rw [Process.cycled_done hc]
        exact hq
      · rw [hmode] at hkernel
        cases hkernel
    | @raised et q q' memory vm het hq hload hm =>
      cases et with
      | syscall =>
        cases hs
        refine h.acted (flat_concat ..) ?_ hm.inv ?_ hm.same hq.zero' (fun _ => hspace)
          (fun _ => ?_) (fun _ => ?_) hanswered
        · rw [Process.cycled_raised hc]
        · rw [Process.cycled_raised hc]
          exact hm.content
        · rw [Process.cycled_raised hc]
          exact hq
        · rw [Process.cycled_raised hc]
          exact hload
      | overflow | illegalInstr => cases hs
      | mmu et =>
        cases et with
        | busError => exact absurd rfl (hinside q memory)
        | readOnly | addressError => cases hs
        | pageFault => exact absurd rfl het
    | failed => cases hs
    | @faulted q q' vm hq hm hfault =>
      have hcontent := hm.content
      rw [Function.update_eq_self] at hcontent
      exact h.pageFault hm.inv hcontent hm.same hvictim hq hfault hs
    | outside => exact absurd rfl (hinside _ _)
  · cases hs

/-- The kernel reads a register. -/
theorem Mirrored.readRegister (h : Mirrored tr s) {num : ℕ} {s' : Workstation}
    (hnum : num ≤ prevPcReg) (hs : s.step (.readRegister num) = some s') :
    Mirrored (tr ++ s.emit (.readRegister num)) s' := by
  simp only [step] at hs
  split at hs
  · rename_i hmode
    cases hs
    have hfresh : s.mode s.vm.currentThread ≠ .fresh := by rw [hmode]; decide
    refine h.acted_same (p := flat tr s.vm.currentThread) ?_ rfl h.inv ?_ .refl h.zero
      (fun _ => h.running hfresh) (h.settled _) (h.answered.concat ?_ nofun)
    · rw [emit, flat_concat, Function.update_eq_self]
      rfl
    · rw [Function.update_eq_self]
      exact h.content
    · intro u num' value he
      cases he
      exact (h.running hfresh).read hnum (Or.inl (h.settled _ hmode))
  · cases hs

/-- The kernel writes a register. -/
theorem Mirrored.writeRegister (h : Mirrored tr s) {num : ℕ} {value : BitVec 32}
    {s' : Workstation} (hnum : num ≤ prevPcReg)
    (hs : s.step (.writeRegister num value) = some s') :
    Mirrored (tr ++ s.emit (.writeRegister num value)) s' := by
  simp only [step] at hs
  split at hs
  · rename_i hmode
    cases hs
    have hfresh : s.mode s.vm.currentThread ≠ .fresh := by rw [hmode]; decide
    obtain ⟨hwritten, hsettled⟩ := (h.running hfresh).written (h.settled _ hmode) hnum value
    refine h.acted_same (flat_concat ..) rfl h.inv ?_ .refl hwritten.zero' (fun _ => hwritten)
      (fun _ => hsettled) (h.answered.concat nofun nofun)
    rw [Function.update_eq_self]
    exact h.content
  · cases hs

/-- The kernel reads memory of the program. -/
theorem Mirrored.readMem (h : Mirrored tr s) {addr : BitVec 32} {w : Width} {victim : ℕ}
    {s' : Workstation} (hr : s.vm.InRange addr.toNat w) (hvictim : victim < numPhysPages)
    (hs : s.step (.readMem addr w victim) = some s') :
    Mirrored (tr ++ s.emit (.readMem addr w victim)) s' := by
  simp only [step] at hs
  split at hs
  · rename_i hmode
    have hfresh : s.mode s.vm.currentThread ≠ .fresh := by rw [hmode]; decide
    have hrunning := h.running hfresh
    simp only [emit]
    rcases h.content.readMem_cases h.inv hr with ⟨i, hok⟩ | ⟨hfault, hmiss⟩
    · rw [hok] at hs ⊢
      cases hs
      refine h.acted_same (p := flat tr s.vm.currentThread) ?_ rfl
        (h.inv.of_agree Vm.agrees_touch) ?_ Vm.agrees_touch.sameThreads h.zero (fun _ => hrunning)
        (h.settled _) (h.answered.concat nofun ?_)
      · rw [flat_concat, Function.update_eq_self]
        rfl
      · rw [Function.update_eq_self]
        exact h.content.touch
      · intro u addr' w' value he
        cases he
        rfl
    · rw [hfault] at hs ⊢
      refine h.pageFault h.inv h.content .refl hvictim (hrunning.raised addr) ?_ hs
      rw [hrunning.toAgrees.raise_badVaddr]
      exact ⟨w, hr, hmiss⟩
  · cases hs

/-- The kernel writes memory of the program. -/
theorem Mirrored.writeMem (h : Mirrored tr s) {addr : BitVec 32} {w : Width} {value : ℤ}
    {victim : ℕ} {s' : Workstation} (hr : s.vm.InRange addr.toNat w)
    (hvictim : victim < numPhysPages) (hs : s.step (.writeMem addr w value victim) = some s') :
    Mirrored (tr ++ s.emit (.writeMem addr w value victim)) s' := by
  simp only [step] at hs
  split at hs
  · rename_i hmode
    have hfresh : s.mode s.vm.currentThread ≠ .fresh := by rw [hmode]; decide
    have hrunning := h.running hfresh
    simp only [emit]
    rcases h.content.writeMem_cases h.inv hr value with ⟨k', hok, -, hi', hc'⟩ | ⟨hfault, hmiss⟩
    · rw [hok] at hs ⊢
      cases hs
      exact h.acted_same (flat_concat ..) rfl hi' hc' (Vm.writeMem_sameThreads hok) h.zero
        (fun _ => hrunning) (h.settled _) (h.answered.concat nofun nofun)
    · rw [hfault] at hs ⊢
      refine h.pageFault h.inv h.content .refl hvictim (hrunning.raised addr) ?_ hs
      rw [hrunning.toAgrees.raise_badVaddr]
      exact ⟨w, hr, hmiss⟩
  · cases hs

/-- The registers are initialised. -/
theorem Mirrored.initRegisters (h : Mirrored tr s) {s' : Workstation}
    (hs : s.step .initRegisters = some s') : Mirrored (tr ++ s.emit .initRegisters) s' := by
  simp only [step, Option.bind_eq_bind, Option.bind_eq_some_iff] at hs
  obtain ⟨space, hspace, hs⟩ := hs
  split at hs
  · cases hs
    obtain ⟨hinit, hsettled⟩ := Registers.mirrors_initRegisters (r := fun _ => 0#32)
      (q := s.registers) space.numPages rfl h.zero
    have hpages := h.numPages _ _ hspace
    refine h.acted (flat_concat ..) rfl h.inv ?_ .refl hinit.zero' (fun _ => ⟨space, hspace⟩)
      (fun _ => ?_) (fun _ => ?_) (h.answered.concat nofun nofun)
    · rw [Function.update_eq_self]
      exact h.content
    · show (Registers.initRegisters (fun _ => 0#32) (flat tr s.vm.currentThread).numPages).Mirrors _
      rw [hpages]
      exact hinit
    · show Registers.initRegisters (fun _ => 0#32) (flat tr s.vm.currentThread).numPages loadReg = _
      rw [hpages]
      exact hsettled
  · cases hs

/-- The kernel enters the program. -/
theorem Mirrored.enter (h : Mirrored tr s) {s' : Workstation} (hs : s.step .enter = some s') :
    Mirrored (tr ++ s.emit .enter) s' := by
  simp only [step] at hs
  split at hs
  · rename_i hmode
    cases hs
    have hfresh : s.mode s.vm.currentThread ≠ .fresh := by rw [hmode]; decide
    refine h.acted (p := flat tr s.vm.currentThread) (m := .user) ?_ rfl h.inv ?_ .refl h.zero
      (fun _ => h.space hfresh) (fun _ => h.running hfresh) nofun ?_
    · rw [emit, List.append_nil, Function.update_eq_self]
    · rw [Function.update_eq_self]
      exact h.content
    · rw [emit, List.append_nil]
      exact h.answered
  · cases hs

/-- **An interrupt is not seen.** -/
theorem Mirrored.interrupt (h : Mirrored tr s) {s' : Workstation}
    (hs : s.step .interrupt = some s') : Mirrored (tr ++ s.emit .interrupt) s' := by
  cases hs
  exact h.unseen h.inv h.content .refl (Registers.delayedLoad_zero 0#32 0#32)
    fun hfresh => (h.running hfresh).settled

/-- A thread is made. -/
theorem Mirrored.newThread (h : Mirrored tr s) {s' : Workstation}
    (hs : s.step .newThread = some s') : Mirrored (tr ++ s.emit .newThread) s' := by
  cases hs
  obtain ⟨t, ht⟩ := h.alive
  have hnew : s.vm.thread s.vm.nextThread = none := h.inv.newer _ le_rfl
  have hcur : s.vm.currentThread ≠ s.vm.nextThread := by
    intro hcur
    rw [hcur, hnew] at ht
    cases ht
  have hmode : ∀ u m, Function.update s.mode s.vm.nextThread .fresh u = m → m ≠ .fresh →
      u ≠ s.vm.nextThread ∧ s.mode u = m := by
    intro u m hu hm
    by_cases hn : u = s.vm.nextThread
    · rw [hn, Function.update_self] at hu
      exact absurd hu.symm hm
    · rw [Function.update_of_ne hn] at hu
      exact ⟨hn, hu⟩
  have hthread : ∀ u, u ≠ s.vm.nextThread → s.vm.newThread.thread u = s.vm.thread u := fun u hu =>
    Function.update_of_ne hu _ _
  rw [emit, List.append_nil]
  refine ⟨h.inv.newThread, h.content.newThread h.inv, fun u space hs => ?_, ?_,
    fun u t hu hm => ?_, ?_, fun u hm => ?_, h.zero, fun u hm => ?_, fun u hm => ?_, h.answered⟩
  · exact h.numPages u space ((h.inv.newThread_space u).symm.trans hs)
  · exact ⟨t, (hthread _ hcur).trans ht⟩
  · obtain ⟨hn, hm'⟩ := hmode u _ rfl hm
    exact h.spaces u t ((hthread u hn).symm.trans hu) (hm' ▸ hm)
  · show Function.update s.begun s.vm.nextThread false s.vm.currentThread = true
    rw [Function.update_of_ne hcur]
    exact h.current
  · obtain ⟨hn, hm'⟩ := hmode u _ rfl hm
    show Function.update s.begun s.vm.nextThread false u = true
    rw [Function.update_of_ne hn]
    exact h.begun u (hm' ▸ hm)
  · obtain ⟨hn, hm'⟩ := hmode u _ rfl hm
    exact h.registers u (hm' ▸ hm)
  · exact h.settled u (hmode u _ hm (by decide)).2

/-- An address space is made. -/
theorem Mirrored.newSpace (h : Mirrored tr s) {u : ℕ} {exe : Executable} {s' : Workstation}
    (hid : s.vm.Allowed (.newSpace u exe)) (hl : Vm.Layout exe)
    (hs : s.step (.newSpace u exe) = some s') :
    Mirrored (tr ++ s.emit (.newSpace u exe)) s' := by
  simp only [step, Option.bind_eq_bind, Option.bind_eq_some_iff, Option.some.injEq] at hs
  obtain ⟨vm, hnew, rfl⟩ := hs
  obtain ⟨t, ht, hnone, hvm⟩ := Vm.newSpace_eq_some hnew
  -- a thread that is given an address space has not run a program
  have hfresh : s.mode u = .fresh := by
    by_contra hm
    obtain ⟨space, hspace⟩ := Option.isSome_iff_exists.mp (h.spaces u t ht hm)
    rw [Vm.space_eq_some.mpr ⟨t, ht, hspace⟩] at hnone
    cases hnone
  have hne : ∀ v, s.mode v ≠ .fresh → v ≠ u := by
    rintro v hm rfl
    exact hm hfresh
  have hother : ∀ v, v ≠ u → flat (tr ++ [.made u exe]) v = flat tr v := by
    intro v hv
    rw [flat_concat, flatStep, Function.update_of_ne hv]
  have hself : flat (tr ++ [.made u exe]) u = { flat tr u with
      memory := Vm.image exe
      numPages := (AddressSpace.make exe 0).numPages } := by
    rw [flat_concat, flatStep, Function.update_self]
  rw [emit]
  refine ⟨h.inv.newSpace hid hnew, ?_, fun v space hs => ?_, ?_, fun v t' hv hm => ?_, ?_,
    fun v hm => h.begun v hm, h.zero, fun v hm => ?_, fun v hm => ?_,
    h.answered.concat nofun nofun⟩
  · rw [flat_concat, flatStep, memory_update]
    exact h.content.newSpace h.inv hl hnew
  · rw [hvm] at hs
    by_cases hv : v = u
    · rw [hv, Vm.withSpace_space_self, Option.some.injEq] at hs
      rw [hv, hself, ← hs]
      rfl
    · rw [Vm.withSpace_space hv] at hs
      rw [hother v hv]
      exact h.numPages v space hs
  · obtain ⟨t', ht'⟩ := h.alive
    rw [hvm]
    show ∃ t, Function.update s.vm.thread u _ s.vm.currentThread = some t
    by_cases hv : s.vm.currentThread = u
    · rw [hv, Function.update_self]
      exact ⟨_, rfl⟩
    · rw [Function.update_of_ne hv]
      exact ⟨t', ht'⟩
  · rw [hvm] at hv
    exact h.spaces v t' ((Function.update_of_ne (hne v hm) _ _).symm.trans hv) hm
  · show s.begun vm.currentThread = true
    rw [hvm]
    exact h.current
  · rw [hother v (hne v hm), hvm]
    exact h.registers v hm
  · rw [hother v (hne v (by rw [hm]; decide))]
    exact h.settled v hm

/-- A thread is destroyed. -/
theorem Mirrored.destroy (h : Mirrored tr s) {u : ℕ} {s' : Workstation}
    (hs : s.step (.destroy u) = some s') : Mirrored (tr ++ s.emit (.destroy u)) s' := by
  simp only [step, Option.bind_eq_bind, Option.bind_eq_some_iff, Option.some.injEq] at hs
  obtain ⟨vm, hd, rfl⟩ := hs
  obtain ⟨hcur, bits, memory, hvm, -⟩ := Vm.destroy_eq_some hd
  have hcontent := h.content.destroy h.inv hd
  have hinv := h.inv.destroy hd
  subst hvm
  rw [emit, List.append_nil]
  refine ⟨hinv, hcontent, fun v space hs => ?_, ?_, fun v t hv hm => ?_, h.current, h.begun, h.zero,
    h.registers, h.settled, h.answered⟩
  · exact h.numPages v space (Vm.withoutThread_space.mp hs).2
  · obtain ⟨t, ht⟩ := h.alive
    refine ⟨t, ?_⟩
    show Function.update s.vm.thread u none s.vm.currentThread = some t
    rw [Function.update_of_ne (Ne.symm hcur)]
    exact ht
  · by_cases hvu : v = u
    · rw [hvu] at hv
      simp [Vm.withoutThread] at hv
    · have hv' : Function.update s.vm.thread u none v = some t := hv
      rw [Function.update_of_ne hvu] at hv'
      exact h.spaces v t hv' hm

/-- **A context switch is not seen.** -/
theorem Mirrored.switch (h : Mirrored tr s) {next : ℕ} {s' : Workstation}
    (hs : s.step (.switch next) = some s') : Mirrored (tr ++ s.emit (.switch next)) s' := by
  simp only [step, Workstation.switch, Option.bind_eq_bind, Option.bind_eq_some_iff,
    Option.some.injEq] at hs
  obtain ⟨vm, hswitch, rfl⟩ := hs
  obtain ⟨hcur, ⟨t, ht⟩, hthreads⟩ := h.inv.switch_threads hswitch
  have hspace : ∀ u, vm.space u = s.vm.space u := by
    intro u
    have hu := hthreads u
    unfold Vm.space
    cases hv : vm.thread u with
    | none =>
      rw [hv, Option.map_none, eq_comm, Option.map_eq_none_iff] at hu
      rw [hu]
    | some t' =>
      rw [hv, Option.map_some, eq_comm, Option.map_eq_some_iff] at hu
      obtain ⟨t'', ht'', hts⟩ := hu
      rw [ht'']
      exact hts.symm
  -- what is saved of every thread that runs a program
  have hsaved : ∀ u, s.mode u ≠ .fresh →
      (flat tr u).registers.Mirrors (s.saveUserState u) := by
    intro u hm
    have hregisters := h.registers u hm
    unfold registersOf at hregisters
    unfold saveUserState
    by_cases hu : u = s.vm.currentThread
    · subst hu
      obtain ⟨space, hs⟩ := h.space hm
      rw [if_pos rfl] at hregisters
      rw [hs, Option.isSome_some, if_pos rfl, Function.update_self]
      exact hregisters
    · rw [if_neg hu] at hregisters
      split
      · rw [Function.update_of_ne hu]
        exact hregisters
      · exact hregisters
  rw [emit, List.append_nil]
  refine ⟨h.inv.switch hswitch, h.content.switch h.inv hswitch, fun u space hs => ?_, ?_,
    fun u t' hu hm => ?_, ?_, fun u hm => ?_, ?_, fun u hm => ?_, h.settled, h.answered⟩
  · exact h.numPages u space ((hspace u).symm.trans hs)
  · have hnext := hthreads next
    rw [ht, Option.map_some, Option.map_eq_some_iff] at hnext
    obtain ⟨t', ht', -⟩ := hnext
    exact ⟨t', by rw [hcur]; exact ht'⟩
  · have hthread := hthreads u
    rw [hu, Option.map_some, eq_comm, Option.map_eq_some_iff] at hthread
    obtain ⟨t'', ht'', hts⟩ := hthread
    rw [← hts]
    exact h.spaces u t'' ht'' hm
  · show Function.update s.begun next true vm.currentThread = true
    rw [hcur, Function.update_self]
  · show Function.update s.begun next true u = true
    by_cases hu : u = next
    · rw [hu, Function.update_self]
    · rw [Function.update_of_ne hu]
      exact h.begun u hm
  · show (if _ then s.registers.restoreUserState (s.saveUserState next) else s.registers) 0 = 0#32
    split
    · rw [Registers.restoreUserState_apply, if_neg (by omega)]
      exact h.zero
    · exact h.zero
  · show (flat tr u).registers.Mirrors (if u = vm.currentThread then
      (if (s.vm.space next).isSome ∧ s.begun next = true then
        s.registers.restoreUserState (s.saveUserState next) else s.registers)
      else s.saveUserState u)
    rw [hcur]
    by_cases hu : u = next
    · subst hu
      have hrestores : (s.vm.space u).isSome ∧ s.begun u = true := by
        refine ⟨?_, h.begun u hm⟩
        obtain ⟨space, hs⟩ := Option.isSome_iff_exists.mp (h.spaces u t ht hm)
        rw [Vm.space_eq_some.mpr ⟨t, ht, hs⟩]
        rfl
      rw [if_pos rfl, if_pos hrestores]
      exact (hsaved u hm).restored h.zero
    · rw [if_neg hu]
      exact hsaved u hm

/-- **Every step keeps the invariant.** -/
theorem Mirrored.step (h : Mirrored tr s) {a : Action} {s' : Workstation} (ha : Allowed tr s a)
    (hs : s.step a = some s') : Mirrored (tr ++ s.emit a) s' := by
  cases a with
  | newThread => exact h.newThread hs
  | newSpace u exe => exact h.newSpace ha.1 ha.2 hs
  | destroy u => exact h.destroy hs
  | switch next => exact h.switch hs
  | initRegisters => exact h.initRegisters hs
  | readRegister num => exact h.readRegister ha hs
  | writeRegister num value => exact h.writeRegister ha hs
  | readMem addr w victim => exact h.readMem ha.1 ha.2 hs
  | writeMem addr w value victim => exact h.writeMem ha.1 ha.2 hs
  | enter => exact h.enter hs
  | interrupt => exact h.interrupt hs
  | cycle victim => exact h.cycle ha.1 ha.2 hs

end Steps

/-! ## Runs -/

section Runs
variable {data : ℤ → ℕ} {pageTable : ℕ → ℕ → TranslationEntry} {tlb : ℕ → TranslationEntry}
  {coreMap : ℕ → CoreMapEntry} {userRegisters : ℕ → Registers} {tr : List Event} {s : Workstation}

theorem mirrored_initial : Mirrored [] (initial data pageTable tlb coreMap userRegisters) where
  inv := Vm.frameInv_initial data pageTable tlb coreMap
  content := Vm.simulates_initial.content
  numPages h space hs := by
    have hnone : (Vm.initial data pageTable tlb coreMap).space h = none := by
      by_cases hh : h = 0
      · rw [hh]
        rfl
      · simp [Vm.space, Vm.initial, hh]
    have hs' : (Vm.initial data pageTable tlb coreMap).space h = some space := hs
    rw [hnone] at hs'
    cases hs'
  alive := ⟨⟨0, 0, none⟩, rfl⟩
  spaces _ _ _ hm := absurd rfl hm
  current := rfl
  begun _ hm := absurd rfl hm
  zero := rfl
  registers _ hm := absurd rfl hm
  settled _ hm := by cases hm
  answered := ⟨fun before _ _ _ _ he => by simp at he, fun before _ _ _ _ _ he => by simp at he⟩

end Runs

end Workstation
end PaldOs
