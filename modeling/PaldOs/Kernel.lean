import PaldOs.LinkedList
import PaldOs.Runs
import Mathlib.Logic.Function.Basic

/-! # Threads, semaphores, locks, conditions and channels

The synchronization of `threads/`: `Semaphore`, `Lock` (a semaphore of value 1
with an owner and priority inheritance), `Condition` (a queue of private
semaphores), `Channel` (a mailbox with a lock and two conditions), over a ready
list and one running thread.

A thread's control state is the list of instructions it has still to execute,
its first one first; a routine of the source is an instruction that replaces
itself by its statements.  One instruction is executed in one step, by the
running thread.  A context switch takes place when the running thread sleeps in
`Semaphore::P`, or when interrupts are enabled again, which happens at the end
of `P` and of `V`: these are the only places where `switchPoint` is set, and
`yield` is possible only there or in the calling code.  Which ready thread runs
next is left open, so that every interleaving is a run.

The semaphore of a lock and the private semaphores of a condition's waiters
have names of their own (`SemId.lock`, `SemId.waiter`), and so do the lock and
the conditions of a channel: no caller can reach them but through the object
they belong to.
-/
namespace PaldOs

/-- A lock: a caller's own, or the one inside a channel. -/
inductive LockId where
  | user (n : ℕ)
  | channel (c : ℕ)
deriving DecidableEq

/-- A semaphore: a caller's own, the one inside a lock, or the private one made
by the `n`th call of `Condition::Wait`. -/
inductive SemId where
  | user (n : ℕ)
  | lock (l : LockId)
  | waiter (n : ℕ)
deriving DecidableEq

/-- A condition: a caller's own, on one of its locks, or `conditionForSenders` or
`conditionForReceivers` of a channel. -/
inductive CondId where
  | user (n : ℕ) (l : ℕ)
  | senders (c : ℕ)
  | receivers (c : ℕ)
deriving DecidableEq

/-- `conditionLock`. -/
def CondId.lock : CondId → LockId
  | .user _ l => .user l
  | .senders c => .channel c
  | .receivers c => .channel c

/-- The instructions of a thread. -/
inductive Instr where
  /-- `Semaphore::P`. -/
  | p (s : SemId)
  /-- `Semaphore::V`. -/
  | v (s : SemId)
  /-- `Lock::Acquire`, up to its `lock->P()`. -/
  | acquire (l : LockId)
  /-- `lock->P()` in `Lock::Acquire`. -/
  | acquireP (l : LockId)
  /-- `lockOwner = currentThread`. -/
  | setOwner (l : LockId)
  /-- `Lock::Release`, up to its `lock->V()`. -/
  | release (l : LockId)
  /-- `lock->V()` in `Lock::Release`. -/
  | releaseV (l : LockId)
  /-- `Condition::Wait`. -/
  | wait (c : CondId)
  /-- `Condition::Signal`. -/
  | signal (c : CondId)
  /-- `Condition::Broadcast`. -/
  | broadcast (c : CondId)
  /-- `Channel::Send`. -/
  | send (c : ℕ) (message : ℤ)
  /-- `buzon->Append(message)`. -/
  | sendAppend (c : ℕ) (message : ℤ)
  /-- The reading of `msg` from the head of the mailbox. -/
  | sendHead (c : ℕ)
  /-- The loop of `Send`. -/
  | sendLoop (c : ℕ) (msg : ℤ)
  /-- `Channel::Receive`. -/
  | receive (c : ℕ)
  /-- The loop of `Receive`. -/
  | receiveLoop (c : ℕ)
  /-- `*message = buzon->Pop()`. -/
  | receivePop (c : ℕ)
deriving DecidableEq

/-- The state of the kernel.  `waiters c` is the queue of condition `c`, a list
of numbers of private semaphores, and `nextWaiter` the number of the next one to
be made. -/
structure Kernel (T : Type) where
  /-- Whether `MULTILEVEL_PRIORITY_QUEUE` is defined. -/
  multilevel : Bool
  value : SemId → ℤ
  queue : SemId → List T
  lockOwner : LockId → Option T
  oldPriority : LockId → ℕ
  waiters : CondId → List ℕ
  nextWaiter : ℕ
  buzon : ℕ → List ℤ
  priority : T → ℕ
  readyList : List (ListElement T)
  currentThread : Option T
  switchPoint : Bool
  code : T → List Instr

namespace Kernel
variable {T : Type} [DecidableEq T]

/-! ## The scheduler -/

/-- `Scheduler::ReadyToRun`. -/
def readyToRun (k : Kernel T) (t : T) : Kernel T :=
  { k with readyList :=
      if k.multilevel then LinkedList.sortedInsertInverted t (k.priority t) k.readyList
      else LinkedList.append t k.readyList }

/-- `Scheduler::ModifyPriority`. -/
def modifyPriority (k : Kernel T) (t : T) : Kernel T :=
  if LinkedList.has t k.readyList then
    { k with
      readyList :=
        LinkedList.sortedInsertInverted t (k.priority t) (LinkedList.remove t k.readyList) }
  else k

/-- `Thread::SetPriority`, then `Scheduler::ModifyPriority`. -/
def setPriority (k : Kernel T) (t : T) (newPriority : ℕ) : Kernel T :=
  ({ k with priority := Function.update k.priority t newPriority }).modifyPriority t

/-- Thread `t` goes on with `instrs`; `atSwitch` tells whether interrupts have just
been enabled again. -/
def goOn (k : Kernel T) (t : T) (instrs : List Instr) (atSwitch : Bool) : Kernel T :=
  { k with code := Function.update k.code t instrs, switchPoint := atSwitch }

/-! ## Semaphores -/

/-- One test of the loop of `Semaphore::P`: `t` takes a unit and goes on with
`instrs`, or sleeps at the end of the queue, to test again when it is woken. -/
def semaphoreP (k : Kernel T) (t : T) (s : SemId) (instrs : List Instr) : Kernel T :=
  if k.value s = 0 then
    { k with
      queue := Function.update k.queue s (k.queue s ++ [t])
      currentThread := none
      switchPoint := true }
  else ({ k with value := Function.update k.value s (k.value s - 1) }).goOn t instrs true

/-- The waking of `Semaphore::V`: the first thread of the queue, if any, is put on
the ready list. -/
def wake (k : Kernel T) (s : SemId) : Kernel T :=
  match k.queue s with
  | [] => k
  | u :: q => ({ k with queue := Function.update k.queue s q }).readyToRun u

/-- `Semaphore::V`, by thread `t`, which then goes on with `instrs`. -/
def semaphoreV (k : Kernel T) (t : T) (s : SemId) (instrs : List Instr) : Kernel T :=
  ({ k.wake s with value := Function.update k.value s (k.value s + 1) }).goOn t instrs true

/-! ## Locks -/

/-- The priority inheritance of `Lock::Acquire`: an owner of lower priority gets
the priority of the thread that asks for the lock. -/
def inherit (k : Kernel T) (t : T) (l : LockId) : Kernel T :=
  match k.lockOwner l with
  | none => k
  | some owner =>
      if k.multilevel = true ∧ k.priority owner < k.priority t then
        ({ k with oldPriority := Function.update k.oldPriority l (k.priority owner) }).setPriority
          owner (k.priority t)
      else k

/-- The end of the inheritance in `Lock::Release`. -/
def disinherit (k : Kernel T) (t : T) (l : LockId) : Kernel T :=
  if k.multilevel = true ∧ k.priority t ≠ k.oldPriority l then k.setPriority t (k.oldPriority l)
  else k

/-! ## One instruction -/

/-- Thread `t` executes `i`, with `rest` to follow; `none` is a failed assertion.
A `Condition::Signal` wakes the **head** of the condition's queue and leaves it
there. -/
def exec (k : Kernel T) (t : T) (rest : List Instr) : Instr → Option (Kernel T)
  | .p s => some (k.semaphoreP t s rest)
  | .v s => some (k.semaphoreV t s rest)
  | .acquire l =>
      if k.lockOwner l = some t then none
      else some ((k.inherit t l).goOn t (.acquireP l :: rest) false)
  | .acquireP l => some (k.semaphoreP t (.lock l) (.setOwner l :: rest))
  | .setOwner l =>
      some (({ k with lockOwner := Function.update k.lockOwner l (some t) }).goOn t rest false)
  | .release l =>
      if k.lockOwner l = some t then
        some ((({ k with lockOwner := Function.update k.lockOwner l none }).disinherit t l).goOn t
          (.releaseV l :: rest) false)
      else none
  | .releaseV l => some (k.semaphoreV t (.lock l) rest)
  | .wait c =>
      if k.lockOwner c.lock = some t then
        some (({ k with
          value := Function.update k.value (.waiter k.nextWaiter) 0
          queue := Function.update k.queue (.waiter k.nextWaiter) []
          waiters := Function.update k.waiters c (k.waiters c ++ [k.nextWaiter])
          nextWaiter := k.nextWaiter + 1 }).goOn t
            (.release c.lock :: .p (.waiter k.nextWaiter) :: .acquire c.lock :: rest) false)
      else none
  | .signal c =>
      if k.lockOwner c.lock = some t then
        match k.waiters c with
        | [] => some (k.goOn t rest false)
        | n :: _ => some (k.goOn t (.v (.waiter n) :: rest) false)
      else none
  | .broadcast c =>
      match k.waiters c with
      | [] => some (k.goOn t rest false)
      | _ :: _ => some (k.goOn t (.signal c :: .broadcast c :: rest) false)
  | .send c message =>
      some (k.goOn t (.acquire (.channel c) :: .sendAppend c message :: rest) false)
  | .sendAppend c message =>
      some (({ k with buzon := Function.update k.buzon c (k.buzon c ++ [message]) }).goOn t
        (.signal (.receivers c) :: .sendHead c :: rest) false)
  | .sendHead c =>
      match k.buzon c with
      | [] => none
      | msg :: _ => some (k.goOn t (.sendLoop c msg :: rest) false)
  | .sendLoop c msg =>
      if (k.buzon c).head? = some msg then
        some (k.goOn t (.wait (.senders c) :: .sendLoop c msg :: rest) false)
      else some (k.goOn t (.release (.channel c) :: rest) false)
  | .receive c => some (k.goOn t (.acquire (.channel c) :: .receiveLoop c :: rest) false)
  | .receiveLoop c =>
      if k.buzon c = [] then
        some (k.goOn t (.wait (.receivers c) :: .receiveLoop c :: rest) false)
      else some (k.goOn t (.receivePop c :: rest) false)
  | .receivePop c =>
      some (({ k with buzon := Function.update k.buzon c (k.buzon c).tail }).goOn t
        (.signal (.senders c) :: .release (.channel c) :: rest) false)

/-! ## The machine -/

/-- What a thread can call. -/
inductive Call where
  | p (n : ℕ)
  | v (n : ℕ)
  | acquire (l : ℕ)
  | release (l : ℕ)
  | wait (n l : ℕ)
  | signal (n l : ℕ)
  | broadcast (n l : ℕ)
  | send (c : ℕ) (message : ℤ)
  | receive (c : ℕ)

/-- The routine called. -/
def Call.instr : Call → Instr
  | .p n => .p (.user n)
  | .v n => .v (.user n)
  | .acquire l => .acquire (.user l)
  | .release l => .release (.user l)
  | .wait n l => .wait (.user n l)
  | .signal n l => .signal (.user n l)
  | .broadcast n l => .broadcast (.user n l)
  | .send c message => .send c message
  | .receive c => .receive c

/-- What can happen next. -/
inductive Action (T : Type) where
  /-- The running thread, back in its own code, calls a routine. -/
  | call (c : Call)
  /-- The running thread executes its next instruction. -/
  | run
  /-- The running thread yields the processor. -/
  | yield
  /-- A ready thread gets the processor. -/
  | dispatch (t : T)

/-- **One step of the machine**; `none` where the action is not possible. -/
def step (k : Kernel T) : Action T → Option (Kernel T)
  | .call c => do
      let t ← k.currentThread
      if k.code t = [] then some (k.goOn t [c.instr] true) else none
  | .run => do
      let t ← k.currentThread
      match k.code t with
      | [] => none
      | i :: rest => k.exec t rest i
  | .yield => do
      let t ← k.currentThread
      if k.switchPoint = true ∨ k.code t = [] then
        some { k.readyToRun t with currentThread := none, switchPoint := true }
      else none
  | .dispatch t =>
      if k.currentThread = none ∧ LinkedList.has t k.readyList = true then
        some { k with
          readyList := LinkedList.remove t k.readyList
          currentThread := some t
          switchPoint := true }
      else none

/-- The kernel at the start: nothing is locked, waited for or sent, the threads of
`ready` are ready and the semaphores have their initial values. -/
def initial (multilevel : Bool) (value : ℕ → ℤ) (priority : T → ℕ) (ready : List T) : Kernel T where
  multilevel := multilevel
  value
    | .user n => value n
    | .lock _ => 1
    | .waiter _ => 0
  queue _ := []
  lockOwner _ := none
  oldPriority _ := 0
  waiters _ := []
  nextWaiter := 0
  buzon _ := []
  priority := priority
  readyList := ready.map (fun t => ⟨priority t, t⟩)
  currentThread := none
  switchPoint := true
  code _ := []

/-! ## Events -/

/-- What is recorded of a run: a thread got past the `P` of `Lock::Acquire` or did
the `V` of `Lock::Release`; got past that `P` in `Channel::Send`, with the
message it sends; appended a message to a mailbox, or popped one, `none` if the
mailbox was empty. -/
inductive Event (T : Type) where
  | acquired (l : LockId) (t : T)
  | released (l : LockId) (t : T)
  | entered (c : ℕ) (t : T) (message : ℤ)
  | appended (c : ℕ) (t : T) (message : ℤ)
  | popped (c : ℕ) (t : T) (message : Option ℤ)

/-- The events of an instruction. -/
def instrEvents (k : Kernel T) (t : T) (rest : List Instr) : Instr → List (Event T)
  | .acquireP l =>
      if k.value (.lock l) = 0 then []
      else match rest with
        | .sendAppend c message :: _ => [.acquired l t, .entered c t message]
        | _ => [.acquired l t]
  | .releaseV l => [.released l t]
  | .sendAppend c message => [.appended c t message]
  | .receivePop c => [.popped c t (k.buzon c).head?]
  | _ => []

/-- The events of an action. -/
def emit (k : Kernel T) : Action T → List (Event T)
  | .run =>
      match k.currentThread with
      | none => []
      | some t =>
        match k.code t with
        | [] => []
        | i :: rest => k.instrEvents t rest i
  | _ => []

/-- The runs of the kernel whose actions are all allowed by `guard`. -/
def RunWhere (guard : List (Event T) → Kernel T → Action T → Prop) (start : Kernel T) :
    List (Event T) → Kernel T → Prop :=
  Run step emit guard start

/-- The runs of the kernel. -/
def Runs (start : Kernel T) : List (Event T) → Kernel T → Prop :=
  RunWhere (fun _ _ _ => True) start

/-! ## What the parts of a step leave alone -/

section Frame
variable (k : Kernel T) (t : T) (l : LockId) (s : SemId) (instrs : List Instr) (b : Bool)

@[simp] theorem goOn_code : (k.goOn t instrs b).code = Function.update k.code t instrs := rfl
@[simp] theorem goOn_value : (k.goOn t instrs b).value = k.value := rfl
@[simp] theorem goOn_queue : (k.goOn t instrs b).queue = k.queue := rfl
@[simp] theorem goOn_lockOwner : (k.goOn t instrs b).lockOwner = k.lockOwner := rfl
@[simp] theorem goOn_waiters : (k.goOn t instrs b).waiters = k.waiters := rfl
@[simp] theorem goOn_nextWaiter : (k.goOn t instrs b).nextWaiter = k.nextWaiter := rfl
@[simp] theorem goOn_buzon : (k.goOn t instrs b).buzon = k.buzon := rfl
@[simp] theorem goOn_readyList : (k.goOn t instrs b).readyList = k.readyList := rfl
@[simp] theorem goOn_currentThread : (k.goOn t instrs b).currentThread = k.currentThread := rfl
@[simp] theorem goOn_switchPoint : (k.goOn t instrs b).switchPoint = b := rfl

omit [DecidableEq T] in
/-- Putting a thread on the ready list changes nothing else. -/
theorem readyToRun_eq : ∃ r, k.readyToRun t = { k with readyList := r } ∧
    ∀ u, u ∈ r.map ListElement.item ↔ u = t ∨ u ∈ k.readyList.map ListElement.item := by
  refine ⟨_, rfl, fun u => ?_⟩
  split
  · exact LinkedList.mem_sortedInsertInverted
  · simp [LinkedList.append, or_comm]

/-- A change of priority changes the order of the ready list and nothing else. -/
theorem setPriority_eq (n : ℕ) : ∃ r, k.setPriority t n =
      { k with priority := Function.update k.priority t n, readyList := r } ∧
    ∀ u, u ∈ r.map ListElement.item ↔ u ∈ k.readyList.map ListElement.item := by
  unfold setPriority modifyPriority
  split
  · rename_i hh
    exact ⟨_, rfl, fun u => LinkedList.mem_reinsertInverted (LinkedList.has_iff.mp hh)⟩
  · exact ⟨_, rfl, fun u => Iff.rfl⟩

/-- Priority inheritance changes priorities and the order of the ready list. -/
theorem inherit_eq : ∃ o p r, k.inherit t l =
      { k with oldPriority := o, priority := p, readyList := r } ∧
    ∀ u, u ∈ r.map ListElement.item ↔ u ∈ k.readyList.map ListElement.item := by
  unfold inherit
  split
  · exact ⟨_, _, _, rfl, fun u => Iff.rfl⟩
  · split
    · obtain ⟨r, hr, hmem⟩ := setPriority_eq
        { k with oldPriority := Function.update k.oldPriority l (k.priority _) } _ (k.priority t)
      exact ⟨_, _, r, hr, hmem⟩
    · exact ⟨_, _, _, rfl, fun u => Iff.rfl⟩

/-- So does its end. -/
theorem disinherit_eq : ∃ p r, k.disinherit t l = { k with priority := p, readyList := r } ∧
    ∀ u, u ∈ r.map ListElement.item ↔ u ∈ k.readyList.map ListElement.item := by
  unfold disinherit
  split
  · obtain ⟨r, hr, hmem⟩ := k.setPriority_eq t (k.oldPriority l)
    exact ⟨_, r, hr, hmem⟩
  · exact ⟨_, _, rfl, fun u => Iff.rfl⟩

omit [DecidableEq T] in
/-- What `V` wakes: nobody, or the first thread of the queue. -/
theorem wake_eq : (k.queue s = [] ∧ k.wake s = k) ∨
    ∃ u q r, k.queue s = u :: q ∧
      k.wake s = { k with queue := Function.update k.queue s q, readyList := r } ∧
      ∀ w, w ∈ r.map ListElement.item ↔ w = u ∨ w ∈ k.readyList.map ListElement.item := by
  unfold wake
  split
  · exact Or.inl ⟨by assumption, rfl⟩
  · rename_i u q hq
    obtain ⟨r, hr, hmem⟩ := readyToRun_eq { k with queue := Function.update k.queue s q } u
    exact Or.inr ⟨u, q, r, hq, hr, hmem⟩

end Frame

/-- What an instruction can be replaced by when its thread goes on. -/
inductive Becomes : Instr → List Instr → Prop
  | p (s : SemId) : Becomes (.p s) []
  | v (s : SemId) : Becomes (.v s) []
  | acquire (l : LockId) : Becomes (.acquire l) [.acquireP l]
  | acquireP (l : LockId) : Becomes (.acquireP l) [.setOwner l]
  | setOwner (l : LockId) : Becomes (.setOwner l) []
  | release (l : LockId) : Becomes (.release l) [.releaseV l]
  | releaseV (l : LockId) : Becomes (.releaseV l) []
  | wait (c : CondId) (n : ℕ) :
      Becomes (.wait c) [.release c.lock, .p (.waiter n), .acquire c.lock]
  | signalNobody (c : CondId) : Becomes (.signal c) []
  | signal (c : CondId) (n : ℕ) : Becomes (.signal c) [.v (.waiter n)]
  | broadcastNobody (c : CondId) : Becomes (.broadcast c) []
  | broadcast (c : CondId) : Becomes (.broadcast c) [.signal c, .broadcast c]
  | send (c : ℕ) (m : ℤ) : Becomes (.send c m) [.acquire (.channel c), .sendAppend c m]
  | sendAppend (c : ℕ) (m : ℤ) :
      Becomes (.sendAppend c m) [.signal (.receivers c), .sendHead c]
  | sendHead (c : ℕ) (m : ℤ) : Becomes (.sendHead c) [.sendLoop c m]
  | sendWait (c : ℕ) (m : ℤ) : Becomes (.sendLoop c m) [.wait (.senders c), .sendLoop c m]
  | sendDone (c : ℕ) (m : ℤ) : Becomes (.sendLoop c m) [.release (.channel c)]
  | receive (c : ℕ) : Becomes (.receive c) [.acquire (.channel c), .receiveLoop c]
  | receiveWait (c : ℕ) : Becomes (.receiveLoop c) [.wait (.receivers c), .receiveLoop c]
  | receiveDone (c : ℕ) : Becomes (.receiveLoop c) [.receivePop c]
  | receivePop (c : ℕ) :
      Becomes (.receivePop c) [.signal (.senders c), .release (.channel c)]

/-- **What an instruction leaves of the code**: all of it, when its thread sleeps, or
else the rest with what the instruction is replaced by in front. -/
theorem exec_becomes {k k' : Kernel T} {t : T} {i : Instr} {rest : List Instr}
    (h : k.exec t rest i = some k') :
    k'.code = k.code ∨
      ∃ is, Becomes i is ∧ k'.code = Function.update k.code t (is ++ rest) := by
  cases i with
  | p s | acquireP l =>
    rw [← Option.some.inj h]
    unfold semaphoreP
    split
    · exact Or.inl rfl
    · first
      | exact Or.inr ⟨_, .p s, rfl⟩
      | exact Or.inr ⟨_, .acquireP l, rfl⟩
  | v s | releaseV l =>
    right
    rw [← Option.some.inj h]
    unfold semaphoreV
    rcases wake_eq k _ with ⟨-, hw⟩ | ⟨u, q, r, -, hw, -⟩ <;> rw [hw] <;> first
      | exact ⟨_, .v s, rfl⟩
      | exact ⟨_, .releaseV l, rfl⟩
  | acquire l =>
    simp only [exec] at h
    split at h
    · cases h
    · obtain ⟨o, p, r, he, -⟩ := k.inherit_eq t l
      rw [he] at h
      rw [← Option.some.inj h]
      exact Or.inr ⟨_, .acquire l, rfl⟩
  | setOwner l =>
    rw [← Option.some.inj h]
    exact Or.inr ⟨_, .setOwner l, rfl⟩
  | release l =>
    simp only [exec] at h
    split at h
    · obtain ⟨p, r, he, -⟩ := disinherit_eq
        { k with lockOwner := Function.update k.lockOwner l none } t l
      rw [he] at h
      rw [← Option.some.inj h]
      exact Or.inr ⟨_, .release l, rfl⟩
    · cases h
  | wait c =>
    simp only [exec] at h
    split at h
    · rw [← Option.some.inj h]
      exact Or.inr ⟨_, .wait c _, rfl⟩
    · cases h
  | signal c =>
    simp only [exec] at h
    split at h
    · split at h <;> rw [← Option.some.inj h]
      · exact Or.inr ⟨_, .signalNobody c, rfl⟩
      · exact Or.inr ⟨_, .signal c _, rfl⟩
    · cases h
  | broadcast c =>
    simp only [exec] at h
    split at h <;> rw [← Option.some.inj h]
    · exact Or.inr ⟨_, .broadcastNobody c, rfl⟩
    · exact Or.inr ⟨_, .broadcast c, rfl⟩
  | send c m =>
    rw [← Option.some.inj h]
    exact Or.inr ⟨_, .send c m, rfl⟩
  | sendAppend c m =>
    rw [← Option.some.inj h]
    exact Or.inr ⟨_, .sendAppend c m, rfl⟩
  | sendHead c =>
    simp only [exec] at h
    split at h
    · cases h
    · rw [← Option.some.inj h]
      exact Or.inr ⟨_, .sendHead c _, rfl⟩
  | sendLoop c m =>
    simp only [exec] at h
    split at h <;> rw [← Option.some.inj h]
    · exact Or.inr ⟨_, .sendWait c m, rfl⟩
    · exact Or.inr ⟨_, .sendDone c m, rfl⟩
  | receive c =>
    rw [← Option.some.inj h]
    exact Or.inr ⟨_, .receive c, rfl⟩
  | receiveLoop c =>
    simp only [exec] at h
    split at h <;> rw [← Option.some.inj h]
    · exact Or.inr ⟨_, .receiveWait c, rfl⟩
    · exact Or.inr ⟨_, .receiveDone c, rfl⟩
  | receivePop c =>
    rw [← Option.some.inj h]
    exact Or.inr ⟨_, .receivePop c, rfl⟩

/-- An instruction leaves the code of the other threads alone. -/
theorem code_exec_of_ne {k k' : Kernel T} {t u : T} {i : Instr} {rest : List Instr}
    (h : k.exec t rest i = some k') (hu : u ≠ t) : k'.code u = k.code u := by
  rcases exec_becomes h with hcode | ⟨is, -, hcode⟩
  · rw [hcode]
  · rw [hcode, Function.update_of_ne hu]

/-- What an action can do: only the running thread executes an instruction, and
every other action leaves the synchronization objects alone. -/
theorem step_cases {k k' : Kernel T} {a : Action T} (h : k.step a = some k') :
    (∃ c t, a = .call c ∧ k.currentThread = some t ∧ k.code t = [] ∧
      k' = k.goOn t [c.instr] true) ∨
    (∃ t i rest, a = .run ∧ k.currentThread = some t ∧ k.code t = i :: rest ∧
      k.exec t rest i = some k') ∨
    (∃ t, a = .yield ∧ k.currentThread = some t ∧ (k.switchPoint = true ∨ k.code t = []) ∧
      k' = { k.readyToRun t with currentThread := none, switchPoint := true }) ∨
    (∃ t, a = .dispatch t ∧ k.currentThread = none ∧ LinkedList.has t k.readyList = true ∧
      k' = { k with
        readyList := LinkedList.remove t k.readyList
        currentThread := some t
        switchPoint := true }) := by
  cases a with
  | call c =>
    left
    simp only [step, Option.bind_eq_bind, Option.bind_eq_some_iff] at h
    obtain ⟨t, ht, h⟩ := h
    split at h
    · exact ⟨c, t, rfl, ht, by assumption, (Option.some.inj h).symm⟩
    · cases h
  | run =>
    right; left
    simp only [step, Option.bind_eq_bind, Option.bind_eq_some_iff] at h
    obtain ⟨t, ht, h⟩ := h
    split at h
    · cases h
    · exact ⟨t, _, _, rfl, ht, by assumption, h⟩
  | yield =>
    right; right; left
    simp only [step, Option.bind_eq_bind, Option.bind_eq_some_iff] at h
    obtain ⟨t, ht, h⟩ := h
    split at h
    · exact ⟨t, rfl, ht, by assumption, (Option.some.inj h).symm⟩
    · cases h
  | dispatch t =>
    right; right; right
    simp only [step] at h
    split at h
    · rename_i hc
      exact ⟨t, rfl, hc.1, hc.2, (Option.some.inj h).symm⟩
    · cases h

end Kernel
end PaldOs
