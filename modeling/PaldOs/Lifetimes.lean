import PaldOs.Table
import PaldOs.Runs
import Mathlib.Data.List.Nodup

/-! # The lives of threads

A thread is constructed, which enters it in `runningProcesses`, and forked, which
puts it on the ready list; it runs, yields, sleeps and is woken, and at last it
finishes.  A thread cannot delete itself, since it runs on the stack that goes with
it: `Thread::Finish` leaves it in `threadToBeDestroyed`, and `Scheduler::Run` deletes
what it finds there once `SWITCH` has returned.

`SWITCH` does not return for a thread that gets the processor for the first time.
That thread begins in `ThreadRoot`, deletes nothing, and if it finishes before any
other thread has come back from `SWITCH` the thread left to be destroyed is forgotten.
And `threadToBeDestroyed` is cleared after the destructor, which closes files and may
have to wait for that: the next thread that comes back from `SWITCH` meanwhile deletes
the same thread again (`finish_iff_orderly`).  The destructor takes nothing out of
`runningProcesses`, so the table goes on listing threads that are gone
(`listsLive_iff`).
-/
namespace PaldOs

/-- `ThreadStatus`. -/
inductive ThreadStatus where
  | justCreated
  | running
  | ready
  | blocked
deriving DecidableEq

/-- The threads and the scheduler.  `constructed` and `destroyed` list the threads
for which a constructor has run or a destructor has been called, in that order. -/
structure Lifetimes (T : Type) where
  /-- Whether `MULTILEVEL_PRIORITY_QUEUE` is defined. -/
  multilevel : Bool
  constructed : List T
  destroyed : List T
  status : T → ThreadStatus
  priority : T → ℕ
  spaceId : T → ℤ
  /-- Whether `SWITCH` returns in the thread; else it goes to `ThreadRoot`. -/
  switched : T → Bool
  readyList : List (ListElement T)
  /-- The sleeping threads that are in a queue or wait for a device. -/
  waiting : List T
  currentThread : T
  /-- Whether the current thread is in the loop of `Thread::Sleep`. -/
  sleeping : Bool
  threadToBeDestroyed : Option T
  /-- The threads whose destructors a thread is in, the one called last first.  A destructor that
  sleeps calls `Scheduler::Run`, which may call another. -/
  deleting : T → List T
  runningProcesses : Table (Option T)

namespace Lifetimes
variable {T : Type} [DecidableEq T]

/-! ## The scheduler and the thread class -/

/-- `Scheduler::ReadyToRun`. -/
def readyToRun (s : Lifetimes T) (t : T) : Lifetimes T :=
  { s with
    status := Function.update s.status t .ready
    readyList :=
      if s.multilevel then LinkedList.sortedInsertInverted t (s.priority t) s.readyList
      else LinkedList.append t s.readyList }

/-- The deletion in `Scheduler::Run`, up to where the destructor is called; `none` is the
failed assertion of `~Thread` that the current thread is not deleted. -/
def deleteFinished (s : Lifetimes T) : Option (Lifetimes T) :=
  match s.threadToBeDestroyed with
  | none => some s
  | some t =>
      if t = s.currentThread then none
      else some { s with
        destroyed := s.destroyed ++ [t]
        deleting := Function.update s.deleting s.currentThread
          (t :: s.deleting s.currentThread) }

/-- Whether the current thread is in a destructor called by `Scheduler::Run`. -/
def inDestructor (s : Lifetimes T) : Bool := !(s.deleting s.currentThread).isEmpty

/-- The end of the deletion in `Scheduler::Run`, once the destructor has come back. -/
def endDeletion (s : Lifetimes T) : Lifetimes T :=
  { s with
    deleting := Function.update s.deleting s.currentThread (s.deleting s.currentThread).tail
    threadToBeDestroyed := none }

/-- `Scheduler::Run` up to `SWITCH`, which from now on returns in the next thread. -/
def switchTo (s : Lifetimes T) (nextThread : T) : Lifetimes T :=
  { s with
    currentThread := nextThread
    sleeping := false
    status := Function.update s.status nextThread .running
    switched := Function.update s.switched nextThread true }

/-- `Scheduler::Run`, up to where the next thread goes on by itself. -/
def run (s : Lifetimes T) (nextThread : T) : Option (Lifetimes T) :=
  if s.switched nextThread then (s.switchTo nextThread).deleteFinished
  else some (s.switchTo nextThread)

/-- `Thread::Thread`. -/
def construct (s : Lifetimes T) (t : T) (priority : ℕ) : Lifetimes T :=
  { s with
    constructed := s.constructed ++ [t]
    status := Function.update s.status t .justCreated
    priority := Function.update s.priority t priority
    spaceId := Function.update s.spaceId t (s.runningProcesses.add (some t)).1
    switched := Function.update s.switched t false
    runningProcesses := (s.runningProcesses.add (some t)).2 }

/-- `Thread::SetPriority`, then `Scheduler::ModifyPriority`, as locks do. -/
def setPriority (s : Lifetimes T) (t : T) (newPriority : ℕ) : Lifetimes T :=
  { s with
    priority := Function.update s.priority t newPriority
    readyList :=
      if LinkedList.has t s.readyList then
        LinkedList.sortedInsertInverted t newPriority (LinkedList.remove t s.readyList)
      else s.readyList }

/-- What happens next.  The current thread constructs or forks a thread, sets a
priority, yields, goes to sleep in some queue or finishes; a sleeping thread is woken,
by the current thread or by an interrupt handler; the loop of `Thread::Sleep` finds a
thread to run; the destructor that the current thread is in comes to its end.  A
destructor sets priorities, by its locks, sleeps and wakes, and does nothing else of
these: interrupts are off in it, so it does not yield. -/
inductive Action (T : Type) where
  | construct (t : T) (priority : ℕ)
  | fork (t : T)
  | setPriority (t : T) (newPriority : ℕ)
  | yield
  | sleep
  | finish
  | wake (t : T)
  | dispatch
  | destructed

/-- The state after an action; `none` where it is not possible. -/
def step (s : Lifetimes T) : Action T → Option (Lifetimes T)
  | .construct t priority =>
      if s.sleeping = false ∧ s.inDestructor = false ∧ t ∉ s.constructed then
        some (s.construct t priority)
      else none
  | .fork t =>
      if s.sleeping = false ∧ s.inDestructor = false ∧ t ∈ s.constructed ∧
          s.status t = .justCreated then
        some (s.readyToRun t)
      else none
  | .setPriority t newPriority =>
      if s.sleeping = false then some (s.setPriority t newPriority) else none
  | .yield =>
      if s.sleeping = false ∧ s.inDestructor = false then
        match s.readyList with
        | [] => some s
        | e :: l => (({ s with readyList := l }).readyToRun s.currentThread).run e.item
      else none
  | .sleep =>
      if s.sleeping = false then
        some { s with
          status := Function.update s.status s.currentThread .blocked
          waiting := s.currentThread :: s.waiting
          sleeping := true }
      else none
  | .finish =>
      if s.sleeping = false ∧ s.inDestructor = false then
        some { s with
          status := Function.update s.status s.currentThread .blocked
          threadToBeDestroyed := some s.currentThread
          sleeping := true }
      else none
  | .wake t =>
      if t ∈ s.waiting then some (({ s with waiting := s.waiting.erase t }).readyToRun t) else none
  | .dispatch =>
      if s.sleeping = true then
        match s.readyList with
        | [] => none
        | e :: l => ({ s with readyList := l }).run e.item
      else none
  | .destructed =>
      if s.sleeping = false ∧ s.inDestructor = true then some s.endDeletion else none

/-- What is recorded: a thread finished, with what it found in
`threadToBeDestroyed`; a thread got the processor and came back from `SWITCH`; a thread
got it for the first time; a thread went to sleep in a destructor. -/
inductive Event (T : Type) where
  | finished (t : T) (before : Option T)
  | resumed (t : T)
  | started (t : T)
  | suspended (t : T)

/-- The event of giving the processor to a thread. -/
def runEvent (s : Lifetimes T) (nextThread : T) : Event T :=
  if s.switched nextThread then .resumed nextThread else .started nextThread

/-- The events of an action. -/
def emit (s : Lifetimes T) : Action T → List (Event T)
  | .finish => [.finished s.currentThread s.threadToBeDestroyed]
  | .yield => (s.readyList.head?.map fun e => s.runEvent e.item).toList
  | .dispatch => (s.readyList.head?.map fun e => s.runEvent e.item).toList
  | .sleep => if s.inDestructor then [.suspended s.currentThread] else []
  | _ => []

/-- What `Initialize` leaves: the main thread runs, and is in `runningProcesses`. -/
def initial (multilevel : Bool) (data : ℤ → Option T) (main : T) : Lifetimes T where
  multilevel := multilevel
  constructed := [main]
  destroyed := []
  status := fun _ => .running
  priority := fun _ => 0
  spaceId := fun _ => ((Table.empty data).add (some main)).1
  switched := fun _ => true
  readyList := []
  waiting := []
  currentThread := main
  sleeping := false
  threadToBeDestroyed := none
  deleting := fun _ => []
  runningProcesses := ((Table.empty data).add (some main)).2

/-- The runs of the threads, from `Initialize` on. -/
def Runs (multilevel : Bool) (data : ℤ → Option T) (main : T) :
    List (Event T) → Lifetimes T → Prop :=
  Run step emit (fun _ _ _ => True) (initial multilevel data main)

/-! ## What a step does -/

section Steps
variable {s s' : Lifetimes T} {t : T}

/-- **What `Scheduler::Run` does.**  It calls the destructor of what is to be destroyed when the
next thread comes back from `SWITCH`. -/
theorem run_cases (h : s.run t = some s') :
    ∃ destroyed deleting, s' = { s.switchTo t with destroyed := destroyed, deleting := deleting } ∧
      (s.switched t = true ∧ s.threadToBeDestroyed = none ∧ destroyed = s.destroyed ∧
          deleting = s.deleting ∨
        (∃ u, s.switched t = true ∧ s.threadToBeDestroyed = some u ∧
          destroyed = s.destroyed ++ [u] ∧
          deleting = Function.update s.deleting t (u :: s.deleting t)) ∨
        s.switched t = false ∧ destroyed = s.destroyed ∧ deleting = s.deleting) := by
  unfold run at h
  split at h
  · rename_i hsw
    unfold deleteFinished at h
    split at h
    · rename_i hp
      exact ⟨s.destroyed, s.deleting, (Option.some.inj h).symm, Or.inl ⟨hsw, hp, rfl, rfl⟩⟩
    · rename_i u hp
      split at h
      · cases h
      · exact ⟨_, _, (Option.some.inj h).symm, Or.inr (Or.inl ⟨u, hsw, hp, rfl, rfl⟩)⟩
  · rename_i hsw
    exact ⟨s.destroyed, s.deleting, (Option.some.inj h).symm,
      Or.inr (Or.inr ⟨Bool.eq_false_iff.mpr hsw, rfl, rfl⟩)⟩

/-- The steps. -/
inductive Stepped (s s' : Lifetimes T) : Action T → Prop
  | construct (t : T) (p : ℕ) : s.sleeping = false → s.inDestructor = false → t ∉ s.constructed →
      s' = s.construct t p → Stepped s s' (.construct t p)
  | fork (t : T) : s.sleeping = false → s.inDestructor = false → t ∈ s.constructed →
      s.status t = .justCreated → s' = s.readyToRun t → Stepped s s' (.fork t)
  | setPriority (t : T) (p : ℕ) : s.sleeping = false → s' = s.setPriority t p →
      Stepped s s' (.setPriority t p)
  | alone : s.readyList = [] → s' = s → Stepped s s' .yield
  | yield (e : ListElement T) (l : List (ListElement T)) : s.sleeping = false →
      s.inDestructor = false → s.readyList = e :: l →
      (({ s with readyList := l }).readyToRun s.currentThread).run e.item = some s' →
      Stepped s s' .yield
  | sleep : s.sleeping = false → s' = { s with
        status := Function.update s.status s.currentThread .blocked
        waiting := s.currentThread :: s.waiting
        sleeping := true } → Stepped s s' .sleep
  | finish : s.sleeping = false → s.inDestructor = false → s' = { s with
        status := Function.update s.status s.currentThread .blocked
        threadToBeDestroyed := some s.currentThread
        sleeping := true } → Stepped s s' .finish
  | wake (t : T) : t ∈ s.waiting →
      s' = ({ s with waiting := s.waiting.erase t }).readyToRun t → Stepped s s' (.wake t)
  | dispatch (e : ListElement T) (l : List (ListElement T)) : s.sleeping = true →
      s.readyList = e :: l → ({ s with readyList := l }).run e.item = some s' →
      Stepped s s' .dispatch
  | destructed : s.sleeping = false → s.inDestructor = true → s' = s.endDeletion →
      Stepped s s' .destructed

/-- **What a step does.** -/
theorem step_cases {a : Action T} (h : s.step a = some s') : Stepped s s' a := by
  cases a with
  | construct t p =>
    obtain ⟨⟨hs, hd, ht⟩, h⟩ := Option.ite_none_right_eq_some.mp h
    exact .construct t p hs hd ht (Option.some.inj h).symm
  | fork t =>
    obtain ⟨⟨hs, hd, ht, hst⟩, h⟩ := Option.ite_none_right_eq_some.mp h
    exact .fork t hs hd ht hst (Option.some.inj h).symm
  | setPriority t p =>
    obtain ⟨hs, h⟩ := Option.ite_none_right_eq_some.mp h
    exact .setPriority t p hs (Option.some.inj h).symm
  | yield =>
    obtain ⟨⟨hs, hd⟩, h⟩ := Option.ite_none_right_eq_some.mp h
    split at h
    · rename_i hr
      exact .alone hr (Option.some.inj h).symm
    · rename_i e l hr
      exact .yield e l hs hd hr h
  | sleep =>
    obtain ⟨hs, h⟩ := Option.ite_none_right_eq_some.mp h
    exact .sleep hs (Option.some.inj h).symm
  | finish =>
    obtain ⟨⟨hs, hd⟩, h⟩ := Option.ite_none_right_eq_some.mp h
    exact .finish hs hd (Option.some.inj h).symm
  | wake t =>
    obtain ⟨ht, h⟩ := Option.ite_none_right_eq_some.mp h
    exact .wake t ht (Option.some.inj h).symm
  | dispatch =>
    obtain ⟨hs, h⟩ := Option.ite_none_right_eq_some.mp h
    split at h
    · cases h
    · rename_i e l hr
      exact .dispatch e l hs hr h
  | destructed =>
    obtain ⟨⟨hs, hd⟩, h⟩ := Option.ite_none_right_eq_some.mp h
    exact .destructed hs hd (Option.some.inj h).symm

end Steps

/-! ## Every thread is in one place -/

/-- The threads on the ready list. -/
def ready (s : Lifetimes T) : List T := s.readyList.map ListElement.item

/-- The processor, as a place for at most one thread. -/
def onProcessor (s : Lifetimes T) : List T := if s.sleeping then [] else [s.currentThread]

/-- The places of threads: the processor, the ready list, the queues and devices they wait
for, and for those that have finished, `finished`. -/
def places (s : Lifetimes T) (finished : List T) : List T :=
  s.onProcessor ++ (s.ready ++ (s.waiting ++ finished))

/-- **A thread is in one place**, unless it is not yet forked. -/
structure Placed (finished : List T) (s : Lifetimes T) : Prop where
  nodup : (s.places finished).Nodup
  constructed : ∀ t ∈ s.places finished, t ∈ s.constructed
  forked : ∀ t ∈ s.places finished, s.status t ≠ .justCreated
  pending : ∀ t ∈ s.threadToBeDestroyed, t ∈ finished

section Placed
variable {finished finished' : List T} {s s' : Lifetimes T} {t : T}

omit [DecidableEq T] in
/-- Threads change places. -/
theorem Placed.move (h : Placed finished s)
    (hperm : (s'.places finished').Perm (s.places finished))
    (hcons : ∀ t ∈ s.constructed, t ∈ s'.constructed)
    (hstatus : ∀ t ∈ s.places finished, s'.status t = .justCreated → s.status t = .justCreated)
    (hpending : ∀ t ∈ s'.threadToBeDestroyed, t ∈ finished') : Placed finished' s' where
  nodup := hperm.nodup_iff.mpr h.nodup
  constructed t ht := hcons t (h.constructed t (hperm.mem_iff.mp ht))
  forked t ht hst := h.forked t (hperm.mem_iff.mp ht) (hstatus t (hperm.mem_iff.mp ht) hst)
  pending := hpending

/-- A new status is not the first one. -/
theorem status_update {st : ThreadStatus} (hst : st ≠ .justCreated) (u : T)
    (h : Function.update s.status t st u = .justCreated) : s.status u = .justCreated := by
  by_cases hu : u = t
  · rw [hu, Function.update_self] at h
    exact absurd h hst
  · rwa [Function.update_of_ne hu] at h

theorem ready_readyToRun (s : Lifetimes T) (t : T) :
    (s.readyToRun t).ready.Perm (t :: s.ready) := by
  unfold readyToRun ready
  cases s.multilevel with
  | true => exact LinkedList.sortedInsertInverted_perm ..
  | false =>
    simp only [LinkedList.append, List.map_append, List.map_cons, List.map_nil, if_false,
      Bool.false_eq_true]
    exact List.perm_append_singleton _ _

theorem ready_setPriority (s : Lifetimes T) (t : T) (p : ℕ) :
    (s.setPriority t p).ready.Perm s.ready := by
  unfold setPriority ready
  dsimp only
  split
  · rename_i h
    exact (LinkedList.sortedInsertInverted_perm ..).trans
      (LinkedList.remove_perm (LinkedList.has_iff.mp h)).symm
  · exact List.Perm.refl _

theorem Placed.construct (h : Placed finished s) (ht : t ∉ s.constructed) (p : ℕ) :
    Placed finished (s.construct t p) := by
  refine h.move (List.Perm.refl _) (fun u hu => List.mem_append_left _ hu) ?_ h.pending
  intro u hu hst
  have hut : u ≠ t := fun heq => ht (heq ▸ h.constructed u hu)
  rwa [show (s.construct t p).status u = s.status u from Function.update_of_ne hut ..] at hst

theorem Placed.fork (h : Placed finished s) (ht : t ∈ s.constructed)
    (hst : s.status t = .justCreated) : Placed finished (s.readyToRun t) := by
  have hperm : ((s.readyToRun t).places finished).Perm (t :: s.places finished) := by
    refine (((ready_readyToRun s t).append_right _).append_left s.onProcessor).trans ?_
    exact List.perm_middle
  have hnot : t ∉ s.places finished := fun hmem => h.forked t hmem hst
  refine ⟨hperm.nodup_iff.mpr (List.nodup_cons.mpr ⟨hnot, h.nodup⟩), fun u hu => ?_,
    fun u hu hu' => ?_, h.pending⟩
  · rcases List.mem_cons.mp (hperm.mem_iff.mp hu) with rfl | hu
    · exact ht
    · exact h.constructed u hu
  · rcases List.mem_cons.mp (hperm.mem_iff.mp hu) with rfl | hu
    · rw [show (s.readyToRun u).status u = .ready from Function.update_self ..] at hu'
      cases hu'
    · exact h.forked u hu (status_update (by decide) u hu')

/-- The processor goes to a ready thread, after the current thread has given it up in `s₁`. -/
theorem Placed.run {s₁ : Lifetimes T} (h : Placed finished s) (hrun : s₁.run t = some s')
    (hperm : (t :: (s₁.ready ++ (s₁.waiting ++ finished))).Perm (s.places finished))
    (hcons : s₁.constructed = s.constructed)
    (hstatus : ∀ u, s₁.status u = .justCreated → s.status u = .justCreated)
    (hpending : s₁.threadToBeDestroyed = s.threadToBeDestroyed) : Placed finished s' := by
  obtain ⟨destroyed, deleting, rfl, -⟩ := run_cases hrun
  exact h.move hperm (fun u hu => hcons.symm ▸ hu)
    (fun u _ hu => hstatus u (status_update (by decide) u hu)) fun u hu =>
      h.pending u (hpending ▸ hu)

omit [DecidableEq T] in
theorem places_of_awake (hs : s.sleeping = false) :
    s.places finished = s.currentThread :: (s.ready ++ (s.waiting ++ finished)) := by
  simp [places, onProcessor, hs]

omit [DecidableEq T] in
theorem places_of_sleeping (hs : s.sleeping = true) :
    s.places finished = s.ready ++ (s.waiting ++ finished) := by
  simp [places, onProcessor, hs]

/-- The threads that finish, of what is recorded. -/
def finishedIn (tr : List (Event T)) : List T :=
  tr.filterMap fun e => match e with | .finished t _ => some t | _ => none

omit [DecidableEq T] in
theorem finishedIn_append (tr tr' : List (Event T)) :
    finishedIn (tr ++ tr') = finishedIn tr ++ finishedIn tr' := List.filterMap_append ..

omit [DecidableEq T] in
theorem finishedIn_emit (tr : List (Event T)) (s : Lifetimes T) {a : Action T} (ha : a ≠ .finish) :
    finishedIn (tr ++ s.emit a) = finishedIn tr := by
  have hrun : ∀ o : Option (ListElement T),
      finishedIn (o.map fun e => s.runEvent e.item).toList = [] := by
    rintro (_ | e)
    · rfl
    · simp only [Option.map_some, Option.toList_some, runEvent]
      split <;> rfl
  rw [finishedIn_append]
  cases a with
  | finish => exact absurd rfl ha
  | yield | dispatch => rw [emit, hrun, List.append_nil]
  | sleep =>
    show finishedIn tr ++ finishedIn (if s.inDestructor then _ else _) = _
    split <;> exact List.append_nil _
  | _ => exact List.append_nil _

/-- **A thread stays in one place.** -/
theorem Placed.step {tr : List (Event T)} {a : Action T} (h : Placed (finishedIn tr) s)
    (hstep : s.step a = some s') : Placed (finishedIn (tr ++ s.emit a)) s' := by
  cases step_cases hstep with
  | construct t p hs hd ht he =>
    rw [finishedIn_emit tr _ (by simp), he]
    exact h.construct ht p
  | fork t hs hd ht hst he =>
    rw [finishedIn_emit tr _ (by simp), he]
    exact h.fork ht hst
  | setPriority t p hs he =>
    rw [finishedIn_emit tr _ (by simp), he]
    exact h.move (((ready_setPriority s t p).append_right _).append_left s.onProcessor)
      (fun u hu => hu) (fun u _ hu => hu) h.pending
  | alone hr he =>
    rw [finishedIn_emit tr _ (by simp), he]
    exact h
  | yield e l hs hd hr hrun =>
    rw [finishedIn_emit tr _ (by simp)]
    refine h.run hrun ?_ rfl (fun u hu => status_update (by decide) u hu) rfl
    -- the current thread and the first ready one change places
    have hready : s.ready = e.item :: l.map ListElement.item := by
      rw [ready, hr, List.map_cons]
    rw [places_of_awake hs, hready]
    refine (((ready_readyToRun _ _).append_right _).cons _).trans ?_
    exact List.Perm.swap ..
  | sleep hs he =>
    rw [finishedIn_emit tr _ (by simp), he]
    refine h.move ?_ (fun u hu => hu) (fun u _ hu => status_update (by decide) u hu) h.pending
    rw [places_of_awake hs, places_of_sleeping rfl]
    exact List.perm_middle
  | finish hs hd he =>
    rw [show s.emit .finish = [_] from rfl, finishedIn_append, he]
    refine h.move ?_ (fun u hu => hu) (fun u _ hu => status_update (by decide) u hu) ?_
    · rw [places_of_awake hs, places_of_sleeping rfl, ← List.append_assoc s.waiting,
        ← List.append_assoc]
      exact List.perm_append_singleton _ _
    · intro u hu
      exact List.mem_append_right _ (List.mem_singleton.mpr (Option.mem_some.mp hu).symm)
  | wake t ht he =>
    rw [finishedIn_emit tr _ (by simp), he]
    refine h.move ?_ (fun u hu => hu) (fun u _ hu => status_update (by decide) u hu) h.pending
    refine List.Perm.append_left s.onProcessor ?_
    refine ((ready_readyToRun _ t).append_right _).trans ?_
    refine (List.perm_middle.symm).trans (List.Perm.append_left s.ready ?_)
    exact (List.perm_cons_erase ht).symm.append_right _
  | dispatch e l hs hr hrun =>
    rw [finishedIn_emit tr _ (by simp)]
    refine h.run hrun ?_ rfl (fun u hu => hu) rfl
    have hready : s.ready = e.item :: l.map ListElement.item := by
      rw [ready, hr, List.map_cons]
    rw [places_of_sleeping hs, hready]
    exact List.Perm.refl _
  | destructed hs hd he =>
    rw [finishedIn_emit tr _ (by simp), he]
    exact h.move (List.Perm.refl _) (fun u hu => hu) (fun u _ hu => hu) (fun u hu => nomatch hu)

end Placed

/-! ## Destructors -/

/-- The threads that are in a destructor have had the processor. -/
def Resumable (s : Lifetimes T) : Prop :=
  ∀ u, s.deleting u ≠ [] → u ∈ s.constructed ∧ s.switched u = true

section Resumable
variable {finished : List T} {s s' : Lifetimes T} {t : T}

/-- The processor goes to a ready thread, after the current thread has given it up in `s₁`. -/
theorem Resumable.run {s₁ : Lifetimes T} (h : Resumable s) (hrun : s₁.run t = some s')
    (ht : t ∈ s.constructed) (hcons : s₁.constructed = s.constructed)
    (hswitched : s₁.switched = s.switched) (hdeleting : s₁.deleting = s.deleting) :
    Resumable s' := by
  obtain ⟨destroyed, deleting, rfl, hcases⟩ := run_cases hrun
  rw [hdeleting] at hcases
  have hkept : ∀ u, u ∈ s.constructed ∧ s.switched u = true →
      u ∈ s₁.constructed ∧ Function.update s₁.switched t true u = true := by
    rintro u ⟨hu, hsw⟩
    rw [hcons, hswitched]
    refine ⟨hu, ?_⟩
    by_cases hut : u = t
    · rw [hut, Function.update_self]
    · rwa [Function.update_of_ne hut]
  intro u hu
  replace hu : deleting u ≠ [] := hu
  rcases hcases with ⟨-, -, -, hd⟩ | ⟨v, hsw, -, -, hd⟩ | ⟨-, -, hd⟩
  · rw [hd] at hu
    exact hkept u (h u hu)
  · by_cases hut : u = t
    · rw [hut]
      exact hkept t ⟨ht, hswitched ▸ hsw⟩
    · rw [hd, Function.update_of_ne hut] at hu
      exact hkept u (h u hu)
  · rw [hd] at hu
    exact hkept u (h u hu)

theorem Resumable.step {a : Action T} (h : Resumable s) (hplaced : Placed finished s)
    (hstep : s.step a = some s') : Resumable s' := by
  have hready : ∀ {e : ListElement T} {l : List (ListElement T)}, s.readyList = e :: l →
      e.item ∈ s.constructed := by
    intro e l hr
    refine hplaced.constructed _ (List.mem_append_right _ (List.mem_append_left _ ?_))
    rw [ready, hr, List.map_cons]
    exact List.mem_cons_self
  cases step_cases hstep with
  | construct t p hs hd ht he =>
    rw [he]
    intro u hu
    obtain ⟨hcons, hsw⟩ := h u hu
    have hut : u ≠ t := fun heq => ht (heq ▸ hcons)
    refine ⟨List.mem_append_left _ hcons, ?_⟩
    rwa [show (s.construct t p).switched u = s.switched u from Function.update_of_ne hut ..]
  | fork | setPriority | alone | sleep | finish | wake =>
    rename_i he
    rw [he]
    exact h
  | yield e l hs hd hr hrun => exact h.run hrun (hready hr) rfl rfl rfl
  | dispatch e l hs hr hrun => exact h.run hrun (hready hr) rfl rfl rfl
  | destructed hs hd he =>
    rw [he]
    intro u hu
    refine h u fun hnil => hu ?_
    by_cases hut : u = s.currentThread
    · rw [show s.endDeletion.deleting u = (s.deleting s.currentThread).tail by
        rw [hut]; exact Function.update_self .., ← hut, hnil]
      rfl
    · rw [show s.endDeletion.deleting u = s.deleting u from Function.update_of_ne hut .., hnil]

end Resumable

/-! ## Finishing -/

/-- A thread has finished, and none has come back from `SWITCH` since. -/
def Unresumed (tr : List (Event T)) : Prop :=
  ∃ l₁ t before l₂, tr = l₁ ++ .finished t before :: l₂ ∧ ∀ u, .resumed u ∉ l₂

/-- **Between any two threads that finish, a thread that has run before gets the processor.** -/
def Separated (tr : List (Event T)) : Prop :=
  ∀ l₁ l₂ l₃ t before t' before',
    tr = l₁ ++ .finished t before :: (l₂ ++ .finished t' before' :: l₃) → ∃ u, .resumed u ∈ l₂

/-- A thread finishes, or comes back from `SWITCH`. -/
def Event.Disturbs : Event T → Prop
  | .finished _ _ | .resumed _ => True
  | .started _ | .suspended _ => False

/-- **Once a thread has gone to sleep in a destructor**, none finishes and none comes back from
`SWITCH`. -/
def Undisturbed (tr : List (Event T)) : Prop :=
  ∀ l₁ u l₂, tr = l₁ ++ .suspended u :: l₂ → ∀ e ∈ l₂, ¬ e.Disturbs

/-- The order in which threads come back from `SWITCH` and finish that loses no thread and deletes
none twice. -/
def Orderly (tr : List (Event T)) : Prop := Separated tr ∧ Undisturbed tr

/-- A thread that finishes finds `threadToBeDestroyed` null. -/
def FinishNull (tr : List (Event T)) : Prop :=
  ∀ t before, .finished t before ∈ tr → before = none

/-- The finished thread whose destructor has not been called yet. -/
def undeleted (s : Lifetimes T) : List T :=
  s.threadToBeDestroyed.toList.filter fun t => t ∉ s.destroyed

section Finish
variable {tr : List (Event T)} {e : Event T} {t : T} {before : Option T} {s s' : Lifetimes T}

omit [DecidableEq T]

theorem not_unresumed_nil : ¬ Unresumed ([] : List (Event T)) := by
  rintro ⟨l₁, t, before, l₂, h, -⟩
  cases l₁ <;> cases h

theorem unresumed_finished : Unresumed (tr ++ [.finished t before]) :=
  ⟨tr, t, before, [], rfl, fun _ => List.not_mem_nil⟩

/-- One more event, of a thread that gets the processor. -/
theorem unresumed_append (he : ∀ t before, e ≠ .finished t before) :
    Unresumed (tr ++ [e]) ↔ Unresumed tr ∧ ∀ u, e ≠ .resumed u := by
  constructor
  · rintro ⟨l₁, t, before, l₂, h, hnot⟩
    rcases List.eq_nil_or_concat l₂ with rfl | ⟨l₂, e', rfl⟩
    · have := (List.append_inj' h rfl).2
      exact absurd (List.cons.inj this).1 (he t before)
    · rw [List.concat_eq_append] at h hnot
      have h' : tr ++ [e] = (l₁ ++ .finished t before :: l₂) ++ [e'] := by
        rw [h, List.append_assoc, List.cons_append]
      obtain ⟨htr, he'⟩ := List.append_inj' h' rfl
      refine ⟨⟨l₁, t, before, l₂, htr, fun u hu => hnot u (List.mem_append_left _ hu)⟩, ?_⟩
      rintro u rfl
      exact hnot u (List.mem_append_right _ (he' ▸ List.mem_singleton_self _))
  · rintro ⟨⟨l₁, t, before, l₂, rfl, hnot⟩, he'⟩
    refine ⟨l₁, t, before, l₂ ++ [e], ?_, fun u hu => ?_⟩
    · rw [List.append_assoc, List.cons_append]
    · rcases List.mem_append.mp hu with hu | hu
      · exact hnot u hu
      · exact he' u (List.mem_singleton.mp hu).symm

theorem orderly_nil : Orderly ([] : List (Event T)) := by
  constructor
  · intro l₁ l₂ l₃ t before t' before' h
    cases l₁ <;> cases h
  · intro l₁ u l₂ h
    cases l₁ <;> cases h

/-- One more event: if it is a thread finishing, the one before is not to be waiting. -/
theorem separated_append :
    Separated (tr ++ [e]) ↔
      Separated tr ∧ ((∃ t before, e = .finished t before) → ¬ Unresumed tr) := by
  constructor
  · intro h
    refine ⟨fun l₁ l₂ l₃ t before t' before' htr => ?_, ?_⟩
    · refine h l₁ l₂ (l₃ ++ [e]) t before t' before' ?_
      rw [htr]
      simp
    · rintro ⟨t', before', rfl⟩ ⟨l₁, t, before, l₂, rfl, hnot⟩
      obtain ⟨u, hu⟩ := h l₁ l₂ [] t before t' before' (by simp)
      exact hnot u hu
  · rintro ⟨h, hlast⟩ l₁ l₂ l₃ t before t' before' htr
    rcases List.eq_nil_or_concat l₃ with rfl | ⟨l₃, e', rfl⟩
    · have htr' : tr ++ [e] = (l₁ ++ .finished t before :: l₂) ++ [.finished t' before'] := by
        rw [htr]
        simp
      obtain ⟨htr, he⟩ := List.append_inj' htr' rfl
      by_contra hnone
      exact hlast ⟨t', before', (List.cons.inj he).1⟩
        ⟨l₁, t, before, l₂, htr, fun u hu => hnone ⟨u, hu⟩⟩
    · have htr' : tr ++ [e] =
          (l₁ ++ .finished t before :: (l₂ ++ .finished t' before' :: l₃)) ++ [e'] := by
        rw [htr]
        simp
      exact h l₁ l₂ l₃ t before t' before' (List.append_inj' htr' rfl).1

/-- Nothing can come between two threads that finish if only one does. -/
theorem separated_of_length_le (h : (finishedIn tr).length ≤ 1) : Separated tr := by
  rintro l₁ l₂ l₃ t before t' before' rfl
  have hcons : ∀ (t : T) before l, finishedIn (.finished t before :: l) = t :: finishedIn l :=
    fun _ _ _ => rfl
  rw [finishedIn_append, hcons, finishedIn_append, hcons] at h
  simp only [List.length_append, List.length_cons] at h
  omega

/-- One more event: after a thread has gone to sleep in a destructor it has to be harmless. -/
theorem undisturbed_append :
    Undisturbed (tr ++ [e]) ↔ Undisturbed tr ∧ ((∃ u, .suspended u ∈ tr) → ¬ e.Disturbs) := by
  constructor
  · intro h
    refine ⟨fun l₁ u l₂ htr e' he' => ?_, ?_⟩
    · refine h l₁ u (l₂ ++ [e]) ?_ e' (List.mem_append_left _ he')
      rw [htr, List.append_assoc, List.cons_append]
    · rintro ⟨u, hu⟩
      obtain ⟨l₁, l₂, rfl⟩ := List.append_of_mem hu
      refine h l₁ u (l₂ ++ [e]) ?_ e (List.mem_append_right _ (List.mem_singleton_self e))
      rw [List.append_assoc, List.cons_append]
  · rintro ⟨h, hlast⟩ l₁ u l₂ htr e' he'
    rcases List.eq_nil_or_concat l₂ with rfl | ⟨l₂, e₂, rfl⟩
    · cases he'
    · rw [List.concat_eq_append] at htr he'
      have htr' : tr ++ [e] = (l₁ ++ .suspended u :: l₂) ++ [e₂] := by
        rw [htr, List.append_assoc, List.cons_append]
      obtain ⟨htr, he⟩ := List.append_inj' htr' rfl
      rcases List.mem_append.mp he' with he' | he'
      · exact h l₁ u l₂ htr e' he'
      · rw [List.mem_singleton.mp he', ← (List.cons.inj he).1]
        exact hlast ⟨u, htr ▸ List.mem_append_right _ List.mem_cons_self⟩

/-- One more event of an orderly run. -/
theorem orderly_append : Orderly (tr ++ [e]) ↔ Orderly tr ∧
    ((∃ t before, e = .finished t before) → ¬ Unresumed tr) ∧
    ((∃ u, .suspended u ∈ tr) → ¬ e.Disturbs) := by
  rw [Orderly, Orderly, separated_append, undisturbed_append]
  exact ⟨fun ⟨⟨h₁, h₂⟩, h₃, h₄⟩ => ⟨⟨h₁, h₃⟩, h₂, h₄⟩, fun ⟨⟨h₁, h₃⟩, h₂, h₄⟩ => ⟨⟨h₁, h₂⟩, h₃, h₄⟩⟩

/-- An event that is neither a thread finishing nor one coming back. -/
theorem Orderly.harmless (h : Orderly tr) (he : ¬ e.Disturbs) : Orderly (tr ++ [e]) := by
  refine orderly_append.mpr ⟨h, ?_, fun _ => he⟩
  rintro ⟨t, before, rfl⟩
  exact absurd trivial he

theorem finishNull_append :
    FinishNull (tr ++ [e]) ↔ FinishNull tr ∧ ∀ t before,
    e = .finished t before → before = none := by
  constructor
  · intro h
    refine ⟨fun t before hm => h t before (List.mem_append_left _ hm), ?_⟩
    rintro t before rfl
    exact h t before (List.mem_append_right _ (List.mem_singleton_self _))
  · rintro ⟨h, he⟩ t before hm
    rcases List.mem_append.mp hm with hm | hm
    · exact h t before hm
    · exact he t before (List.mem_singleton.mp hm).symm

/-- **Where an orderly run is**: no thread is to be deleted; one is left to be deleted; the current
thread is in its destructor; the thread that was in its destructor is asleep. -/
inductive Phase (tr : List (Event T)) (s : Lifetimes T) : Prop
  | clear : s.threadToBeDestroyed = none → s.deleting = (fun _ => []) → ¬ Unresumed tr →
      (∀ u, .suspended u ∉ tr) → finishedIn tr = s.destroyed → Phase tr s
  | left (t : T) : s.threadToBeDestroyed = some t → s.deleting = (fun _ => []) → Unresumed tr →
      (∀ u, .suspended u ∉ tr) → finishedIn tr = s.destroyed ++ [t] → Phase tr s
  | deleting (t : T) : s.threadToBeDestroyed = some t → t ∈ s.destroyed → s.sleeping = false →
      s.deleting s.currentThread = [t] → (∀ u, u ≠ s.currentThread → s.deleting u = []) →
      ¬ Unresumed tr → (∀ u, .suspended u ∉ tr) → finishedIn tr = s.destroyed → Phase tr s
  | asleep (t : T) : s.threadToBeDestroyed = some t → t ∈ s.destroyed →
      (s.sleeping = false → s.deleting s.currentThread = []) → (∃ u, .suspended u ∈ tr) →
      finishedIn tr = s.destroyed → Phase tr s

/-- A thread has been forgotten, or deleted twice. -/
def Astray (tr : List (Event T)) (s : Lifetimes T) : Prop :=
  ¬ FinishNull tr ∨ ¬ s.destroyed.Nodup

/-- The invariant: an orderly run is in one of its phases, and any other run has gone wrong. -/
def FinishInv (tr : List (Event T)) (s : Lifetimes T) : Prop :=
  Orderly tr ∧ FinishNull tr ∧ Phase tr s ∨ ¬ Orderly tr ∧ Astray tr s

theorem inDestructor_false : s.inDestructor = false ↔ s.deleting s.currentThread = [] := by
  rw [inDestructor, Bool.not_eq_false', List.isEmpty_iff]

end Finish
section FinishSteps
variable {tr : List (Event T)} {s s' : Lifetimes T} {t : T}

omit [DecidableEq T] in
/-- What has gone wrong stays so. -/
theorem Astray.append {es : List (Event T)} {more : List T} (h : Astray tr s)
    (hd : s'.destroyed = s.destroyed ++ more) : Astray (tr ++ es) s' := by
  rcases h with hnull | hnodup
  · exact Or.inl fun hn => hnull fun t before hm => hn t before (List.mem_append_left _ hm)
  · refine Or.inr fun hn => hnodup ?_
    rw [hd] at hn
    exact hn.of_append_left

omit [DecidableEq T] in
/-- A step that leaves finished threads as they are. -/
theorem FinishInv.frame (h : FinishInv tr s) (hd : s'.destroyed = s.destroyed)
    (hp : s'.threadToBeDestroyed = s.threadToBeDestroyed) (hdel : s'.deleting = s.deleting)
    (hc : s'.currentThread = s.currentThread) (hs : s'.sleeping = s.sleeping) :
    FinishInv (tr ++ []) s' := by
  rcases h with ⟨hord, hnull, hphase⟩ | ⟨hord, hastray⟩
  · rw [List.append_nil]
    refine Or.inl ⟨hord, hnull, ?_⟩
    cases hphase with
    | clear h₁ h₂ h₃ h₄ h₅ => exact .clear (hp ▸ h₁) (hdel ▸ h₂) h₃ h₄ (hd ▸ h₅)
    | left t h₁ h₂ h₃ h₄ h₅ => exact .left t (hp ▸ h₁) (hdel ▸ h₂) h₃ h₄ (hd ▸ h₅)
    | deleting t h₁ h₂ h₃ h₄ h₅ h₆ h₇ h₈ =>
      refine .deleting t (hp ▸ h₁) (hd ▸ h₂) (hs ▸ h₃) ?_ ?_ h₆ h₇ (hd ▸ h₈)
      · rw [hdel, hc]
        exact h₄
      · rw [hdel, hc]
        exact h₅
    | asleep t h₁ h₂ h₃ h₄ h₅ =>
      refine .asleep t (hp ▸ h₁) (hd ▸ h₂) ?_ h₄ (hd ▸ h₅)
      rw [hs, hdel, hc]
      exact h₃
  · rw [List.append_nil]
    refine Or.inr ⟨hord, ?_⟩
    rw [← List.append_nil tr]
    exact hastray.append (hd.trans (List.append_nil _).symm)

/-- The processor goes to a ready thread, after the current thread has given it up in `s₁`. -/
theorem FinishInv.run {s₁ : Lifetimes T} (h : FinishInv tr s) (hresumable : Resumable s)
    (hrun : s₁.run t = some s') (hout : s.sleeping = true ∨ s.inDestructor = false)
    (hsw : s₁.switched t = s.switched t) (hd : s₁.destroyed = s.destroyed)
    (hp : s₁.threadToBeDestroyed = s.threadToBeDestroyed) (hdel : s₁.deleting = s.deleting) :
    FinishInv (tr ++ [s.runEvent t]) s' := by
  obtain ⟨destroyed, deleting, rfl, hcases⟩ := run_cases hrun
  rw [hsw, hd, hp, hdel] at hcases
  have hfin : finishedIn (tr ++ [s.runEvent t]) = finishedIn tr := by
    unfold runEvent
    rw [finishedIn_append]
    split <;> exact List.append_nil _
  have hne : ∀ u before, s.runEvent t ≠ .finished u before := by
    intro u before
    unfold runEvent
    split <;> exact fun h => nomatch h
  have hnot : ¬ ∃ u before, s.runEvent t = .finished u before := fun ⟨u, before, he⟩ =>
    hne u before he
  rcases h with ⟨hord, hnull, hphase⟩ | ⟨hord, hastray⟩
  · have hnull' : FinishNull (tr ++ [s.runEvent t]) :=
      finishNull_append.mpr ⟨hnull, fun u before he => absurd he (hne u before)⟩
    rcases hcases with ⟨hresumed, hnone, rfl, rfl⟩ | ⟨u, hresumed, hsome, rfl, rfl⟩ |
      ⟨hfresh, rfl, rfl⟩
    · -- nothing to delete
      have he : s.runEvent t = .resumed t := if_pos hresumed
      cases hphase with
      | clear _ hdel hun hsus hf =>
        refine Or.inl ⟨orderly_append.mpr ⟨hord, fun h => absurd h hnot, fun ⟨v, hv⟩ =>
          absurd hv (hsus v)⟩, hnull', .clear (hp.trans hnone) hdel ?_ (fun v hv => ?_)
          (hfin.trans hf)⟩
        · rw [unresumed_append hne]
          exact fun h => hun h.1
        · rw [he] at hv
          rcases List.mem_append.mp hv with hv | hv
          · exact hsus v hv
          · cases List.mem_singleton.mp hv
      | left v hv | deleting v hv | asleep v hv => cases hnone.symm.trans hv
    · have he : s.runEvent t = .resumed t := if_pos hresumed
      cases hphase with
      | clear hnone => cases hsome.symm.trans hnone
      | left v hv hdel hun hsus hf =>
        obtain rfl : u = v := Option.some.inj (hsome.symm.trans hv)
        refine Or.inl ⟨orderly_append.mpr ⟨hord, fun h => absurd h hnot, fun ⟨v, hv⟩ =>
          absurd hv (hsus v)⟩, hnull', .deleting u (hp.trans hsome)
          (List.mem_append_right _ (List.mem_singleton_self u)) rfl ?_ (fun v hv => ?_) ?_
          (fun v hv => ?_) (hfin.trans hf)⟩
        · refine (Function.update_self ..).trans ?_
          rw [hdel]
        · refine (Function.update_of_ne hv ..).trans ?_
          rw [hdel]
        · rw [unresumed_append hne, he]
          exact fun h => h.2 t rfl
        · rw [he] at hv
          rcases List.mem_append.mp hv with hv | hv
          · exact hsus v hv
          · cases List.mem_singleton.mp hv
      | deleting v _ _ hawake hdel =>
        -- the current thread is in the destructor, and cannot give up the processor
        rw [hawake, inDestructor_false, hdel] at hout
        rcases hout with hout | hout
        · cases hout
        · cases hout
      | asleep v hv hmem _ hsus hf =>
        -- the thread is deleted for the second time
        obtain rfl : u = v := Option.some.inj (hsome.symm.trans hv)
        refine Or.inr ⟨fun h => ?_, Or.inr fun hn => ?_⟩
        · obtain ⟨-, -, hharmless⟩ := orderly_append.mp h
          rw [he] at hharmless
          exact hharmless hsus trivial
        · exact (List.nodup_append.mp hn).2.2 u hmem u (List.mem_singleton_self u) rfl
    · have he : s.runEvent t = .started t := if_neg (Bool.eq_false_iff.mp hfresh)
      have hord' : Orderly (tr ++ [s.runEvent t]) := hord.harmless (he ▸ not_false)
      have hun : Unresumed (tr ++ [s.runEvent t]) ↔ Unresumed tr := by
        rw [unresumed_append hne, he]
        exact and_iff_left fun u h => nomatch h
      have hsus : ∀ v, .suspended v ∈ tr ++ [s.runEvent t] ↔ .suspended v ∈ tr := by
        intro v
        rw [he, List.mem_append, List.mem_singleton]
        exact or_iff_left fun h => nomatch h
      refine Or.inl ⟨hord', hnull', ?_⟩
      cases hphase with
      | clear hv hdel hun' hsus' hf =>
        exact .clear (hp.trans hv) hdel (mt hun.mp hun') (fun v => mt (hsus v).mp (hsus' v))
          (hfin.trans hf)
      | left v hv hdel hun' hsus' hf =>
        exact .left v (hp.trans hv) hdel (hun.mpr hun') (fun v => mt (hsus v).mp (hsus' v))
          (hfin.trans hf)
      | deleting v _ _ hawake hdel =>
        rw [hawake, inDestructor_false, hdel] at hout
        rcases hout with hout | hout
        · cases hout
        · cases hout
      | asleep v hv hmem _ hsus' hf =>
        refine .asleep v (hp.trans hv) hmem (fun _ => ?_) (hsus'.imp fun v => (hsus v).mpr)
          (hfin.trans hf)
        by_contra hin
        have := (hresumable t hin).2
        rw [hfresh] at this
        cases this
  · refine Or.inr ⟨fun h => hord (orderly_append.mp h).1, ?_⟩
    rcases hcases with ⟨-, -, rfl, -⟩ | ⟨u, -, -, rfl, -⟩ | ⟨-, rfl, -⟩
    · exact hastray.append (List.append_nil _).symm
    · exact hastray.append rfl
    · exact hastray.append (List.append_nil _).symm

/-- The current thread goes to sleep, in a destructor or not. -/
theorem FinishInv.sleep (h : FinishInv tr s) (hs : s.sleeping = false) :
    FinishInv (tr ++ s.emit .sleep) { s with
      status := Function.update s.status s.currentThread .blocked
      waiting := s.currentThread :: s.waiting
      sleeping := true } := by
  rcases h with ⟨hord, hnull, hphase⟩ | ⟨hord, hastray⟩
  · cases hin : s.inDestructor with
    | false =>
      have hdel := inDestructor_false.mp hin
      rw [show s.emit .sleep = [] by rw [emit, hin]; rfl, List.append_nil]
      refine Or.inl ⟨hord, hnull, ?_⟩
      cases hphase with
      | clear h₁ h₂ h₃ h₄ h₅ => exact .clear h₁ h₂ h₃ h₄ h₅
      | left t h₁ h₂ h₃ h₄ h₅ => exact .left t h₁ h₂ h₃ h₄ h₅
      | deleting t _ _ _ hdel' =>
        rw [hdel] at hdel'
        cases hdel'
      | asleep t h₁ h₂ _ h₄ h₅ => exact .asleep t h₁ h₂ (fun h => nomatch h) h₄ h₅
    | true =>
      have hdel : s.deleting s.currentThread ≠ [] := fun hnil => by
        rw [inDestructor_false.mpr hnil] at hin
        cases hin
      have he : s.emit .sleep = [.suspended s.currentThread] := by
        rw [emit, hin]
        rfl
      rw [he]
      refine Or.inl ⟨hord.harmless not_false, finishNull_append.mpr ⟨hnull, fun t before he =>
        nomatch he⟩, ?_⟩
      cases hphase with
      | clear _ hdel' | left _ _ hdel' => exact absurd (congrFun hdel' _) hdel
      | deleting t h₁ h₂ _ _ _ _ _ h₈ =>
        refine .asleep t h₁ h₂ (fun h => nomatch h)
          ⟨_, List.mem_append_right _ (List.mem_singleton_self _)⟩ ?_
        rw [finishedIn_append, h₈]
        exact List.append_nil _
      | asleep _ _ _ hdel' => exact absurd (hdel' hs) hdel
  · refine Or.inr ⟨fun h => hord ?_, hastray.append (List.append_nil _).symm⟩
    cases hin : s.inDestructor with
    | false => rwa [show s.emit .sleep = [] by rw [emit, hin]; rfl, List.append_nil] at h
    | true =>
      rw [show s.emit .sleep = [_] by rw [emit, hin]; rfl] at h
      exact (orderly_append.mp h).1

/-- The current thread finishes. -/
theorem FinishInv.finish (h : FinishInv tr s) (hout : s.inDestructor = false) :
    FinishInv (tr ++ [.finished s.currentThread s.threadToBeDestroyed]) { s with
      status := Function.update s.status s.currentThread .blocked
      threadToBeDestroyed := some s.currentThread
      sleeping := true } := by
  have hdel := inDestructor_false.mp hout
  rcases h with ⟨hord, hnull, hphase⟩ | ⟨hord, hastray⟩
  · -- a thread that finishes while another is still to be deleted
    have hlost : ∀ u, s.threadToBeDestroyed = some u →
        Astray (tr ++ [.finished s.currentThread s.threadToBeDestroyed]) { s with
          status := Function.update s.status s.currentThread .blocked
          threadToBeDestroyed := some s.currentThread
          sleeping := true } := by
      intro u hu
      refine Or.inl fun hn => ?_
      have := (finishNull_append.mp hn).2 _ _ rfl
      rw [hu] at this
      cases this
    cases hphase with
    | clear hnone hdel' hun hsus hf =>
      refine Or.inl ⟨orderly_append.mpr ⟨hord, fun _ => hun, fun ⟨u, hu⟩ => absurd hu (hsus u)⟩,
        finishNull_append.mpr ⟨hnull, fun t before he => ?_⟩,
        .left _ rfl hdel' unresumed_finished (fun u hu => ?_) ?_⟩
      · rw [← (Event.finished.inj he).2, hnone]
      · rcases List.mem_append.mp hu with hu | hu
        · exact hsus u hu
        · cases List.mem_singleton.mp hu
      · rw [finishedIn_append, hf]
        rfl
    | left u hu _ hun =>
      exact Or.inr ⟨fun h => (orderly_append.mp h).2.1 ⟨_, _, rfl⟩ hun, hlost u hu⟩
    | deleting u _ _ _ hdel' =>
      rw [hdel] at hdel'
      cases hdel'
    | asleep u hu _ _ hsus =>
      exact Or.inr ⟨fun h => (orderly_append.mp h).2.2 hsus trivial, hlost u hu⟩
  · exact Or.inr ⟨fun h => hord (orderly_append.mp h).1, hastray.append (List.append_nil _).symm⟩

/-- The destructor comes to its end. -/
theorem FinishInv.destructed (h : FinishInv tr s) (hs : s.sleeping = false)
    (hin : s.inDestructor = true) : FinishInv (tr ++ []) s.endDeletion := by
  have hdel : s.deleting s.currentThread ≠ [] := fun hnil => by
    rw [inDestructor_false.mpr hnil] at hin
    cases hin
  rw [List.append_nil]
  rcases h with ⟨hord, hnull, hphase⟩ | ⟨hord, hastray⟩
  · refine Or.inl ⟨hord, hnull, ?_⟩
    cases hphase with
    | clear _ hdel' | left _ _ hdel' => exact absurd (congrFun hdel' _) hdel
    | deleting t _ _ _ hown hothers hun hsus hf =>
      refine .clear rfl ?_ hun hsus hf
      funext u
      by_cases hu : u = s.currentThread
      · rw [hu]
        refine (Function.update_self ..).trans ?_
        rw [hown]
        rfl
      · exact (Function.update_of_ne hu ..).trans (hothers u hu)
    | asleep _ _ _ hdel' => exact absurd (hdel' hs) hdel
  · refine Or.inr ⟨hord, ?_⟩
    rw [← List.append_nil tr]
    exact hastray.append (List.append_nil _).symm

theorem FinishInv.step {a : Action T} (h : FinishInv tr s) (hresumable : Resumable s)
    (hstep : s.step a = some s') : FinishInv (tr ++ s.emit a) s' := by
  cases step_cases hstep with
  | construct t p hs hd ht he => exact he ▸ h.frame rfl rfl rfl rfl rfl
  | fork t hs hd ht hst he => exact he ▸ h.frame rfl rfl rfl rfl rfl
  | setPriority t p hs he => exact he ▸ h.frame rfl rfl rfl rfl rfl
  | alone hr he =>
    rw [show s.emit .yield = [] by rw [emit, hr]; rfl, he]
    exact h.frame rfl rfl rfl rfl rfl
  | yield e l hs hd hr hrun =>
    rw [show s.emit .yield = [s.runEvent e.item] by rw [emit, hr]; rfl]
    exact h.run hresumable hrun (Or.inr hd) rfl rfl rfl rfl
  | sleep hs he => exact he ▸ h.sleep hs
  | finish hs hd he => exact he ▸ h.finish hd
  | wake t ht he => exact he ▸ h.frame rfl rfl rfl rfl rfl
  | dispatch e l hs hr hrun =>
    rw [show s.emit .dispatch = [s.runEvent e.item] by rw [emit, hr]; rfl]
    exact h.run hresumable hrun (Or.inl hs) rfl rfl rfl rfl
  | destructed hs hd he => exact he ▸ h.destructed hs hd

end FinishSteps

section Runs
variable {multilevel : Bool} {data : ℤ → Option T} {main : T} {tr : List (Event T)}
  {s : Lifetimes T}

theorem Runs.placed (h : Runs multilevel data main tr s) : Placed (finishedIn tr) s := by
  refine Run.invariant (I := fun tr s => Placed (finishedIn tr) s) ?_ ?_ h
  · refine ⟨List.pairwise_singleton _ main, fun t ht => ht, fun t _ => ?_, fun t ht => ?_⟩
    · exact fun h => nomatch h
    · cases ht
  · exact fun tr s a s' hI _ hstep => hI.step hstep

theorem Runs.finishInv (h : Runs multilevel data main tr s) : FinishInv tr s := by
  refine (Run.invariant
    (I := fun tr s => Placed (finishedIn tr) s ∧ Resumable s ∧ FinishInv tr s) ?_ ?_ h).2.2
  · refine ⟨Runs.placed Run.start, fun u hu => absurd rfl hu, Or.inl ⟨orderly_nil, ?_, ?_⟩⟩
    · exact fun t before hm => absurd hm List.not_mem_nil
    · exact .clear rfl rfl not_unresumed_nil (fun u => List.not_mem_nil) rfl
  · rintro tr s a s' ⟨hp, hr, hI⟩ - hstep
    exact ⟨hp.step hstep, hr.step hp hstep, hI.step hr hstep⟩

/-- The assertion of `~Thread` holds: the thread that gets the processor is not the one to be
destroyed. -/
theorem Runs.dispatch_isSome (h : Runs multilevel data main tr s) (hs : s.sleeping = true)
    (hr : s.readyList ≠ []) : (s.step .dispatch).isSome := by
  obtain ⟨e, l, hel⟩ := List.exists_cons_of_ne_nil hr
  have hp := h.placed
  simp only [step, hs, if_true, hel, run]
  split
  · unfold deleteFinished
    split
    · rfl
    · rename_i t ht
      have hfin := hp.pending t ht
      have hnodup := hp.nodup
      rw [places_of_sleeping hs, ready, hel, List.map_cons, List.cons_append, List.nodup_cons]
        at hnodup
      rw [if_neg]
      · rfl
      · rintro rfl
        exact hnodup.1 (List.mem_append_right _ (List.mem_append_right _ hfin))
  · rfl

/-- **When every finished thread is destroyed once.**  In every run, threads that finish find
`threadToBeDestroyed` null, and the destructor of each of them has been called once or is the one
to be called next, exactly when between any two of them a thread that has run before got the
processor, and after a thread has gone to sleep in a destructor none finished and none came back
from `SWITCH`. -/
theorem finish_iff_orderly (h : Runs multilevel data main tr s) :
    (FinishNull tr ∧ finishedIn tr = s.destroyed ++ s.undeleted ∧ (finishedIn tr).Nodup) ↔
      Separated tr ∧ Undisturbed tr := by
  have hnodup : (finishedIn tr).Nodup := by
    have := h.placed.nodup
    rw [places, List.nodup_append, List.nodup_append, List.nodup_append] at this
    exact this.2.1.2.1.2.1
  rcases h.finishInv with ⟨hord, hnull, hphase⟩ | ⟨hord, hastray⟩
  · refine iff_of_true ⟨hnull, ?_, hnodup⟩ hord
    cases hphase with
    | clear hnone _ _ _ hf => rw [hf, undeleted, hnone, Option.toList_none, List.filter_nil,
        List.append_nil]
    | left t hsome _ _ _ hf =>
      have hnot : t ∉ s.destroyed := fun hmem => by
        rw [hf] at hnodup
        exact (List.nodup_append.mp hnodup).2.2 t hmem t (List.mem_singleton_self t) rfl
      rw [hf, undeleted, hsome, Option.toList_some, List.filter_cons_of_pos (by simpa using hnot),
        List.filter_nil]
    | deleting t hsome hmem _ _ _ _ _ hf | asleep t hsome hmem _ _ hf =>
      rw [hf, undeleted, hsome, Option.toList_some, List.filter_cons_of_neg (by simpa using hmem),
        List.filter_nil, List.append_nil]
  · refine iff_of_false (fun hgood => ?_) hord
    obtain ⟨hnull, hf, hnodup⟩ := hgood
    rcases hastray with hlost | htwice
    · exact hlost hnull
    · rw [hf] at hnodup
      exact htwice hnodup.of_append_left

end Runs

/-- The main thread, 0, forks 1 and 2 and yields; 1 finishes and 2, which starts then, too. -/
def twoFinish : List (Action ℕ) :=
  [.construct 1 0, .construct 2 0, .fork 1, .fork 2, .yield, .finish, .dispatch, .finish, .dispatch,
    .destructed]

/-- The thread 1 is never deleted. -/
theorem finished_forgotten : ∃ tr s, Runs false (fun _ => none) 0 tr s ∧
    .finished 2 (some 1) ∈ tr ∧ s.destroyed = [2] ∧ s.threadToBeDestroyed = none ∧
    ¬ FinishNull tr := by
  obtain ⟨r, hr⟩ : ∃ r, play step emit (initial false (fun _ => none) 0) twoFinish = some r :=
    ⟨_, rfl⟩
  have hrun : Runs false (fun _ => none) 0 r.1 r.2 := Run.start.play hr
  have hmem : .finished 2 (some 1) ∈ r.1 := by
    cases hr
    exact List.mem_cons_of_mem _
      (List.mem_cons_of_mem _ (List.mem_cons_of_mem _ List.mem_cons_self))
  refine ⟨r.1, r.2, hrun, hmem, ?_, ?_, fun hn => ?_⟩
  · cases hr
    rfl
  · cases hr
    rfl
  · cases hn 2 (some 1) hmem

/-- The main thread forks 1 and 2 and yields; 1 goes to sleep, 2 finishes, and the main thread goes
to sleep in its destructor; then 1 is woken and comes back from `SWITCH`. -/
def destructorSleeps : List (Action ℕ) :=
  [.construct 1 0, .construct 2 0, .fork 1, .fork 2, .yield, .sleep, .dispatch, .finish, .dispatch,
    .sleep, .wake 1, .dispatch]

/-- The thread 2 is deleted twice. -/
theorem finished_deleted_twice : ∃ tr s, Runs false (fun _ => none) 0 tr s ∧
    finishedIn tr = [2] ∧ Separated tr ∧ s.destroyed = [2, 2] := by
  obtain ⟨r, hr⟩ : ∃ r,
      play step emit (initial false (fun _ => none) 0) destructorSleeps = some r := ⟨_, rfl⟩
  refine ⟨r.1, r.2, Run.start.play hr, ?_, ?_, ?_⟩
  · cases hr
    rfl
  · have hfin : finishedIn r.1 = [2] := by
      cases hr
      rfl
    exact separated_of_length_le (hfin ▸ Nat.le_refl 1)
  · cases hr
    rfl

/-- The main thread forks 1 and yields, 1 finishes, and the main thread goes on and deletes it; then
the same with 2. -/
def twoApart : List (Action ℕ) :=
  [.construct 1 0, .fork 1, .yield, .finish, .dispatch, .destructed,
    .construct 2 0, .fork 2, .yield, .finish, .dispatch, .destructed]

theorem finish_iff_orderly_twoApart : ∃ tr s, Runs false (fun _ => none) 0 tr s ∧
    finishedIn tr = [1, 2] ∧ s.destroyed = [1, 2] ∧ s.threadToBeDestroyed = none ∧
    Separated tr ∧ Undisturbed tr := by
  obtain ⟨r, hr⟩ : ∃ r, play step emit (initial false (fun _ => none) 0) twoApart = some r :=
    ⟨_, rfl⟩
  have hrun : Runs false (fun _ => none) 0 r.1 r.2 := Run.start.play hr
  have hfin : finishedIn r.1 = [1, 2] := by
    cases hr
    rfl
  have hd : r.2.destroyed = [1, 2] ∧ r.2.threadToBeDestroyed = none := by
    cases hr
    exact ⟨rfl, rfl⟩
  have htr : r.1 = [.started 1, .finished 1 none, .resumed 0, .started 2, .finished 2 none,
      .resumed 0] := by
    cases hr
    rfl
  have hnull : FinishNull r.1 := by
    intro t before hm
    rw [htr] at hm
    simp only [List.mem_cons, reduceCtorEq, Event.finished.injEq, List.not_mem_nil, or_false,
      false_or] at hm
    rcases hm with hm | hm
    · exact hm.2
    · exact hm.2
  refine ⟨r.1, r.2, hrun, hfin, hd.1, hd.2, (finish_iff_orderly hrun).mp ⟨hnull, ?_, ?_⟩⟩
  · rw [hfin, undeleted, hd.1, hd.2]
    rfl
  · rw [hfin]
    decide

/-! ## The process table -/

/-- What is kept of `runningProcesses`: it lists the first threads constructed, by the order of
their construction, and the others have got the index `-1`. -/
structure Registered (s : Lifetimes T) : Prop where
  nodup : s.constructed.Nodup
  freed : s.runningProcesses.freed = []
  current : s.runningProcesses.current = min (s.constructed.length : ℤ) Table.size
  data : ∀ (i : ℕ) t, i < Table.size → s.constructed[i]? = some t →
    s.runningProcesses.data i = some t
  spaceId : ∀ (i : ℕ) t, s.constructed[i]? = some t →
    s.spaceId t = if (i : ℤ) < Table.size then (i : ℤ) else -1
  destroyed : ∀ t ∈ s.destroyed, t ∈ s.constructed

/-- **The table lists the live threads**: those constructed and not destroyed.  Then
what a key leads to is not a destroyed thread, and no two live threads have the same key. -/
structure ListsLive (s : Lifetimes T) : Prop where
  hasKey : ∀ id, s.runningProcesses.hasKey id = some true ↔
    ∃ t ∈ s.constructed, t ∉ s.destroyed ∧ s.spaceId t = id
  get : ∀ t ∈ s.constructed, t ∉ s.destroyed → s.runningProcesses.get (s.spaceId t) = some (some t)
  get_alive : ∀ id t, s.runningProcesses.get id = some (some t) → t ∉ s.destroyed
  unique : ∀ t ∈ s.constructed, ∀ u ∈ s.constructed, t ∉ s.destroyed → u ∉ s.destroyed →
    s.spaceId t = s.spaceId u → t = u

section Registered
variable {s s' : Lifetimes T} {t : T}

omit [DecidableEq T] in
/-- A step that constructs and destroys nothing. -/
theorem Registered.frame (h : Registered s) (hc : s'.constructed = s.constructed)
    (hr : s'.runningProcesses = s.runningProcesses) (hid : s'.spaceId = s.spaceId)
    (hd : ∀ t ∈ s'.destroyed, t ∈ s.constructed) : Registered s' where
  nodup := hc ▸ h.nodup
  freed := hr ▸ h.freed
  current := hc ▸ hr ▸ h.current
  data := hc ▸ hr ▸ h.data
  spaceId := hc ▸ hid ▸ h.spaceId
  destroyed := hc ▸ hd

omit [DecidableEq T] in
/-- `Add`, as long as nothing is removed. -/
theorem Registered.add_eq (h : Registered s) (o : Option T) :
    s.runningProcesses.add o = if (s.constructed.length : ℤ) < Table.size then
      ((s.constructed.length : ℤ), { s.runningProcesses with
        data := Function.update s.runningProcesses.data s.constructed.length o
        current := s.constructed.length + 1 })
    else (-1, s.runningProcesses) := by
  unfold Table.add
  rw [h.freed]
  simp only [LinkedList.sortedPop, h.current]
  by_cases hlt : (s.constructed.length : ℤ) < Table.size
  · rw [if_pos hlt, min_eq_left (Int.le_of_lt hlt), if_pos hlt, h.freed]
  · rw [if_neg hlt, min_eq_right (not_lt.mp hlt), if_neg (lt_irrefl _)]

theorem Registered.construct (h : Registered s) (ht : t ∉ s.constructed) (p : ℕ) :
    Registered (s.construct t p) := by
  have hget : ∀ (i : ℕ) u, (s.constructed ++ [t])[i]? = some u →
      s.constructed[i]? = some u ∧ u ≠ t ∧ i < s.constructed.length ∨
        i = s.constructed.length ∧ u = t := by
    intro i u hi
    rcases Nat.lt_or_ge i s.constructed.length with hlt | hge
    · rw [List.getElem?_append_left hlt] at hi
      exact Or.inl ⟨hi, fun heq => ht (heq ▸ List.mem_of_getElem? hi), hlt⟩
    · rw [List.getElem?_append_right hge, List.getElem?_singleton] at hi
      split at hi
      · exact Or.inr ⟨by omega, (Option.some.inj hi).symm⟩
      · cases hi
  have hadd := h.add_eq (some t)
  refine ⟨?_, ?_, ?_, fun i u hi hu => ?_, fun i u hu => ?_, fun u hu => ?_⟩
  · refine List.nodup_append.mpr ⟨h.nodup, List.pairwise_singleton _ t, ?_⟩
    rintro u hu v hv rfl
    exact ht (List.mem_singleton.mp hv ▸ hu)
  · show (s.runningProcesses.add (some t)).2.freed = []
    rw [hadd]
    split <;> exact h.freed
  · show (s.runningProcesses.add (some t)).2.current = min ((s.constructed ++ [t]).length : ℤ) _
    rw [hadd, List.length_append, List.length_singleton]
    have := h.current
    split
    · push_cast
      exact (min_eq_left (by omega)).symm
    · push_cast
      rw [this, min_eq_right (by omega), min_eq_right (by omega)]
  · show (s.runningProcesses.add (some t)).2.data i = some u
    rw [hadd]
    rcases hget i u hu with ⟨hu', -, hlt⟩ | ⟨rfl, rfl⟩
    · have hdata := h.data i u hi hu'
      split
      · exact (Function.update_of_ne (by omega) ..).trans hdata
      · exact hdata
    · rw [if_pos hi]
      exact Function.update_self ..
  · show Function.update s.spaceId t (s.runningProcesses.add (some t)).1 u = _
    rcases hget i u hu with ⟨hu', hne, hlt⟩ | ⟨rfl, rfl⟩
    · rw [Function.update_of_ne hne]
      exact h.spaceId i u hu'
    · rw [Function.update_self, hadd]
      split <;> rfl
  · exact List.mem_append_left _ (h.destroyed u hu)

theorem Registered.run {s₁ : Lifetimes T} (h : Registered s) (hrun : s₁.run t = some s')
    (hc : s₁.constructed = s.constructed) (hr : s₁.runningProcesses = s.runningProcesses)
    (hid : s₁.spaceId = s.spaceId) (hd : s₁.destroyed = s.destroyed)
    (hp : ∀ t ∈ s₁.threadToBeDestroyed, t ∈ s.constructed) : Registered s' := by
  obtain ⟨destroyed, deleting, rfl, hcases⟩ := run_cases hrun
  refine h.frame hc hr hid fun u hu => ?_
  rcases hcases with ⟨-, -, rfl, -⟩ | ⟨v, -, hv, rfl, -⟩ | ⟨-, rfl, -⟩
  · exact h.destroyed u (hd ▸ hu)
  · rcases List.mem_append.mp hu with hu | hu
    · exact h.destroyed u (hd ▸ hu)
    · rw [List.mem_singleton.mp hu]
      exact hp v hv
  · exact h.destroyed u (hd ▸ hu)

theorem Registered.step {finished : List T} {a : Action T} (h : Registered s)
    (hplaced : Placed finished s) (hstep : s.step a = some s') : Registered s' := by
  have hp : ∀ t ∈ s.threadToBeDestroyed, t ∈ s.constructed := by
    intro t ht
    refine hplaced.constructed t ?_
    unfold places
    simp [hplaced.pending t ht]
  cases step_cases hstep with
  | construct t p hs hd ht he => exact he ▸ h.construct ht p
  | yield e l hs hd hr hrun => exact h.run hrun rfl rfl rfl rfl hp
  | dispatch e l hs hr hrun => exact h.run hrun rfl rfl rfl rfl hp
  | fork | setPriority | alone | sleep | finish | wake | destructed =>
    rename_i he
    rw [he]
    exact h.frame rfl rfl rfl h.destroyed

omit [DecidableEq T] in
/-- The keys are those of the threads constructed first. -/
theorem Registered.hasKey_iff (h : Registered s) (id : ℤ) :
    s.runningProcesses.hasKey id = some true ↔
      ∃ (i : ℕ) (t : T), s.constructed[i]? = some t ∧ (i : ℤ) < Table.size ∧ id = i := by
  have hcur := h.current
  have hocc : s.runningProcesses.occupied id = decide (id < s.runningProcesses.current) := by
    rw [Table.occupied, h.freed]
    exact Bool.and_true _
  unfold Table.hasKey
  rw [hocc]
  constructor
  · intro hk
    obtain ⟨h0, hk⟩ := Option.ite_none_right_eq_some.mp hk
    have hlt := of_decide_eq_true (Option.some.inj hk)
    have hlen : id.toNat < s.constructed.length := by omega
    exact ⟨id.toNat, s.constructed[id.toNat], List.getElem?_eq_getElem hlen, by omega, by omega⟩
  · rintro ⟨i, t, hi, hsize, rfl⟩
    have hlen := (List.getElem?_eq_some_iff.mp hi).1
    rw [if_pos (Int.natCast_nonneg i), decide_eq_true (by omega)]

omit [DecidableEq T] in
theorem Registered.get_eq (h : Registered s) {i : ℕ} (hi : s.constructed[i]? = some t)
    (hsize : (i : ℤ) < Table.size) : s.runningProcesses.get i = some (some t) := by
  have hk := (h.hasKey_iff i).mpr ⟨i, t, hi, hsize, rfl⟩
  unfold Table.hasKey at hk
  obtain ⟨h0, hk⟩ := Option.ite_none_right_eq_some.mp hk
  rw [Table.get, if_pos h0, if_pos (Option.some.inj hk), h.data i t hsize hi]

omit [DecidableEq T] in
/-- The first threads constructed. -/
theorem mem_take_iff {l : List T} (hl : l.Nodup) {i : ℕ} (hi : l[i]? = some t) :
    t ∈ l.take Table.size.toNat ↔ (i : ℤ) < Table.size := by
  obtain ⟨hlen, hget⟩ := List.getElem?_eq_some_iff.mp hi
  have hsize : (Table.size.toNat : ℤ) = Table.size := rfl
  constructor
  · intro hm
    obtain ⟨j, hj, hjt⟩ := List.mem_iff_getElem.mp hm
    rw [List.getElem_take] at hjt
    rw [List.length_take] at hj
    have : j = i := hl.getElem_inj_iff.mp (hjt.trans hget.symm)
    omega
  · intro hlt
    rw [← hget]
    exact List.mem_take_iff_getElem.mpr ⟨i, by omega, rfl⟩

end Registered

section Live
variable {multilevel : Bool} {data : ℤ → Option T} {main : T} {tr : List (Event T)}
  {s : Lifetimes T}

theorem Runs.registered (h : Runs multilevel data main tr s) : Registered s := by
  refine (Run.invariant (I := fun tr s => Placed (finishedIn tr) s ∧ Registered s) ?_ ?_ h).2
  · refine ⟨Runs.placed Run.start, ?_⟩
    have hone : (1 : ℤ) ≤ Table.size := by decide
    refine ⟨List.pairwise_singleton _ main, rfl, (min_eq_left hone).symm, fun i t _ hi => ?_,
      fun i t hi => ?_, fun t ht => absurd ht List.not_mem_nil⟩
    all_goals
      simp only [initial, List.getElem?_singleton] at hi
      split at hi
      · rename_i h0
        subst h0
        cases hi
        rfl
      · cases hi
  · rintro tr s a s' ⟨hp, hr⟩ - hstep
    exact ⟨hp.step hstep, hr.step hp hstep⟩

/-- **When the table lists the live threads.**  In every state reached, exactly when none of
the first 1000 threads constructed has been destroyed, and every other thread has. -/
theorem listsLive_iff (h : Runs multilevel data main tr s) :
    ListsLive s ↔ ∀ t ∈ s.constructed,
      (t ∈ s.destroyed ↔ t ∉ s.constructed.take Table.size.toNat) := by
  have hR := h.registered
  constructor
  · intro hL t ht
    obtain ⟨i, hi⟩ := List.mem_iff_getElem?.mp ht
    rw [mem_take_iff hR.nodup hi]
    by_cases hsize : (i : ℤ) < Table.size
    · exact iff_of_false (hL.get_alive i t (hR.get_eq hi hsize)) fun hn => hn hsize
    · refine iff_of_true ?_ hsize
      -- a live thread without a key would have to be found under `-1`
      by_contra hlive
      have hget := hL.get t ht hlive
      rw [hR.spaceId i t hi, if_neg hsize] at hget
      cases hget
  · intro hcond
    have hlive : ∀ t ∈ s.constructed, t ∉ s.destroyed → ∃ i : ℕ, s.constructed[i]? = some t ∧
        (i : ℤ) < Table.size ∧ s.spaceId t = i := by
      intro t ht hd
      obtain ⟨i, hi⟩ := List.mem_iff_getElem?.mp ht
      have hsize : (i : ℤ) < Table.size := by
        by_contra hsize
        exact hd ((hcond t ht).mpr fun hm => hsize ((mem_take_iff hR.nodup hi).mp hm))
      exact ⟨i, hi, hsize, (hR.spaceId i t hi).trans (if_pos hsize)⟩
    have hfirst : ∀ (i : ℕ) t, s.constructed[i]? = some t → (i : ℤ) < Table.size →
        t ∈ s.constructed ∧ t ∉ s.destroyed := by
      intro i t hi hsize
      have ht := List.mem_of_getElem? hi
      exact ⟨ht, fun hd => (hcond t ht).mp hd ((mem_take_iff hR.nodup hi).mpr hsize)⟩
    have hget : ∀ t ∈ s.constructed, t ∉ s.destroyed →
        s.runningProcesses.get (s.spaceId t) = some (some t) := by
      intro t ht hd
      obtain ⟨i, hi, hsize, hid⟩ := hlive t ht hd
      rw [hid, hR.get_eq hi hsize]
    refine ⟨fun id => ?_, hget, fun id t hk => ?_, fun t ht u hu hdt hdu heq => ?_⟩
    · rw [hR.hasKey_iff id]
      constructor
      · rintro ⟨i, t, hi, hsize, rfl⟩
        obtain ⟨ht, hd⟩ := hfirst i t hi hsize
        exact ⟨t, ht, hd, (hR.spaceId i t hi).trans (if_pos hsize)⟩
      · rintro ⟨t, ht, hd, rfl⟩
        exact (hlive t ht hd).imp fun i ⟨hi, hsize, hid⟩ => ⟨t, hi, hsize, hid⟩
    · -- an index that holds a thread has a key
      have hkey : s.runningProcesses.hasKey id = some true := by
        unfold Table.get at hk
        obtain ⟨h0, hk⟩ := Option.ite_none_right_eq_some.mp hk
        split at hk
        · rename_i hocc
          rw [Table.hasKey, if_pos h0, hocc]
        · cases hk
      obtain ⟨i, u, hi, hsize, rfl⟩ := (hR.hasKey_iff id).mp hkey
      rw [hR.get_eq hi hsize] at hk
      cases hk
      exact (hfirst i t hi hsize).2
    · have := (hget t ht hdt).symm.trans (heq ▸ hget u hu hdu)
      exact Option.some.inj (Option.some.inj this)

end Live

/-- A thread that is gone and still listed: the key of thread 1, after it has finished and
has been destroyed. -/
theorem destroyed_still_listed : ∃ tr s, Runs false (fun _ => none) 0 tr s ∧
    s.runningProcesses.hasKey 1 = some true ∧ s.runningProcesses.get 1 = some (some 1) ∧
    1 ∈ s.destroyed ∧ ¬ ListsLive s := by
  obtain ⟨r, hr⟩ : ∃ r, play step emit (initial false (fun _ => none) 0) twoApart = some r :=
    ⟨_, rfl⟩
  have hrun : Runs false (fun _ => none) 0 r.1 r.2 := Run.start.play hr
  have hd : 1 ∈ r.2.destroyed := by
    cases hr
    exact List.mem_cons_self
  have hget : r.2.runningProcesses.get 1 = some (some 1) := by
    cases hr
    rfl
  refine ⟨r.1, r.2, hrun, ?_, hget, hd, fun hL => hL.get_alive 1 1 hget hd⟩
  cases hr
  rfl

/-- The main thread and one more, which has been forked. -/
def oneForked : List (Action ℕ) := [.construct 1 0, .fork 1]

theorem listsLive_iff_oneForked : ∃ tr s, Runs false (fun _ => none) 0 tr s ∧
    s.constructed = [0, 1] ∧ ListsLive s := by
  obtain ⟨r, hr⟩ : ∃ r, play step emit (initial false (fun _ => none) 0) oneForked = some r :=
    ⟨_, rfl⟩
  have hrun : Runs false (fun _ => none) 0 r.1 r.2 := Run.start.play hr
  have hc : r.2.constructed = [0, 1] := by
    cases hr
    rfl
  have hd : r.2.destroyed = [] := by
    cases hr
    rfl
  refine ⟨r.1, r.2, hrun, hc, (listsLive_iff hrun).mpr fun t ht => ?_⟩
  rw [hd, hc] at *
  exact iff_of_false List.not_mem_nil fun hn => hn ht

end Lifetimes
end PaldOs
