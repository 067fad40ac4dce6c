import PaldOs.DiskLayout
import PaldOs.LockExclusion

/-! # The synchronous disk

The disk of `machine/disk.cc` takes one request at a time: it transfers the sector,
is `active`, and interrupts later.  `SynchDisk` of `filesys/synch_disk.cc` makes it
synchronous with a lock around each request and a semaphore on which the caller
waits for the interrupt.  Here the threads of the kernel call `ReadSector` and
`WriteSector` on one such disk; each accepted request leaves one interrupt pending,
and a pending interrupt can come at any time.

What the disk is for is said by two relations on what is recorded of a run.
`Progress` follows the calls of one thread: each is accepted once, with the request
it was made for, then the interrupt of that request is handled, and only then does
the call return.  `Serial` follows the disk: the requests are transferred one after
the other, each to the interrupt, and what is read is what the transfers before it
have left.

The invariant relates the owner of the lock, the value of the semaphore, the pending
interrupts and `active`: only the owner can be between the request and the end of its
`P`, and there either the interrupt is pending, or its `V` has been done and the unit
is still to be taken, or it has been taken.
-/
namespace PaldOs

/-- A call of `ReadSector` or of `WriteSector`, with the bytes to be written. -/
inductive Transfer where
  | read (sectorNumber : ℕ)
  | write (sectorNumber : ℕ) (data : Sector)

namespace Transfer

def sectorNumber : Transfer → ℕ
  | .read i => i
  | .write i _ => i

/-- The disk after the transfer. -/
def apply (disk : ℕ → Sector) : Transfer → ℕ → Sector
  | .read _ => disk
  | .write i data => Function.update disk i data

end Transfer

/-- Where a thread is in `ReadSector` or `WriteSector`: in `lock->Acquire()`, in
`semaphore->P()` for its request, numbered `n`, or in `lock->Release()`. -/
inductive Phase where
  | outside
  | acquiring (r : Transfer)
  | waiting (n : ℕ)
  | releasing (n : ℕ)

/-- The threads and the disk.  `pending` are the numbers of the requests whose
interrupt has not come yet. -/
structure SynchDisk (T : Type) where
  kernel : Kernel T
  disk : ℕ → Sector
  active : Bool
  pending : List ℕ
  nextRequest : ℕ
  phase : T → Phase

namespace SynchDisk
variable {T : Type} [DecidableEq T]

/-- `lock`. -/
def diskLock : LockId := .user 0

/-- `semaphore`. -/
def diskSemaphore : SemId := .user 0

/-- `Disk::ReadRequest` and `Disk::WriteRequest`, called by `t`; `none` is a failed
assertion. -/
def request (s : SynchDisk T) (t : T) (r : Transfer) : Option (SynchDisk T) :=
  if s.active = true then none
  else if r.sectorNumber < numSectors then
    some { s with
      disk := r.apply s.disk
      active := true
      pending := s.pending ++ [s.nextRequest]
      nextRequest := s.nextRequest + 1
      phase := Function.update s.phase t (.waiting s.nextRequest) }
  else none

/-- `Disk::HandleInterrupt` for request `n`: the handler, `RequestDone`, does the `V`
and nothing else, in no thread of its own. -/
def handleInterrupt (s : SynchDisk T) (n : ℕ) : SynchDisk T :=
  { s with
    active := false
    pending := s.pending.erase n
    kernel := { s.kernel.wake diskSemaphore with
      value := Function.update s.kernel.value diskSemaphore (s.kernel.value diskSemaphore + 1) } }

/-- What can happen next. -/
inductive Action (T : Type) where
  /-- The running thread calls `ReadSector` or `WriteSector`. -/
  | call (r : Transfer)
  /-- The running thread executes an instruction of the lock or the semaphore. -/
  | run
  /-- The running thread yields the processor. -/
  | yield
  /-- A ready thread gets the processor. -/
  | dispatch (t : T)
  /-- The running thread, back from the lock or the semaphore, goes on in
  `ReadSector` or `WriteSector`. -/
  | proceed
  /-- The interrupt of a request comes. -/
  | interrupt (n : ℕ)

/-- **One step of the threads and the disk.** -/
def step (s : SynchDisk T) : Action T → Option (SynchDisk T)
  | .call r => do
      let t ← s.kernel.currentThread
      match s.phase t with
      | .outside => do
          let k ← s.kernel.step (.call (.acquire 0))
          some { s with kernel := k, phase := Function.update s.phase t (.acquiring r) }
      | _ => none
  | .run => do
      let k ← s.kernel.step .run
      some { s with kernel := k }
  | .yield => do
      let k ← s.kernel.step .yield
      some { s with kernel := k }
  | .dispatch t => do
      let k ← s.kernel.step (.dispatch t)
      some { s with kernel := k }
  | .proceed => do
      let t ← s.kernel.currentThread
      if s.kernel.code t = [] then
        match s.phase t with
        | .outside => none
        | .acquiring r => do
            let s' ← s.request t r
            let k ← s.kernel.step (.call (.p 0))
            some { s' with kernel := k }
        | .waiting n => do
            let k ← s.kernel.step (.call (.release 0))
            some { s with kernel := k, phase := Function.update s.phase t (.releasing n) }
        | .releasing _ => some { s with phase := Function.update s.phase t .outside }
      else none
  | .interrupt n => if n ∈ s.pending then some (s.handleInterrupt n) else none

/-- The start: `SynchDisk::SynchDisk` over a disk with the given contents. -/
def initial (multilevel : Bool) (priority : T → ℕ) (ready : List T) (disk : ℕ → Sector) :
    SynchDisk T where
  kernel := .initial multilevel (fun _ => 0) priority ready
  disk := disk
  active := false
  pending := []
  nextRequest := 0
  phase _ := .outside

/-- What is recorded of a run: a call; a request accepted by the disk, with the
contents of its sector after the transfer; an interrupt handled; a return. -/
inductive DiskEvent (T : Type) where
  | called (t : T) (r : Transfer)
  | accepted (n : ℕ) (t : T) (r : Transfer) (data : Sector)
  | handled (n : ℕ)
  | returned (t : T) (n : ℕ)

/-- The events of an action. -/
def emit (s : SynchDisk T) : Action T → List (DiskEvent T)
  | .call r =>
      match s.kernel.currentThread with
      | none => []
      | some t => [.called t r]
  | .proceed =>
      match s.kernel.currentThread with
      | none => []
      | some t =>
        match s.phase t with
        | .acquiring r => [.accepted s.nextRequest t r (r.apply s.disk r.sectorNumber)]
        | .releasing n => [.returned t n]
        | _ => []
  | .interrupt n => [.handled n]
  | _ => []

/-- The runs. -/
def Runs (start : SynchDisk T) : List (DiskEvent T) → SynchDisk T → Prop :=
  Run step emit (fun _ _ _ => True) start

/-! ## What the synchronous disk is for -/

/-- How far the call of a thread is. -/
inductive Status where
  | idle
  | asked (r : Transfer)
  | requested (n : ℕ)
  | done (n : ℕ)

/-- Whether an event is a step of `t`'s call, being at `p`. -/
def DiskEvent.concerns (t : T) (p : Status) : DiskEvent T → Prop
  | .called u _ => u = t
  | .accepted _ u _ _ => u = t
  | .handled n => p = .requested n
  | .returned u _ => u = t

/-- **The calls of a thread**: one after the other; each is accepted once, with its own
transfer, and returns when the interrupt of that request has been handled. -/
inductive Progress (t : T) : List (DiskEvent T) → Status → Prop
  | start : Progress t [] .idle
  | called {tr : List (DiskEvent T)} (r : Transfer) : Progress t tr .idle →
      Progress t (tr ++ [.called t r]) (.asked r)
  | accepted {tr : List (DiskEvent T)} {r : Transfer} (n : ℕ) (data : Sector) :
      Progress t tr (.asked r) → Progress t (tr ++ [.accepted n t r data]) (.requested n)
  | handled {tr : List (DiskEvent T)} {n : ℕ} : Progress t tr (.requested n) →
      Progress t (tr ++ [.handled n]) (.done n)
  | returned {tr : List (DiskEvent T)} {n : ℕ} : Progress t tr (.done n) →
      Progress t (tr ++ [.returned t n]) .idle
  | other {tr : List (DiskEvent T)} {p : Status} {e : DiskEvent T} : Progress t tr p →
      ¬ e.concerns t p → Progress t (tr ++ [e]) p

/-- **The transfers, one after the other**: after the events, `n` requests have been
handled, `busy` tells whether one more has been accepted, and `disk` is what the
transfers have left of the first contents. -/
inductive Serial (disk₀ : ℕ → Sector) :
    List (DiskEvent T) → ℕ → Bool → (ℕ → Sector) → Prop
  | start : Serial disk₀ [] 0 false disk₀
  | accepted {tr : List (DiskEvent T)} {n : ℕ} {disk : ℕ → Sector} (t : T) (r : Transfer) :
      Serial disk₀ tr n false disk →
      Serial disk₀ (tr ++ [.accepted n t r (r.apply disk r.sectorNumber)]) n true (r.apply disk)
  | handled {tr : List (DiskEvent T)} {n : ℕ} {disk : ℕ → Sector} :
      Serial disk₀ tr n true disk → Serial disk₀ (tr ++ [.handled n]) (n + 1) false disk
  | called {tr : List (DiskEvent T)} {n : ℕ} {busy : Bool} {disk : ℕ → Sector} (t : T)
      (r : Transfer) :
      Serial disk₀ tr n busy disk → Serial disk₀ (tr ++ [.called t r]) n busy disk
  | returned {tr : List (DiskEvent T)} {n : ℕ} {busy : Bool} {disk : ℕ → Sector} (t : T) (m : ℕ) :
      Serial disk₀ tr n busy disk → Serial disk₀ (tr ++ [.returned t m]) n busy disk

/-- **The protocol works**: whoever is about to make a request finds the disk not
active; a call returns after its request has been accepted and its interrupt handled;
the calls of each thread and the transfers of the disk are as they should be. -/
structure Synchronous (disk₀ : ℕ → Sector) (tr : List (DiskEvent T)) (s : SynchDisk T) : Prop where
  notActive : ∀ t r, s.phase t = .acquiring r → s.kernel.code t = [] → s.active = false
  afterInterrupt : ∀ t n es rest, tr = es ++ .returned t n :: rest →
    ∃ r data before between after,
      es = before ++ .accepted n t r data :: between ++ .handled n :: after
  calls : ∀ t, ∃ p, Progress t tr p
  serial : ∃ n, Serial disk₀ tr n s.active s.disk


/-! ## Returns -/

omit [DecidableEq T] in
/-- A thread that waits has had its request accepted, and the interrupt handled after
that if it is done. -/
theorem Progress.past {t : T} {tr : List (DiskEvent T)} {p : Status} (h : Progress t tr p) :
    (∀ n, p = .requested n → ∃ r data before after,
      tr = before ++ .accepted n t r data :: after) ∧
    ∀ n, p = .done n → ∃ r data before between after,
      tr = before ++ .accepted n t r data :: between ++ .handled n :: after := by
  induction h with
  | start | called | returned => exact ⟨fun _ h => (nomatch h), fun _ h => (nomatch h)⟩
  | accepted n data _ _ =>
    refine ⟨fun m hm => ?_, fun _ h => (nomatch h)⟩
    cases hm
    exact ⟨_, _, _, [], rfl⟩
  | handled _ ih =>
    refine ⟨fun _ h => (nomatch h), fun m hm => ?_⟩
    cases hm
    obtain ⟨r, data, before, after, rfl⟩ := ih.1 _ rfl
    exact ⟨r, data, before, after, [], by simp⟩
  | @other _ _ e _ _ ih =>
    refine ⟨fun n hn => ?_, fun n hn => ?_⟩
    · obtain ⟨r, data, before, after, rfl⟩ := ih.1 n hn
      exact ⟨r, data, before, after ++ [e], by simp⟩
    · obtain ⟨r, data, before, between, after, rfl⟩ := ih.2 n hn
      exact ⟨r, data, before, between, after ++ [e], by simp⟩

/-- An event of a record is the last one or stands before it. -/
theorem append_singleton_eq {ε : Type} {tr es rest : List ε} {e e' : ε}
    (h : tr ++ [e] = es ++ e' :: rest) :
    (∃ rest', tr = es ++ e' :: rest') ∨ (tr = es ∧ e = e') := by
  rcases List.eq_nil_or_concat rest with rfl | ⟨rest', x, rfl⟩
  · obtain ⟨h₁, h₂⟩ := List.append_inj' h rfl
    exact Or.inr ⟨h₁, List.singleton_inj.mp h₂⟩
  · rw [List.concat_eq_append, ← List.cons_append, ← List.append_assoc] at h
    exact Or.inl ⟨rest', (List.append_inj' h rfl).1⟩

omit [DecidableEq T] in
/-- **A call returns after the interrupt of its own request.** -/
theorem Progress.afterInterrupt {t : T} {tr : List (DiskEvent T)} {p : Status}
    (h : Progress t tr p) {n : ℕ} {es rest : List (DiskEvent T)}
    (htr : tr = es ++ .returned t n :: rest) :
    ∃ r data before between after,
      es = before ++ .accepted n t r data :: between ++ .handled n :: after := by
  induction h generalizing rest with
  | start => simp at htr
  | called r _ ih | accepted m data _ ih | handled _ ih =>
    rcases append_singleton_eq htr with ⟨rest', h'⟩ | ⟨-, he⟩
    · exact ih h'
    · cases he
  | returned hp ih =>
    rcases append_singleton_eq htr with ⟨rest', h'⟩ | ⟨rfl, he⟩
    · exact ih h'
    · cases he
      exact hp.past.2 n rfl
  | other _ hne ih =>
    rcases append_singleton_eq htr with ⟨rest', h'⟩ | ⟨-, rfl⟩
    · exact ih h'
    · exact absurd rfl hne

/-! ## The instructions of the lock and the semaphore -/

/-- What an instruction of the lock or the semaphore does to the code of its thread, to the
owner of the lock and to the value of the semaphore. -/
inductive Executed (k k' : Kernel T) (t : T) : List Instr → List Instr → Prop
  | quiet {i : Instr} {is : List Instr} :
      (i = .acquire diskLock ∧ k.lockOwner diskLock ≠ some t ∧ is = [.acquireP diskLock]) ∨
        (i = .acquireP diskLock ∧ (is = [i] ∨ is = [.setOwner diskLock])) ∨
        (i = .p diskSemaphore ∧ k.value diskSemaphore = 0 ∧ is = [i]) ∨
        (i = .releaseV diskLock ∧ is = []) →
      k'.lockOwner diskLock = k.lockOwner diskLock →
      k'.value diskSemaphore = k.value diskSemaphore → Executed k k' t [i] is
  | setOwner : k'.lockOwner diskLock = some t →
      k'.value diskSemaphore = k.value diskSemaphore → Executed k k' t [.setOwner diskLock] []
  | p : k'.lockOwner diskLock = k.lockOwner diskLock → k.value diskSemaphore ≠ 0 →
      k'.value diskSemaphore = k.value diskSemaphore - 1 → Executed k k' t [.p diskSemaphore] []
  | release : k.lockOwner diskLock = some t → k'.lockOwner diskLock = none →
      k'.value diskSemaphore = k.value diskSemaphore →
      Executed k k' t [.release diskLock] [.releaseV diskLock]

/-- The code a thread can have. -/
def Code : Phase → List Instr → Prop
  | .outside, is => is = []
  | .acquiring _, is => is = [.acquire diskLock] ∨ is = [.acquireP diskLock] ∨
      is = [.setOwner diskLock] ∨ is = []
  | .waiting _, is => is = [.p diskSemaphore] ∨ is = []
  | .releasing _, is => is = [.release diskLock] ∨ is = [.releaseV diskLock] ∨ is = []

/-- Whether the thread owns the lock. -/
def Owns : Phase → List Instr → Prop
  | .outside, _ => False
  | .acquiring _, is => is = []
  | .waiting _, _ => True
  | .releasing _, is => is = [.release diskLock]

theorem Code.acquiring {p : Phase} (h : Code p [.setOwner diskLock]) :
    ∃ r, p = .acquiring r := by
  cases p with
  | outside => cases h
  | acquiring r => exact ⟨r, rfl⟩
  | waiting n => rcases h with h | h <;> cases h
  | releasing n => rcases h with h | h | h <;> cases h

theorem Code.waiting {p : Phase} (h : Code p [.p diskSemaphore]) : ∃ n, p = .waiting n := by
  cases p with
  | outside => cases h
  | acquiring r => rcases h with h | h | h | h <;> cases h
  | waiting n => exact ⟨n, rfl⟩
  | releasing n => rcases h with h | h | h <;> cases h

theorem Code.releasing {p : Phase} (h : Code p [.release diskLock]) :
    ∃ n, p = .releasing n := by
  cases p with
  | outside => cases h
  | acquiring r => rcases h with h | h | h | h <;> cases h
  | waiting n => rcases h with h | h <;> cases h
  | releasing n => exact ⟨n, rfl⟩

/-- One instruction of the lock or the semaphore. -/
theorem executed {k k' : Kernel T} {t : T} {p : Phase} {i : Instr} {rest : List Instr}
    (hp : Code p (i :: rest)) (hc : k.code t = i :: rest) (he : k.exec t rest i = some k') :
    ∃ is, k'.code = Function.update k.code t is ∧ Executed k k' t (i :: rest) is := by
  have hshape : rest = [] ∧ (i = .acquire diskLock ∨ i = .acquireP diskLock ∨
      i = .setOwner diskLock ∨ i = .p diskSemaphore ∨ i = .release diskLock ∨
      i = .releaseV diskLock) := by
    cases p <;> simp only [Code, List.cons.injEq, reduceCtorEq, or_false] at hp
    · rcases hp with ⟨rfl, rfl⟩ | ⟨rfl, rfl⟩ | ⟨rfl, rfl⟩ <;> simp
    · obtain ⟨rfl, rfl⟩ := hp
      simp
    · rcases hp with ⟨rfl, rfl⟩ | ⟨rfl, rfl⟩ <;> simp
  obtain ⟨rfl, hi⟩ := hshape
  have hstays : k.code = Function.update k.code t [i] := by rw [← hc, Function.update_eq_self]
  have hsem : diskSemaphore ≠ .lock diskLock := by decide
  rcases hi with rfl | rfl | rfl | rfl | rfl | rfl
  · simp only [Kernel.exec] at he
    split at he
    · cases he
    · rename_i hno
      obtain ⟨o, q, r, hin, -⟩ := k.inherit_eq t diskLock
      rw [hin] at he
      rw [← Option.some.inj he]
      exact ⟨_, rfl, .quiet (Or.inl ⟨rfl, hno, rfl⟩) rfl rfl⟩
  · rw [← Option.some.inj he]
    unfold Kernel.semaphoreP
    split
    · exact ⟨_, hstays, .quiet (Or.inr (Or.inl ⟨rfl, Or.inl rfl⟩)) rfl rfl⟩
    · exact ⟨_, rfl, .quiet (Or.inr (Or.inl ⟨rfl, Or.inr rfl⟩)) rfl (by simp [hsem])⟩
  · rw [← Option.some.inj he]
    exact ⟨_, rfl, .setOwner (by simp) rfl⟩
  · rw [← Option.some.inj he]
    unfold Kernel.semaphoreP
    split
    · rename_i hzero
      exact ⟨_, hstays, .quiet (Or.inr (Or.inr (Or.inl ⟨rfl, hzero, rfl⟩))) rfl rfl⟩
    · rename_i hpos
      exact ⟨_, rfl, .p rfl hpos (by simp)⟩
  · simp only [Kernel.exec] at he
    split at he
    · rename_i howner
      obtain ⟨q, r, hd, -⟩ := Kernel.disinherit_eq
        { k with lockOwner := Function.update k.lockOwner diskLock none } t diskLock
      rw [hd] at he
      rw [← Option.some.inj he]
      exact ⟨_, rfl, .release howner (by simp) rfl⟩
    · cases he
  · rw [← Option.some.inj he]
    unfold Kernel.semaphoreV
    rcases k.wake_eq (.lock diskLock) with ⟨-, hw⟩ | ⟨u, q, r, -, hw, -⟩ <;> rw [hw] <;>
      exact ⟨_, rfl, .quiet (Or.inr (Or.inr (Or.inr ⟨rfl, rfl⟩))) rfl (by simp [hsem])⟩

/-! ## The invariant -/

/-- How far a thread's call is, by the state. -/
def status (s : SynchDisk T) (t : T) : Status :=
  match s.phase t with
  | .outside => .idle
  | .acquiring r => .asked r
  | .waiting n => if n ∈ s.pending then .requested n else .done n
  | .releasing n => .done n

/-- Who may be waiting for the disk: nobody, or a thread before its `P`, with its interrupt
still to come or its `V` already done, or past it. -/
inductive Waits (s : SynchDisk T) : Prop
  | nobody : (∀ t n, s.phase t ≠ .waiting n) → s.active = false →
      s.kernel.value diskSemaphore = 0 → Waits s
  | before (t : T) (n : ℕ) : s.phase t = .waiting n → n + 1 = s.nextRequest →
      s.kernel.code t = [.p diskSemaphore] →
      s.kernel.value diskSemaphore = (if s.active = true then 0 else 1) → Waits s
  | past (t : T) (n : ℕ) : s.phase t = .waiting n → n + 1 = s.nextRequest →
      s.kernel.code t = [] → s.active = false → s.kernel.value diskSemaphore = 0 → Waits s

/-- The invariant. -/
structure Inv (disk₀ : ℕ → Sector) (tr : List (DiskEvent T)) (s : SynchDisk T) : Prop where
  lock : ∃ ltr holder, Kernel.LockInv ltr s.kernel diskLock holder
  shaped : ∀ t, Shaped (s.kernel.code t)
  code : ∀ t, Code (s.phase t) (s.kernel.code t)
  owner : ∀ t, s.kernel.lockOwner diskLock = some t ↔ Owns (s.phase t) (s.kernel.code t)
  waits : s.Waits
  device : ∃ n, Serial disk₀ tr n s.active s.disk ∧
    s.pending = (if s.active = true then [n] else []) ∧ s.nextRequest = n + s.pending.length
  calls : ∀ t, Progress t tr (s.status t)

section Step
variable {disk₀ : ℕ → Sector} {tr : List (DiskEvent T)} {s s' : SynchDisk T} {t : T}

/-- Only the owner of the lock can be waiting for the disk. -/
theorem Inv.waiting_eq (h : Inv disk₀ tr s) (ho : s.kernel.lockOwner diskLock = some t) {u : T}
    {n : ℕ} (hu : s.phase u = .waiting n) : u = t := by
  have hown : s.kernel.lockOwner diskLock = some u := by
    rw [h.owner u, hu]
    trivial
  rw [ho] at hown
  exact (Option.some.inj hown).symm

/-- The lock and the shape of the code, after a step of the kernel. -/
theorem Inv.kernel_step (h : Inv disk₀ tr s) {a : Kernel.Action T} {k : Kernel T}
    (hk : s.kernel.step a = some k) :
    (∃ ltr holder, Kernel.LockInv ltr k diskLock holder) ∧ ∀ t, Shaped (k.code t) := by
  obtain ⟨ltr, holder, hl⟩ := h.lock
  exact ⟨⟨_, Kernel.lockInv_step hk h.shaped hl⟩, Kernel.shaped_step hk h.shaped⟩

/-- A property of every thread's phase and code, after one thread has moved. -/
theorem forall_moved (s' : SynchDisk T) {Q : T → Phase → List Instr → Prop} {p : Phase}
    {is : List Instr}
    (hphase : s'.phase = Function.update s.phase t p)
    (hcode : s'.kernel.code = Function.update s.kernel.code t is) (hself : Q t p is)
    (hothers : ∀ u, u ≠ t → Q u (s.phase u) (s.kernel.code u)) :
    ∀ u, Q u (s'.phase u) (s'.kernel.code u) := by
  intro u
  rw [hphase, hcode]
  by_cases hu : u = t
  · subst hu
    rwa [Function.update_self, Function.update_self]
  · rw [Function.update_of_ne hu, Function.update_of_ne hu]
    exact hothers u hu

/-- A thread has moved and the owner of the lock is what it was. -/
theorem Inv.moved (h : Inv disk₀ tr s) (s' : SynchDisk T) {p : Phase} {is : List Instr}
    (hphase : s'.phase = Function.update s.phase t p)
    (hcode : s'.kernel.code = Function.update s.kernel.code t is)
    (howner : s'.kernel.lockOwner diskLock = s.kernel.lockOwner diskLock) (hp : Code p is)
    (howns : Owns p is ↔ Owns (s.phase t) (s.kernel.code t)) :
    (∀ u, Code (s'.phase u) (s'.kernel.code u)) ∧
      ∀ u, s'.kernel.lockOwner diskLock = some u ↔ Owns (s'.phase u) (s'.kernel.code u) := by
  refine ⟨forall_moved s' (Q := fun _ p is => Code p is) hphase hcode hp fun u _ => h.code u,
    forall_moved s' (Q := fun u p is => s'.kernel.lockOwner diskLock = some u ↔ Owns p is) hphase
      hcode ?_ fun u _ => ?_⟩
  · rw [howner, howns]
    exact h.owner t
  · rw [howner]
    exact h.owner u

/-- A step that does not touch the disk, and no thread's call, keeps what is recorded. -/
theorem Inv.kernel {k : Kernel T} (h : Inv disk₀ tr s) {a : Kernel.Action T}
    (hk : s.kernel.step a = some k) (hcode : ∀ t, Code (s.phase t) (k.code t))
    (howner : ∀ t, k.lockOwner diskLock = some t ↔ Owns (s.phase t) (k.code t))
    (hwaits : ({ s with kernel := k } : SynchDisk T).Waits) :
    Inv disk₀ tr { s with kernel := k } where
  lock := (h.kernel_step hk).1
  shaped := (h.kernel_step hk).2
  code := hcode
  owner := howner
  waits := hwaits
  device := h.device
  calls := h.calls

omit [DecidableEq T] in
/-- What the waiting depends on. -/
theorem Waits.frame (h : s.Waits) (hactive : s'.active = s.active)
    (hnext : s'.nextRequest = s.nextRequest)
    (hvalue : s'.kernel.value diskSemaphore = s.kernel.value diskSemaphore)
    (hphase : ∀ u n, s'.phase u = .waiting n ↔ s.phase u = .waiting n)
    (hcode : ∀ u n, s.phase u = .waiting n → s'.kernel.code u = s.kernel.code u) : s'.Waits := by
  cases h with
  | nobody hno hact hval =>
    exact .nobody (fun u n => (hphase u n).not.mpr (hno u n)) (hactive.trans hact)
      (hvalue.trans hval)
  | before u n hu hn hcu hval =>
    refine .before u n ((hphase u n).mpr hu) (hn.trans hnext.symm) ((hcode u n hu).trans hcu) ?_
    rw [hactive]
    exact hvalue.trans hval
  | past u n hu hn hcu hact hval =>
    exact .past u n ((hphase u n).mpr hu) (hn.trans hnext.symm) ((hcode u n hu).trans hcu)
      (hactive.trans hact) (hvalue.trans hval)

section Instruction
variable {k : Kernel T} {i : Instr} {rest is : List Instr}

/-- An instruction that moves neither the owner of the lock nor the semaphore. -/
theorem Inv.quiet (h : Inv disk₀ tr s) (hk : s.kernel.step .run = some k)
    (hc : s.kernel.code t = [i]) (hcode : k.code = Function.update s.kernel.code t is)
    (hi : (i = .acquire diskLock ∧ s.kernel.lockOwner diskLock ≠ some t ∧
          is = [.acquireP diskLock]) ∨
        (i = .acquireP diskLock ∧ (is = [i] ∨ is = [.setOwner diskLock])) ∨
        (i = .p diskSemaphore ∧ s.kernel.value diskSemaphore = 0 ∧ is = [i]) ∨
        (i = .releaseV diskLock ∧ is = []))
    (ho : k.lockOwner diskLock = s.kernel.lockOwner diskLock)
    (hv : k.value diskSemaphore = s.kernel.value diskSemaphore) :
    Inv disk₀ tr { s with kernel := k } := by
  have hold : Code (s.phase t) [i] := hc ▸ h.code t
  have hnew : Code (s.phase t) is ∧
      (Owns (s.phase t) is ↔ Owns (s.phase t) (s.kernel.code t)) := by
    rw [hc]
    cases hp : s.phase t with
    | outside =>
      rw [hp] at hold
      cases hold
    | acquiring _ | waiting _ | releasing _ =>
      rw [hp] at hold
      rcases hi with ⟨rfl, -, rfl⟩ | ⟨rfl, rfl | rfl⟩ | ⟨rfl, -, rfl⟩ | ⟨rfl, rfl⟩ <;>
        simp_all [Code, Owns]
  obtain ⟨hcodes, howners⟩ := h.moved { s with kernel := k }
    (Function.update_eq_self t s.phase).symm hcode ho hnew.1 hnew.2
  refine h.kernel hk hcodes howners (h.waits.frame rfl rfl hv (fun _ _ => Iff.rfl) fun u n hu => ?_)
  show k.code u = s.kernel.code u
  rw [hcode]
  by_cases hut : u = t
  · subst hut
    rw [Function.update_self, hc]
    rw [hu] at hold
    rcases hi with ⟨rfl, -⟩ | ⟨rfl, -⟩ | ⟨-, -, rfl⟩ | ⟨rfl, -⟩
    · rcases hold with hold | hold <;> cases hold
    · rcases hold with hold | hold <;> cases hold
    · rfl
    · rcases hold with hold | hold <;> cases hold
  · exact Function.update_of_ne hut _ _

/-- The thread inside the lock becomes its owner. -/
theorem Inv.setOwner (h : Inv disk₀ tr s) (hk : s.kernel.step .run = some k)
    (hc : s.kernel.code t = [.setOwner diskLock])
    (hcode : k.code = Function.update s.kernel.code t [])
    (ho : k.lockOwner diskLock = some t)
    (hv : k.value diskSemaphore = s.kernel.value diskSemaphore) :
    Inv disk₀ tr { s with kernel := k } := by
  -- nobody else can be the owner: it would be inside the lock with this thread
  have hnone : s.kernel.lockOwner diskLock = none := by
    obtain ⟨ltr, holder, hl⟩ := h.lock
    have hin : holder = some t := (hl.inside_iff t).mp (Or.inr (Or.inl (by rw [hc]; rfl)))
    cases hown : s.kernel.lockOwner diskLock with
    | none => rfl
    | some u =>
      have hu := (hl.inside_iff u).mp (Or.inl hown)
      rw [hin] at hu
      cases hu
      exact absurd (by rw [hc]; rfl) (hl.owner_done t hown).2.1
  obtain ⟨r, hr⟩ := Code.acquiring (hc ▸ h.code t)
  have hphase : s.phase = Function.update s.phase t (.acquiring r) := by
    rw [← hr, Function.update_eq_self]
  refine h.kernel hk
    (forall_moved { s with kernel := k } (Q := fun _ p is => Code p is) hphase hcode
      (Or.inr (Or.inr (Or.inr rfl))) fun u _ => h.code u)
    (forall_moved { s with kernel := k }
      (Q := fun u p is => k.lockOwner diskLock = some u ↔ Owns p is) hphase hcode
      (iff_of_true ho rfl) fun u hu => ?_) ?_
  · rw [← h.owner u, ho, hnone]
    exact iff_of_false (fun hut => hu (Option.some.inj hut).symm) nofun
  · cases h.waits with
    | nobody hno ha hzero => exact .nobody hno ha (hv.trans hzero)
    | before u n hu | past u n hu =>
      have hown : s.kernel.lockOwner diskLock = some u := (h.owner u).mpr (by rw [hu]; trivial)
      rw [hnone] at hown
      cases hown

/-- The thread that waits takes the unit of the interrupt's `V`. -/
theorem Inv.semaphoreP (h : Inv disk₀ tr s) (hk : s.kernel.step .run = some k)
    (hc : s.kernel.code t = [.p diskSemaphore])
    (hcode : k.code = Function.update s.kernel.code t [])
    (ho : k.lockOwner diskLock = s.kernel.lockOwner diskLock)
    (hpos : s.kernel.value diskSemaphore ≠ 0)
    (hv : k.value diskSemaphore = s.kernel.value diskSemaphore - 1) :
    Inv disk₀ tr { s with kernel := k } := by
  obtain ⟨n, hn⟩ := Code.waiting (hc ▸ h.code t)
  have hphase : s.phase = Function.update s.phase t (.waiting n) := by
    rw [← hn, Function.update_eq_self]
  obtain ⟨hcodes, howners⟩ := h.moved { s with kernel := k } hphase hcode ho (Or.inr rfl)
    (by rw [hn]; exact Iff.rfl)
  refine h.kernel hk hcodes howners ?_
  have hown : s.kernel.lockOwner diskLock = some t := (h.owner t).mpr (by rw [hn]; trivial)
  cases h.waits with
  | nobody hno => exact absurd hn (hno t n)
  | before u m hu hm hcu hval =>
    obtain rfl := h.waiting_eq hown hu
    have hact : s.active = false := by
      by_contra hact
      rw [Bool.not_eq_false] at hact
      rw [if_pos hact] at hval
      exact hpos hval
    rw [hact, if_neg Bool.false_ne_true] at hval
    refine .past u m hu hm ?_ hact ?_
    · show k.code u = []
      rw [hcode, Function.update_self]
    · show k.value diskSemaphore = 0
      rw [hv, hval]
      rfl
  | past u m hu hm hcu =>
    obtain rfl := h.waiting_eq hown hu
    rw [hc] at hcu
    cases hcu

/-- The owner of the lock ceases to be it. -/
theorem Inv.unsetOwner (h : Inv disk₀ tr s) (hk : s.kernel.step .run = some k)
    (hc : s.kernel.code t = [.release diskLock])
    (hcode : k.code = Function.update s.kernel.code t [.releaseV diskLock])
    (hown : s.kernel.lockOwner diskLock = some t) (ho : k.lockOwner diskLock = none)
    (hv : k.value diskSemaphore = s.kernel.value diskSemaphore) :
    Inv disk₀ tr { s with kernel := k } := by
  obtain ⟨n, hn⟩ := Code.releasing (hc ▸ h.code t)
  have hphase : s.phase = Function.update s.phase t (.releasing n) := by
    rw [← hn, Function.update_eq_self]
  refine h.kernel hk
    (forall_moved { s with kernel := k } (Q := fun _ p is => Code p is) hphase hcode
      (Or.inr (Or.inl rfl)) fun u _ => h.code u)
    (forall_moved { s with kernel := k }
      (Q := fun u p is => k.lockOwner diskLock = some u ↔ Owns p is) hphase hcode ?_
      fun u hu => ?_) ?_
  · rw [ho]
    exact iff_of_false nofun nofun
  · rw [← h.owner u, ho, hown]
    exact iff_of_false nofun fun hut => hu (Option.some.inj hut).symm
  · cases h.waits with
    | nobody hno ha hzero => exact .nobody hno ha (hv.trans hzero)
    | before u m hu | past u m hu =>
      obtain rfl := h.waiting_eq hown hu
      rw [hn] at hu
      cases hu

/-- A thread goes on in the lock or the semaphore. -/
theorem Inv.run (h : Inv disk₀ tr s) (hk : s.kernel.step .run = some k) :
    Inv disk₀ tr { s with kernel := k } := by
  rcases Kernel.step_cases hk with ⟨_, _, ha, _⟩ | ⟨t, i, rest, -, ht, hc, he⟩ | ⟨_, ha, _⟩ |
    ⟨_, ha, _⟩
  · cases ha
  · obtain ⟨is, hcode, hex⟩ := executed (hc ▸ h.code t) hc he
    cases hex with
    | quiet hi ho hv => exact h.quiet hk hc hcode hi ho hv
    | setOwner ho hv => exact h.setOwner hk hc hcode ho hv
    | p ho hpos hv => exact h.semaphoreP hk hc hcode ho hpos hv
    | release hown ho hv => exact h.unsetOwner hk hc hcode hown ho hv
  · cases ha
  · cases ha

end Instruction

/-- The kernel's other steps leave the threads' code, the lock and the semaphore alone. -/
theorem Inv.schedule (h : Inv disk₀ tr s) {a : Kernel.Action T} {k : Kernel T}
    (hk : s.kernel.step a = some k) (ha : a = .yield ∨ ∃ u, a = .dispatch u) :
    Inv disk₀ tr { s with kernel := k } := by
  have hsame : k.code = s.kernel.code ∧ k.lockOwner = s.kernel.lockOwner ∧
      k.value = s.kernel.value := by
    rcases Kernel.step_cases hk with ⟨_, _, rfl, _⟩ | ⟨_, _, _, rfl, _⟩ | ⟨t, rfl, -, -, rfl⟩ |
      ⟨t, rfl, -, -, rfl⟩
    · rcases ha with ha | ⟨_, ha⟩ <;> cases ha
    · rcases ha with ha | ⟨_, ha⟩ <;> cases ha
    · obtain ⟨r, hr, -⟩ := s.kernel.readyToRun_eq t
      rw [hr]
      exact ⟨rfl, rfl, rfl⟩
    · exact ⟨rfl, rfl, rfl⟩
  obtain ⟨hcode, howner, hvalue⟩ := hsame
  refine h.kernel hk ?_ ?_ ?_
  · rw [hcode]
    exact h.code
  · rw [hcode, howner]
    exact h.owner
  · refine h.waits.frame rfl rfl ?_ (fun _ _ => Iff.rfl) fun u _ _ => ?_
    · rw [hvalue]
    · rw [hcode]

/-- A thread that has nothing left of a routine calls another one. -/
theorem called_eq {k k' : Kernel T} {c : Kernel.Call} (hk : k.step (.call c) = some k')
    (ht : k.currentThread = some t) : k' = k.goOn t [c.instr] true := by
  rcases Kernel.step_cases hk with ⟨c', u, hc, hu, -, rfl⟩ | ⟨_, _, _, ha, _⟩ | ⟨_, ha, _⟩ |
    ⟨_, ha, _⟩
  · cases hc
    rw [ht] at hu
    cases hu
    rfl
  · cases ha
  · cases ha
  · cases ha

/-- `ReadSector` or `WriteSector` is called. -/
theorem Inv.call (h : Inv disk₀ tr s) {r : Transfer} {k : Kernel T}
    (ht : s.kernel.currentThread = some t) (hout : s.phase t = .outside)
    (hk : s.kernel.step (.call (.acquire 0)) = some k) :
    Inv disk₀ (tr ++ [.called t r])
      { s with kernel := k, phase := Function.update s.phase t (.acquiring r) } := by
  obtain ⟨hlock, hshaped⟩ := h.kernel_step hk
  obtain rfl := called_eq hk ht
  have hempty : s.kernel.code t = [] := by
    have := h.code t
    rwa [hout] at this
  obtain ⟨hcodes, howners⟩ := h.moved
    { s with
      kernel := s.kernel.goOn t [Instr.acquire diskLock] true
      phase := Function.update s.phase t (.acquiring r) } rfl rfl rfl (Or.inl rfl)
    (by rw [hout]; exact iff_of_false nofun nofun)
  have hne : ∀ u n, s.phase u = .waiting n → u ≠ t := by
    rintro u n hu rfl
    rw [hout] at hu
    cases hu
  refine ⟨hlock, hshaped, hcodes, howners, h.waits.frame rfl rfl rfl (fun u n => ?_)
    (fun u n hu => Function.update_of_ne (hne u n hu) _ _), ?_, fun u => ?_⟩
  · by_cases hut : u = t
    · subst hut
      simp [hout]
    · simp [Function.update_of_ne hut]
  · obtain ⟨n, hs, hp, hn⟩ := h.device
    exact ⟨n, hs.called t r, hp, hn⟩
  · by_cases hut : u = t
    · subst hut
      have hold := h.calls u
      rw [status, hout] at hold
      simpa only [status, Function.update_self] using hold.called r
    · have hold := h.calls u
      simp only [status, Function.update_of_ne hut] at hold ⊢
      exact hold.other fun he => hut he.symm

/-- The owner of the lock, when it is not waiting itself, finds nobody waiting. -/
theorem Inv.nobody (h : Inv disk₀ tr s) (ho : s.kernel.lockOwner diskLock = some t)
    (ht : ∀ n, s.phase t ≠ .waiting n) :
    (∀ u n, s.phase u ≠ .waiting n) ∧ s.active = false ∧ s.kernel.value diskSemaphore = 0 := by
  cases h.waits with
  | nobody hno hact hval => exact ⟨hno, hact, hval⟩
  | before u n hu | past u n hu =>
    obtain rfl := h.waiting_eq ho hu
    exact absurd hu (ht n)

/-- `ReadRequest` and `WriteRequest` find the disk not active. -/
theorem Inv.notActive (h : Inv disk₀ tr s) {r : Transfer} (hp : s.phase t = .acquiring r)
    (hc : s.kernel.code t = []) : s.active = false := by
  have howner : s.kernel.lockOwner diskLock = some t := (h.owner t).mpr (by rw [hp, hc]; rfl)
  exact (h.nobody howner (fun n hn => by rw [hp] at hn; cases hn)).2.1

/-- The request is made. -/
theorem Inv.request (h : Inv disk₀ tr s) {r : Transfer} {k : Kernel T}
    (ht : s.kernel.currentThread = some t) (hp : s.phase t = .acquiring r)
    (hc : s.kernel.code t = []) (hr : s.request t r = some s')
    (hk : s.kernel.step (.call (.p 0)) = some k) :
    Inv disk₀ (tr ++ [.accepted s.nextRequest t r (r.apply s.disk r.sectorNumber)])
      { s' with kernel := k } := by
  obtain ⟨hlock, hshaped⟩ := h.kernel_step hk
  obtain rfl := called_eq hk ht
  have howner : s.kernel.lockOwner diskLock = some t := (h.owner t).mpr (by rw [hp, hc]; rfl)
  obtain ⟨hno, hact, hval⟩ := h.nobody howner (fun n hn => by rw [hp] at hn; cases hn)
  obtain ⟨n, hserial, hpending, hnext⟩ := h.device
  rw [hact] at hpending hserial
  rw [hpending] at hnext
  obtain rfl : s.nextRequest = n := hnext
  simp only [SynchDisk.request, hact, if_neg Bool.false_ne_true] at hr
  split at hr
  · cases hr
    obtain ⟨hcodes, howners⟩ := h.moved
      { s with
        kernel := s.kernel.goOn t [Instr.p diskSemaphore] true
        phase := Function.update s.phase t (.waiting s.nextRequest) } rfl rfl rfl (Or.inl rfl)
      (by rw [hp, hc]; exact iff_of_true trivial rfl)
    refine ⟨hlock, hshaped, hcodes, howners, .before t s.nextRequest (Function.update_self ..) rfl
      (Function.update_self ..) hval, ⟨_, hserial.accepted t r, ?_, ?_⟩, fun u => ?_⟩
    · simp [hpending]
    · simp [hpending]
    · have hold := h.calls u
      by_cases hut : u = t
      · subst hut
        rw [status, hp] at hold
        simpa [status] using hold.accepted s.nextRequest (r.apply s.disk r.sectorNumber)
      · have hother : Progress u (tr ++ [.accepted s.nextRequest t r (r.apply s.disk
            r.sectorNumber)]) (s.status u) := hold.other fun he => hut he.symm
        cases hu : s.phase u with
        | waiting n => exact absurd hu (hno u n)
        | outside | acquiring _ | releasing _ =>
          simpa only [status, Function.update_of_ne hut, hu] using hother
  · cases hr

/-- The thread is back from the semaphore and releases the lock. -/
theorem Inv.release (h : Inv disk₀ tr s) {n : ℕ} {k : Kernel T}
    (ht : s.kernel.currentThread = some t) (hp : s.phase t = .waiting n)
    (hc : s.kernel.code t = []) (hk : s.kernel.step (.call (.release 0)) = some k) :
    Inv disk₀ tr { s with kernel := k, phase := Function.update s.phase t (.releasing n) } := by
  obtain ⟨hlock, hshaped⟩ := h.kernel_step hk
  obtain rfl := called_eq hk ht
  have howner : s.kernel.lockOwner diskLock = some t := (h.owner t).mpr (by rw [hp]; trivial)
  obtain ⟨hcodes, howners⟩ := h.moved
    { s with
      kernel := s.kernel.goOn t [Instr.release diskLock] true
      phase := Function.update s.phase t (.releasing n) } rfl rfl rfl (Or.inl rfl)
    (by rw [hp]; exact iff_of_true rfl trivial)
  obtain ⟨hact, hval⟩ : s.active = false ∧ s.kernel.value diskSemaphore = 0 := by
    cases h.waits with
    | nobody hno => exact absurd hp (hno t n)
    | before u m hu hm hcu =>
      obtain rfl := h.waiting_eq howner hu
      rw [hc] at hcu
      cases hcu
    | past u m hu hm hcu hact hval => exact ⟨hact, hval⟩
  have hpending : s.pending = [] := by
    obtain ⟨m, -, hpending, -⟩ := h.device
    rwa [hact] at hpending
  refine ⟨hlock, hshaped, hcodes, howners, .nobody (fun u m hu => ?_) hact hval, h.device,
    fun u => ?_⟩
  · by_cases hut : u = t
    · subst hut
      simp at hu
    · dsimp only at hu
      rw [Function.update_of_ne hut] at hu
      exact hut (h.waiting_eq howner hu)
  · have hold := h.calls u
    by_cases hut : u = t
    · subst hut
      simpa [status, hp, hpending] using hold
    · simpa only [status, Function.update_of_ne hut] using hold

/-- The call returns. -/
theorem Inv.returned (h : Inv disk₀ tr s) {n : ℕ} (hp : s.phase t = .releasing n)
    (hc : s.kernel.code t = []) :
    Inv disk₀ (tr ++ [.returned t n]) { s with phase := Function.update s.phase t .outside } := by
  obtain ⟨hcodes, howners⟩ := h.moved
    { s with phase := Function.update s.phase t .outside } rfl
    (Function.update_eq_self t s.kernel.code).symm rfl hc
    (by rw [hp, hc]; exact iff_of_false nofun nofun)
  refine ⟨h.lock, h.shaped, hcodes, howners, h.waits.frame rfl rfl rfl (fun u m => ?_)
    (fun u m _ => rfl), ?_, fun u => ?_⟩
  · by_cases hut : u = t
    · subst hut
      simp [hp]
    · simp [Function.update_of_ne hut]
  · obtain ⟨m, hs, hpend, hm⟩ := h.device
    exact ⟨m, hs.returned t n, hpend, hm⟩
  · have hold := h.calls u
    by_cases hut : u = t
    · subst hut
      rw [status, hp] at hold
      simpa only [status, Function.update_self] using hold.returned
    · simp only [status, Function.update_of_ne hut] at hold ⊢
      exact hold.other fun he => hut he.symm

/-- The interrupt of a request comes. -/
theorem Inv.interrupt (h : Inv disk₀ tr s) {n : ℕ} (hn : n ∈ s.pending) :
    Inv disk₀ (tr ++ [.handled n]) (s.handleInterrupt n) := by
  obtain ⟨m, hserial, hpending, hnext⟩ := h.device
  have hact : s.active = true := by
    by_contra hact
    rw [if_neg hact] at hpending
    rw [hpending] at hn
    cases hn
  rw [if_pos hact] at hpending
  obtain rfl : n = m := by rwa [hpending, List.mem_singleton] at hn
  rw [hact] at hserial
  -- the thread that waits is the one whose request this is
  obtain ⟨t, ht, hcode, hval⟩ : ∃ t, s.phase t = .waiting n ∧
      s.kernel.code t = [.p diskSemaphore] ∧ s.kernel.value diskSemaphore = 0 := by
    cases h.waits with
    | nobody hno ha => rw [hact] at ha; cases ha
    | before t n' ht hn' hcode hval =>
      rw [hpending, List.length_singleton] at hnext
      obtain rfl : n' = n := Nat.succ.inj (hn'.trans hnext)
      rw [if_pos hact] at hval
      exact ⟨t, ht, hcode, hval⟩
    | past t n' ht hn' hcode ha => rw [hact] at ha; cases ha
  have howner : s.kernel.lockOwner diskLock = some t := (h.owner t).mpr (by rw [ht]; trivial)
  have hkernel : (s.handleInterrupt n).kernel.code = s.kernel.code ∧
      (s.handleInterrupt n).kernel.lockOwner = s.kernel.lockOwner ∧
      (s.handleInterrupt n).kernel.value diskSemaphore = 1 ∧
      (s.handleInterrupt n).kernel.value (.lock diskLock) = s.kernel.value (.lock diskLock) := by
    have hlock : Function.update s.kernel.value diskSemaphore (s.kernel.value diskSemaphore + 1)
        (.lock diskLock) = s.kernel.value (.lock diskLock) :=
      Function.update_of_ne (by decide) _ _
    have hone : Function.update s.kernel.value diskSemaphore (s.kernel.value diskSemaphore + 1)
        diskSemaphore = 1 := by
      rw [Function.update_self, hval]
      rfl
    unfold handleInterrupt
    rcases s.kernel.wake_eq diskSemaphore with ⟨-, hw⟩ | ⟨u, q, r, -, hw, -⟩ <;> rw [hw] <;>
      exact ⟨rfl, rfl, hone, hlock⟩
  obtain ⟨hkcode, hkowner, hkvalue, hklock⟩ := hkernel
  have herase : (s.handleInterrupt n).pending = [] := by
    show s.pending.erase n = []
    rw [hpending, List.erase_cons_head]
  refine ⟨?_, ?_, ?_, ?_, .before t n ht ?_ ?_ ?_, ⟨n + 1, hserial.handled, herase, ?_⟩,
    fun u => ?_⟩
  · obtain ⟨ltr, holder, hl⟩ := h.lock
    refine ⟨ltr, holder, ?_, ?_, hl.holds_iff, ?_⟩
    · rw [hklock]
      exact hl.value_eq
    · intro u
      rw [Kernel.Inside, hkcode, hkowner]
      exact hl.inside_iff u
    · rw [hkcode, hkowner]
      exact hl.owner_done
  · rw [hkcode]
    exact h.shaped
  · rw [hkcode]
    exact h.code
  · rw [hkcode, hkowner]
    exact h.owner
  · rw [hpending] at hnext
    exact hnext.symm
  · rw [hkcode]
    exact hcode
  · exact hkvalue
  · rw [herase]
    rw [hpending] at hnext
    exact hnext
  · have hold := h.calls u
    by_cases hut : u = t
    · subst hut
      have hstatus : s.status u = .requested n := by
        simp [status, ht, hpending]
      rw [hstatus] at hold
      have hnew : (s.handleInterrupt n).status u = .done n := by
        have hphase : (s.handleInterrupt n).phase u = .waiting n := ht
        simp [status, hphase, herase]
      rw [hnew]
      exact hold.handled
    · have hnot : ∀ m, s.phase u ≠ .waiting m := fun m hm => hut (h.waiting_eq howner hm)
      have hphase : (s.handleInterrupt n).phase u = s.phase u := rfl
      cases hu : s.phase u with
      | waiting m => exact absurd hu (hnot m)
      | outside | acquiring _ | releasing _ =>
        simp only [status, hu] at hold
        simp only [status, hphase, hu]
        apply hold.other
        intro hc
        cases hc

theorem inv_initial (multilevel : Bool) (priority : T → ℕ) (ready : List T) (disk₀ : ℕ → Sector) :
    Inv disk₀ [] (initial multilevel priority ready disk₀) where
  lock := ⟨[], none, Kernel.lockInv_initial ..⟩
  shaped _ := ⟨nofun, nofun⟩
  code _ := rfl
  owner _ := iff_of_false nofun nofun
  waits := .nobody (fun _ _ => nofun) rfl rfl
  device := ⟨0, .start, rfl, rfl⟩
  calls _ := .start

/-- **Every step keeps the invariant.** -/
theorem Inv.step (h : Inv disk₀ tr s) {a : Action T} (hs : s.step a = some s') :
    Inv disk₀ (tr ++ s.emit a) s' := by
  cases a with
  | call r =>
    simp only [SynchDisk.step, Option.bind_eq_bind, Option.bind_eq_some_iff] at hs
    obtain ⟨t, ht, hs⟩ := hs
    split at hs
    · rename_i hp
      simp only [Option.bind_eq_some_iff] at hs
      obtain ⟨k, hk, hs⟩ := hs
      cases hs
      simp only [emit, ht]
      exact h.call ht hp hk
    · cases hs
  | run =>
    simp only [SynchDisk.step, Option.bind_eq_bind, Option.bind_eq_some_iff] at hs
    obtain ⟨k, hk, hs⟩ := hs
    cases hs
    show Inv disk₀ (tr ++ []) _
    rw [List.append_nil]
    exact h.run hk
  | yield =>
    simp only [SynchDisk.step, Option.bind_eq_bind, Option.bind_eq_some_iff] at hs
    obtain ⟨k, hk, hs⟩ := hs
    cases hs
    show Inv disk₀ (tr ++ []) _
    rw [List.append_nil]
    exact h.schedule hk (Or.inl rfl)
  | dispatch t =>
    simp only [SynchDisk.step, Option.bind_eq_bind, Option.bind_eq_some_iff] at hs
    obtain ⟨k, hk, hs⟩ := hs
    cases hs
    show Inv disk₀ (tr ++ []) _
    rw [List.append_nil]
    exact h.schedule hk (Or.inr ⟨t, rfl⟩)
  | proceed =>
    simp only [SynchDisk.step, Option.bind_eq_bind, Option.bind_eq_some_iff] at hs
    obtain ⟨t, ht, hs⟩ := hs
    split at hs
    · rename_i hc
      cases hp : s.phase t with
      | outside =>
        rw [hp] at hs
        cases hs
      | acquiring r =>
        simp only [hp, Option.bind_eq_some_iff] at hs
        obtain ⟨s₁, hr, k, hk, hs⟩ := hs
        cases hs
        simp only [emit, ht, hp]
        exact h.request ht hp hc hr hk
      | waiting n =>
        simp only [hp, Option.bind_eq_some_iff] at hs
        obtain ⟨k, hk, hs⟩ := hs
        cases hs
        simp only [emit, ht, hp, List.append_nil]
        exact h.release ht hp hc hk
      | releasing n =>
        simp only [hp] at hs
        cases hs
        simp only [emit, ht, hp]
        exact h.returned hp hc
    · cases hs
  | interrupt n =>
    simp only [SynchDisk.step] at hs
    split at hs
    · rename_i hn
      cases hs
      exact h.interrupt hn
    · cases hs

end Step

/-- **The synchronous disk works.**  Whatever threads call `ReadSector` and `WriteSector`,
in whatever order they and the interrupts take their steps: no request finds the disk
active, a call returns only after the interrupt of its own request has been handled, and
the transfers are made in one serial order, each during its call. -/
theorem synchDisk_serial {multilevel : Bool} {priority : T → ℕ} {ready : List T}
    {disk₀ : ℕ → Sector} {tr : List (DiskEvent T)} {s : SynchDisk T}
    (h : Runs (initial multilevel priority ready disk₀) tr s) : Synchronous disk₀ tr s := by
  have hinv : Inv disk₀ tr s := by
    refine Run.invariant (I := fun tr s => Inv disk₀ tr s) ?_ ?_ h
    · exact inv_initial multilevel priority ready disk₀
    · intro tr s a s' hi _ hs
      exact hi.step hs
  refine ⟨fun t r hp hc => hinv.notActive hp hc, fun t n es rest htr => ?_,
    fun t => ⟨_, hinv.calls t⟩, ?_⟩
  · exact (hinv.calls t).afterInterrupt htr
  · obtain ⟨n, hs, -⟩ := hinv.device
    exact ⟨n, hs⟩

/-- Two threads: while the first has made its request, the second sleeps on the lock; the
interrupt comes when the first sleeps on the semaphore. -/
def contendedTransfers : List (Action ℕ) :=
  [.dispatch 0, .call (.write 3 fun _ => 7), .run, .run, .run, .proceed, .yield,
    .dispatch 1, .call (.read 3), .run, .run,
    .dispatch 0, .run, .interrupt 0, .dispatch 0, .run, .proceed, .run, .run, .proceed, .yield,
    .dispatch 1, .run, .run, .proceed]

theorem synchDisk_serial_contended :
    ∃ tr s, Runs (initial true (fun t => t) [0, 1] fun _ _ => 0) tr s ∧
      s.phase 1 = .waiting 1 ∧ .returned 0 0 ∈ tr ∧ Synchronous (fun _ _ => 0) tr s := by
  obtain ⟨r, hr⟩ : ∃ r, play step emit (initial true (fun t => t) [0, 1] fun _ _ => 0)
      contendedTransfers = some r := ⟨_, rfl⟩
  have hrun : Runs (initial true (fun t => t) [0, 1] fun _ _ => 0) r.1 r.2 := Run.start.play hr
  refine ⟨r.1, r.2, hrun, ?_, ?_, synchDisk_serial hrun⟩
  · cases hr
    rfl
  · have hlater : r.1[4]? = some (.returned 0 0) := by
      cases hr
      rfl
    exact List.mem_of_getElem? hlater

end SynchDisk
end PaldOs
