import PaldOs.Devices

/-! # The synchronous console

The console of `machine/console.cc` displays one character at a time, is busy and interrupts when
the character has departed; it polls the keyboard, buffers one character and interrupts when it has
one.  `SynchConsole` of `machine/synch_console.cc` makes it synchronous, with a lock and a semaphore
for each direction, so that readers and writers do not wait for each other.  Here the threads of one
kernel call `ReadConsole` and `WriteConsole`, and the interrupts come at any time.

`EOF` is `-1`, and as a `char` it is a character: the console that buffers it looks empty.
-/
namespace PaldOs

/-- The device: whether a character is being displayed, the character buffered and the number of
scheduled interrupts `ConsoleWriteDone`. -/
structure Console where
  putBusy : Bool
  incoming : UInt8
  writesDue : ℕ

namespace Console

/-- `EOF`. -/
def eof : UInt8 := 0xFF

/-- `Console::PutChar`; `none` is a failed assertion. -/
def putChar (s : Console) : Option Console :=
  if s.putBusy = true then none
  else some { s with putBusy := true, writesDue := s.writesDue + 1 }

/-- `Console::GetChar`. -/
def getChar (s : Console) : UInt8 × Console := (s.incoming, { s with incoming := eof })

/-- `Console::WriteDone`, for a scheduled interrupt. -/
def writeDone (s : Console) : Option Console :=
  if s.writesDue = 0 then none
  else some { s with putBusy := false, writesDue := s.writesDue - 1 }

/-- `Console::CheckCharAvail`, with the character to be read from the keyboard, if any: the console
after it, and the character that is read in. -/
def checkCharAvail (s : Console) (keyboard : Option UInt8) : Console × Option UInt8 :=
  match keyboard with
  | none => (s, none)
  | some ch => if s.incoming ≠ eof then (s, none) else ({ s with incoming := ch }, some ch)

end Console

/-- Where a thread is in `ReadConsole` or `WriteConsole`, by the routine it has called. -/
inductive ConsolePhase where
  | outside
  /-- In `lockWrite->Acquire()`. -/
  | acquiringWrite (ch : UInt8)
  /-- In `writeDone->P()`. -/
  | writing (ch : UInt8)
  /-- In `lockWrite->Release()`. -/
  | releasingWrite (ch : UInt8)
  /-- In `lockRead->Acquire()`. -/
  | acquiringRead
  /-- In `readAvail->P()`. -/
  | reading
  /-- In `lockRead->Release()`. -/
  | releasingRead (character : UInt8)
deriving DecidableEq

/-- A call of `SynchConsole`. -/
inductive ConsoleCall where
  | writeConsole (ch : UInt8)
  | readConsole

/-- What the device does: a character has departed, or it is time to poll the keyboard. -/
inductive ConsoleInterrupt where
  | writeDone
  | checkCharAvail (keyboard : Option UInt8)

/-- What is recorded of a run: calls and returns, the calls of `PutChar` and `GetChar`, the
characters read in and the departures. -/
inductive ConsoleEvent (T : Type) where
  | writeConsole (t : T) (ch : UInt8)
  | putChar (t : T) (ch : UInt8)
  | departed
  | wrote (t : T)
  | readConsole (t : T)
  | typed (ch : UInt8)
  | getChar (t : T) (ch : UInt8)
  | returned (t : T) (ch : UInt8)

namespace SynchConsole
variable {T : Type} [DecidableEq T]

/-- `lockRead`. -/
def lockRead : ℕ := 0

/-- `lockWrite`. -/
def lockWrite : ℕ := 1

/-- `readAvail`. -/
def readAvail : ℕ := 0

/-- `writeDone`. -/
def writeDone : ℕ := 1

/-- The routine called in each phase. -/
def call : ConsolePhase → Option Kernel.Call
  | .outside => none
  | .acquiringWrite _ => some (.acquire lockWrite)
  | .writing _ => some (.p writeDone)
  | .releasingWrite _ => some (.release lockWrite)
  | .acquiringRead => some (.acquire lockRead)
  | .reading => some (.p readAvail)
  | .releasingRead _ => some (.release lockRead)

/-- `WriteConsole` and `ReadConsole`, from one routine they call to the next. -/
def proceed (t : T) (x : ConsoleCall) (p : ConsolePhase) (s : Console) :
    Option (Move ConsolePhase Console (ConsoleEvent T)) :=
  match p with
  | .outside =>
      match x with
      | .writeConsole ch => some ⟨.acquiringWrite ch, s, [.writeConsole t ch]⟩
      | .readConsole => some ⟨.acquiringRead, s, [.readConsole t]⟩
  | .acquiringWrite ch => do
      let s' ← s.putChar
      some ⟨.writing ch, s', [.putChar t ch]⟩
  | .writing ch => some ⟨.releasingWrite ch, s, []⟩
  | .releasingWrite _ => some ⟨.outside, s, [.wrote t]⟩
  | .acquiringRead => some ⟨.reading, s, []⟩
  | .reading => some ⟨.releasingRead s.getChar.1, s.getChar.2, [.getChar t s.getChar.1]⟩
  | .releasingRead character => some ⟨.outside, s, [.returned t character]⟩

/-- The interrupts of the console, with `ReadAvailSynch` and `WriteDoneSynch` as handlers. -/
def interrupt (y : ConsoleInterrupt) (s : Console) :
    Option (Handling Console (ConsoleEvent T)) :=
  match y with
  | .writeDone => do
      let s' ← s.writeDone
      some ⟨s', some writeDone, [.departed]⟩
  | .checkCharAvail keyboard =>
      match s.checkCharAvail keyboard with
      | (s', none) => some ⟨s', none, []⟩
      | (s', some ch) => some ⟨s', some readAvail, [.typed ch]⟩

/-- The threads of one kernel with one console. -/
def client : Client Unit T ConsolePhase Console ConsoleCall ConsoleInterrupt (ConsoleEvent T) where
  call := call
  proceed _ := proceed
  interrupt _ := interrupt

/-- The start: `SynchConsole::SynchConsole`. -/
def start (multilevel : Bool) (priority : T → ℕ) (ready : List T) :
    Cluster Unit T ConsolePhase Console :=
  .initial multilevel (fun _ => priority) (fun _ => ready) (fun _ => .outside)
    ⟨false, Console.eof, 0⟩

/-! ## What the synchronous console is for -/

/-- How far the call of a thread is. -/
inductive Status where
  | idle
  | toWrite (ch : UInt8)
  | displaying (ch : UInt8)
  | displayed (ch : UInt8)
  | toRead
  | read (ch : UInt8)
deriving DecidableEq

/-- The thread of an event, if it is of one. -/
def thread : ConsoleEvent T → Option T
  | .writeConsole t _ => some t
  | .putChar t _ => some t
  | .departed => none
  | .wrote t => some t
  | .readConsole t => some t
  | .typed _ => none
  | .getChar t _ => some t
  | .returned t _ => some t

/-- A thread's next step, from where it is; `none` where the step is out of order. -/
def Status.next : Status → ConsoleEvent T → Option Status
  | .idle, .writeConsole _ ch => some (.toWrite ch)
  | .toWrite ch, .putChar _ ch' => if ch' = ch then some (.displaying ch) else none
  | .displayed _, .wrote _ => some .idle
  | .idle, .readConsole _ => some .toRead
  | .toRead, .getChar _ ch => some (.read ch)
  | .read ch, .returned _ ch' => if ch' = ch then some .idle else none
  | _, _ => none

/-- A departure is of the character that is being displayed. -/
def Status.depart : Status → Status
  | .displaying ch => .displayed ch
  | st => st

/-- Where `t` is after an event. -/
def follow (t : T) (st : Option Status) (e : ConsoleEvent T) : Option Status :=
  st.bind fun st =>
    match thread e with
    | some u => if u = t then st.next e else some st
    | none =>
      match e with
      | .departed => some st.depart
      | _ => some st

/-- The device after an event: a character is put only when the one before has departed. -/
def alternate (busy : Option Bool) : ConsoleEvent T → Option Bool
  | .putChar _ _ => if busy = some false then some true else none
  | .departed => if busy = some true then some false else none
  | _ => busy

/-- The characters read in from the keyboard. -/
def typed (tr : List (ConsoleEvent T)) : List UInt8 :=
  tr.filterMap fun e => match e with
    | .typed ch => some ch
    | _ => none

/-- The characters taken out of the console by `ReadConsole`. -/
def taken (tr : List (ConsoleEvent T)) : List UInt8 :=
  tr.filterMap fun e => match e with
    | .getChar _ ch => some ch
    | _ => none

/-- The character in the buffer. -/
def buffered (s : Console) : List UInt8 := if s.incoming = Console.eof then [] else [s.incoming]

/-! ## The invariant -/

/-- The lock a phase needs. -/
def needs : ConsolePhase → Option ℕ
  | .acquiringWrite _ => some lockWrite
  | .writing _ => some lockWrite
  | .acquiringRead => some lockRead
  | .reading => some lockRead
  | _ => none

omit [DecidableEq T] in
theorem disciplined : (client (T := T)).Disciplined needs where
  fits p := by
    cases p with
    | outside => exact trivial
    | acquiringWrite | writing | releasingWrite | acquiringRead | reading | releasingRead => rfl
  brings {m t x p d v} h := by
    cases p with
    | outside => cases x <;> cases h <;> rfl
    | acquiringWrite ch =>
      simp only [client, proceed, Option.bind_eq_bind, Option.bind_eq_some_iff] at h
      obtain ⟨s', -, h⟩ := h
      cases h
      rfl
    | writing | releasingWrite | acquiringRead | reading | releasingRead =>
      cases h
      rfl

/-- How far the call of a thread is, by the state. -/
def status (p : ConsolePhase) (writesDue : ℕ) : Status :=
  match p with
  | .outside => .idle
  | .acquiringWrite ch => .toWrite ch
  | .writing ch => if writesDue = 0 then .displayed ch else .displaying ch
  | .releasingWrite ch => .displayed ch
  | .acquiringRead => .toRead
  | .reading => .toRead
  | .releasingRead character => .read character

/-- The invariant. -/
structure Inv (tr : List (ConsoleEvent T)) (a : Ideal Unit T ConsolePhase Console) : Prop where
  writes : (a.prims ()).Completion writeDone a.data.writesDue
  busy : a.data.putBusy = true ↔ a.data.writesDue ≠ 0
  threads : ∀ t, tr.foldl (follow t) (some .idle) =
    some (status (a.phase ((), t)) a.data.writesDue)
  device : tr.foldl alternate (some false) = some a.data.putBusy
  reads : Console.eof ∉ typed tr →
    (a.prims ()).Arrival readAvail (Ideal.Past client readAvail a ())
        (decide (a.data.incoming ≠ Console.eof)) ∧
      typed tr = taken tr ++ buffered a.data

section Step
variable {tr : List (ConsoleEvent T)} {a : Ideal Unit T ConsolePhase Console} {t u : T}
  {v : Move ConsolePhase Console (ConsoleEvent T)}

theorem follow_own {e : ConsoleEvent T} (h : thread e = some t) (st : Status) :
    follow u (some st) e = if t = u then st.next e else some st := by
  simp only [follow, h, Option.bind_some]

omit [DecidableEq T] in
/-- No phase does a `V`: that is for the interrupts. -/
theorem call_ne_v (n : ℕ) (p : ConsolePhase) : client (T := T).call p ≠ some (.v n) := by
  cases p <;> exact nofun

omit [DecidableEq T] in
/-- Who waits for a departure needs the lock to write. -/
theorem needs_of_writing {p : ConsolePhase} (h : client (T := T).call p = some (.p writeDone)) :
    needs p = some lockWrite := by
  cases p <;> first | rfl | cases h

omit [DecidableEq T] in
/-- Who waits for a character is in `ReadConsole`. -/
theorem reading_of_call {p : ConsolePhase} (h : client (T := T).call p = some (.p readAvail)) :
    p = .reading := by
  cases p <;> first | rfl | cases h

/-- A move that leaves the console alone. -/
theorem Inv.quiet (h : Inv tr a) (hp : (a.prims ()).pending t = none) (hdata : v.data = a.data)
    (hnew : ∀ ch, v.phase ≠ .writing ch) (hold : a.phase ((), t) ≠ .reading)
    (hstatus : ∀ u, v.events.foldl (follow u)
        (some (status (a.phase ((), u)) a.data.writesDue)) =
      some (status ((a.moved client () t v).phase ((), u)) a.data.writesDue))
    (hdevice : ∀ b, v.events.foldl alternate b = b)
    (hchars : typed v.events = [] ∧ taken v.events = []) :
    Inv (tr ++ v.events) (a.moved client () t v) where
  writes := by
    rw [Ideal.moved_data, hdata, Ideal.moved_prims]
    apply h.writes.call hp
    intro hc
    cases hv : v.phase with
    | writing ch => exact hnew ch hv
    | outside | acquiringWrite | releasingWrite | acquiringRead | reading | releasingRead =>
      rw [hv] at hc
      cases hc
  busy := by
    rw [Ideal.moved_data, hdata]
    exact h.busy
  threads u := by
    rw [Ideal.moved_data, hdata, List.foldl_append, h.threads u]
    exact hstatus u
  device := by
    rw [Ideal.moved_data, hdata, List.foldl_append, h.device]
    exact hdevice _
  reads hno := by
    have happend : typed (tr ++ v.events) = typed tr ∧ taken (tr ++ v.events) = taken tr := by
      constructor
      · rw [typed, List.filterMap_append]
        show typed tr ++ typed v.events = _
        rw [hchars.1, List.append_nil]
      · rw [taken, List.filterMap_append]
        show taken tr ++ taken v.events = _
        rw [hchars.2, List.append_nil]
    rw [happend.1] at hno ⊢
    rw [happend.2, Ideal.moved_data, hdata]
    obtain ⟨harrival, hin⟩ := h.reads hno
    exact ⟨Ideal.arrival_moved harrival fun _ ht => hold (reading_of_call ht.1), hin⟩

/-- The events of one thread. -/
theorem status_moved {e : ConsoleEvent T} (he : thread e = some t) (hes : v.events = [e])
    (hnext : (status (a.phase ((), t)) a.data.writesDue).next e =
      some (status v.phase a.data.writesDue)) (u : T) :
    v.events.foldl (follow u) (some (status (a.phase ((), u)) a.data.writesDue)) =
      some (status ((a.moved client () t v).phase ((), u)) a.data.writesDue) := by
  rw [hes, List.foldl_cons, List.foldl_nil, follow_own he]
  by_cases hu : t = u
  · subst hu
    rw [if_pos rfl, hnext, Ideal.moved_phase, Function.update_self]
  · rw [if_neg hu, Ideal.moved_phase, Function.update_of_ne]
    intro h
    exact hu (congrArg Prod.snd h).symm

/-- A move without events, between phases that look the same. -/
theorem status_silent (hes : v.events = [])
    (hsame : status (a.phase ((), t)) a.data.writesDue = status v.phase a.data.writesDue) (u : T) :
    v.events.foldl (follow u) (some (status (a.phase ((), u)) a.data.writesDue)) =
      some (status ((a.moved client () t v).phase ((), u)) a.data.writesDue) := by
  rw [hes, List.foldl_nil]
  by_cases hu : u = t
  · subst hu
    rw [Ideal.moved_phase, Function.update_self, hsame]
  · rw [Ideal.moved_phase, Function.update_of_ne]
    intro h
    exact hu (congrArg Prod.snd h)

omit [DecidableEq T] in
/-- A thread that has the lock to write is alone in it. -/
theorem nobody_writing (hg : a.Guarded client needs)
    (hneeds : needs (a.phase ((), t)) = some lockWrite)
    (hp : (a.prims ()).pending t = none) (hu : u ≠ t) (ch : UInt8) :
    a.phase ((), u) ≠ .writing ch := by
  intro hw
  refine hu (hg.alone hneeds hp ?_)
  have hc := hg.inCall () u
  rw [hw] at hc ⊢
  rcases hc.made_or nofun with hpu | hpu <;> rw [hpu] <;> rfl

/-- `PutChar` finds the console not busy. -/
theorem Inv.notBusy (h : Inv tr a) (hg : a.Guarded client needs) {ch : UInt8}
    (hphase : a.phase ((), t) = .acquiringWrite ch) (hp : (a.prims ()).pending t = none) :
    a.data.putBusy = false ∧ a.data.writesDue = 0 := by
  have hneeds : needs (a.phase ((), t)) = some lockWrite := by rw [hphase]; rfl
  have hzero := (h.writes.none_outstanding
    (hg.nobody_waiting hneeds hp fun _ => needs_of_writing)).1
  refine ⟨?_, hzero⟩
  rw [← Bool.not_eq_true, h.busy, hzero]
  simp

/-- Where a thread is that does not move. -/
theorem phase_moved_of_ne (hu : u ≠ t) :
    (a.moved client () t v).phase ((), u) = a.phase ((), u) :=
  Function.update_of_ne (fun he => hu (congrArg Prod.snd he)) _ _

/-- A character is put. -/
theorem Inv.putChar (h : Inv tr a) (hg : a.Guarded client needs) {ch : UInt8}
    (hphase : a.phase ((), t) = .acquiringWrite ch) (hp : (a.prims ()).pending t = none)
    (hput : a.data.putChar = some v.data) (hnew : v.phase = .writing ch)
    (hes : v.events = [.putChar t ch]) : Inv (tr ++ v.events) (a.moved client () t v) := by
  obtain ⟨hbusy, hzero⟩ := h.notBusy hg hphase hp
  have hneeds : needs (a.phase ((), t)) = some lockWrite := by rw [hphase]; rfl
  rw [Console.putChar, hbusy, if_neg Bool.false_ne_true, hzero] at hput
  have hdata := (Option.some.inj hput).symm
  refine ⟨?_, ?_, fun u => ?_, ?_, fun heof => ?_⟩
  · rw [Ideal.moved_prims, Ideal.moved_data, hnew, hdata]
    exact (h.writes.request (hg.nobody_waiting hneeds hp fun _ => needs_of_writing)).2
  · simp [hdata]
  · rw [List.foldl_append, h.threads u, hes, List.foldl_cons, List.foldl_nil,
      follow_own (e := .putChar t ch) rfl]
    by_cases hu : t = u
    · subst hu
      simp [hphase, status, Status.next, hnew, hdata]
    · rw [if_neg hu, phase_moved_of_ne (Ne.symm hu)]
      cases hpu : a.phase ((), u) with
      | writing ch' => exact absurd hpu (nobody_writing hg hneeds hp (Ne.symm hu) ch')
      | outside | acquiringWrite | releasingWrite | acquiringRead | reading | releasingRead => rfl
  · rw [List.foldl_append, h.device, hbusy, hes, Ideal.moved_data, hdata]
    rfl
  · have htyped : typed (tr ++ v.events) = typed tr := by simp [typed, hes]
    have htaken : taken (tr ++ v.events) = taken tr := by simp [taken, hes]
    rw [htyped] at heof ⊢
    rw [htaken, Ideal.moved_data, hdata]
    obtain ⟨harrival, hin⟩ := h.reads heof
    refine ⟨Ideal.arrival_moved harrival fun _ ht => ?_, hin⟩
    have hreading := reading_of_call ht.1
    rw [hphase] at hreading
    cases hreading

/-- A character is taken. -/
theorem Inv.getChar (h : Inv tr a) (hphase : a.phase ((), t) = .reading)
    (hp : (a.prims ()).pending t = none) (hdata : v.data = a.data.getChar.2)
    (hnew : v.phase = .releasingRead a.data.incoming)
    (hes : v.events = [.getChar t a.data.incoming]) :
    Inv (tr ++ v.events) (a.moved client () t v) := by
  refine ⟨?_, ?_, fun u => ?_, ?_, fun heof => ?_⟩
  · rw [Ideal.moved_prims, Ideal.moved_data, hdata, hnew]
    exact h.writes.call hp nofun
  · rw [Ideal.moved_data, hdata]
    exact h.busy
  · rw [List.foldl_append, h.threads u, Ideal.moved_data, hdata]
    exact status_moved (e := .getChar t a.data.incoming) rfl hes (by rw [hphase, hnew]; rfl) u
  · rw [List.foldl_append, h.device, hes, Ideal.moved_data, hdata]
    rfl
  · have htyped : typed (tr ++ v.events) = typed tr := by simp [typed, hes]
    have htaken : taken (tr ++ v.events) = taken tr ++ [a.data.incoming] := by simp [taken, hes]
    rw [htyped] at heof ⊢
    rw [htaken, Ideal.moved_data, hdata]
    obtain ⟨harrival, hin⟩ := h.reads heof
    have hpast : Ideal.Past client readAvail a () t := ⟨by rw [hphase]; rfl, hp⟩
    obtain ⟨hfull, harrival'⟩ := Ideal.arrival_taken (v := v) harrival hpast
    refine ⟨harrival', ?_⟩
    rw [decide_eq_true_eq] at hfull
    rw [hin, buffered, if_neg hfull]
    simp [buffered, Console.getChar]

/-- A thread moves. -/
theorem Inv.move (h : Inv tr a) (hg : a.Guarded client needs) (hp : (a.prims ()).pending t = none)
    {x : ConsoleCall} (hv : proceed t x (a.phase ((), t)) a.data = some v) :
    Inv (tr ++ v.events) (a.moved client () t v) := by
  cases hphase : a.phase ((), t) with
  | outside =>
    rw [hphase] at hv
    cases x with
    | writeConsole ch =>
      cases hv
      exact h.quiet hp rfl nofun (by rw [hphase]; nofun)
        (status_moved (e := .writeConsole t ch) rfl rfl (by rw [hphase]; rfl)) (fun _ => rfl)
        ⟨rfl, rfl⟩
    | readConsole =>
      cases hv
      exact h.quiet hp rfl nofun (by rw [hphase]; nofun)
        (status_moved (e := .readConsole t) rfl rfl (by rw [hphase]; rfl)) (fun _ => rfl) ⟨rfl, rfl⟩
  | acquiringWrite ch =>
    rw [hphase] at hv
    simp only [proceed, Option.bind_eq_bind, Option.bind_eq_some_iff] at hv
    obtain ⟨s', hput, hv⟩ := hv
    cases hv
    exact h.putChar hg hphase hp hput rfl rfl
  | writing ch =>
    rw [hphase] at hv
    cases hv
    -- a thread past its `P` has had its departure
    have hzero : a.data.writesDue = 0 := by
      refine (h.writes.none_outstanding ?_).1
      exact hg.nobody_waiting (by rw [hphase]; rfl) hp fun _ => needs_of_writing
    refine h.quiet hp rfl nofun (by rw [hphase]; nofun) (status_silent rfl ?_) (fun _ => rfl)
      ⟨rfl, rfl⟩
    rw [hphase, hzero]
    rfl
  | releasingWrite ch =>
    rw [hphase] at hv
    cases hv
    exact h.quiet hp rfl nofun (by rw [hphase]; nofun)
      (status_moved (e := .wrote t) rfl rfl (by rw [hphase]; rfl)) (fun _ => rfl) ⟨rfl, rfl⟩
  | acquiringRead =>
    rw [hphase] at hv
    cases hv
    exact h.quiet hp rfl nofun (by rw [hphase]; nofun)
      (status_silent rfl (by rw [hphase]; rfl)) (fun _ => rfl) ⟨rfl, rfl⟩
  | reading =>
    rw [hphase] at hv
    cases hv
    exact h.getChar hphase hp rfl rfl rfl
  | releasingRead ch =>
    rw [hphase] at hv
    cases hv
    exact h.quiet hp rfl nofun (by rw [hphase]; nofun)
      (status_moved (e := .returned t ch) rfl rfl (by rw [hphase]; simp [status, Status.next]))
      (fun _ => rfl) ⟨rfl, rfl⟩

/-- A call takes effect. -/
theorem Inv.effect (h : Inv tr a) (hg : a.Guarded client needs) {s : Primitives T}
    (he : Primitives.Effect (a.prims ()) t s) : Inv tr (a.effected () s) where
  writes := Ideal.completion_effected h.writes hg (call_ne_v writeDone) he
  busy := h.busy
  threads := h.threads
  device := h.device
  reads heof :=
    ⟨Ideal.arrival_effected (h.reads heof).1 hg (call_ne_v readAvail) he, (h.reads heof).2⟩

/-- A character departs. -/
theorem Inv.departed (h : Inv tr a) {w : Handling Console (ConsoleEvent T)}
    (hdone : a.data.writeDone = some w.data) (hraised : w.raised = some writeDone)
    (hes : w.events = [.departed]) : Inv (tr ++ w.events) (a.handled () w) := by
  rw [Console.writeDone] at hdone
  split at hdone
  · cases hdone
  · rename_i hdue
    have hdata := (Option.some.inj hdone).symm
    have hone : a.data.writesDue = 1 := by
      have := h.writes.le_one
      omega
    have hwrites := h.writes
    have hthreads := h.threads
    rw [hone] at hwrites hthreads
    have hdue' : (a.handled () w).data.writesDue = 0 := by
      show w.data.writesDue = 0
      rw [hdata, hone]
    refine ⟨?_, ?_, fun u => ?_, ?_, fun heof => ?_⟩
    · rw [Ideal.handled_prims, hraised, hdue']
      exact hwrites.raise
    · rw [hdue']
      show w.data.putBusy = true ↔ _
      simp [hdata]
    · rw [List.foldl_append, hthreads u, hes, hdue']
      show some (status (a.phase ((), u)) 1).depart = some (status (a.phase ((), u)) 0)
      cases a.phase ((), u) <;> rfl
    · rw [List.foldl_append, h.device, hes, h.busy.mpr hdue]
      show some false = some w.data.putBusy
      rw [hdata]
    · have htyped : typed (tr ++ w.events) = typed tr := by simp [typed, hes]
      have htaken : taken (tr ++ w.events) = taken tr := by simp [taken, hes]
      rw [htyped] at heof ⊢
      rw [htaken]
      show _ ∧ typed tr = taken tr ++ buffered w.data
      obtain ⟨harrival, hin⟩ := h.reads heof
      rw [hdata]
      refine ⟨?_, hin⟩
      have hincoming : (a.handled () w).data.incoming = a.data.incoming := by
        show w.data.incoming = _
        rw [hdata]
      rw [hincoming]
      refine harrival.congr (fun u => Ideal.past_handled) ?_
      rw [Ideal.handled_prims, hraised]
      rfl

/-- The keyboard is polled and nothing is read in. -/
theorem Inv.polled (h : Inv tr a) {w : Handling Console (ConsoleEvent T)}
    (hdata : w.data = a.data) (hraised : w.raised = none) (hes : w.events = []) :
    Inv (tr ++ w.events) (a.handled () w) := by
  have hsame : (a.handled () w).data = a.data := hdata
  have hprims : (a.handled () w).prims () = a.prims () := by
    rw [Ideal.handled_prims, hraised]
    rfl
  rw [hes, List.append_nil]
  refine ⟨?_, ?_, ?_, ?_, fun heof => ?_⟩
  · rw [hprims, hsame]
    exact h.writes
  · rw [hsame]
    exact h.busy
  · rw [hsame]
    exact h.threads
  · rw [hsame]
    exact h.device
  · rw [hprims, hsame]
    obtain ⟨harrival, hin⟩ := h.reads heof
    exact ⟨harrival.congr (fun u => Ideal.past_handled) rfl, hin⟩

/-- A character is read in. -/
theorem Inv.typed (h : Inv tr a) {w : Handling Console (ConsoleEvent T)} {ch : UInt8}
    (hempty : a.data.incoming = Console.eof) (hdata : w.data = { a.data with incoming := ch })
    (hraised : w.raised = some readAvail) (hes : w.events = [.typed ch]) :
    Inv (tr ++ w.events) (a.handled () w) := by
  have hsame : (a.handled () w).data = { a.data with incoming := ch } := hdata
  refine ⟨?_, ?_, fun u => ?_, ?_, fun heof => ?_⟩
  · rw [hsame]
    refine h.writes.congr (fun u => ?_) ?_
    · rw [Ideal.handled_seen.2]
    · rw [Ideal.handled_prims, hraised]
      rfl
  · rw [hsame]
    exact h.busy
  · rw [List.foldl_append, h.threads u, hes, hsame]
    rfl
  · rw [List.foldl_append, h.device, hes, hsame]
    rfl
  · have htyped : SynchConsole.typed (tr ++ w.events) = SynchConsole.typed tr ++ [ch] := by
      simp [SynchConsole.typed, hes]
    have htaken : taken (tr ++ w.events) = taken tr := by simp [taken, hes]
    rw [htyped, List.mem_append, not_or, List.mem_singleton] at heof
    obtain ⟨harrival, hin⟩ := h.reads heof.1
    have hch : ch ≠ Console.eof := fun he => heof.2 he.symm
    rw [hempty, decide_eq_false (not_not_intro rfl)] at harrival
    rw [htyped, htaken, hin, hsame]
    refine ⟨?_, ?_⟩
    · rw [decide_eq_true hch, Ideal.handled_prims, hraised]
      exact harrival.raise.congr (fun u => Ideal.past_handled) rfl
    · simp [buffered, hempty, hch]

/-- An interrupt comes. -/
theorem Inv.interrupt (h : Inv tr a) {y : ConsoleInterrupt}
    {w : Handling Console (ConsoleEvent T)} (hw : interrupt y a.data = some w) :
    Inv (tr ++ w.events) (a.handled () w) := by
  cases y with
  | writeDone =>
    simp only [SynchConsole.interrupt, Option.bind_eq_bind, Option.bind_eq_some_iff] at hw
    obtain ⟨s', hdone, hw⟩ := hw
    cases hw
    exact h.departed hdone rfl rfl
  | checkCharAvail keyboard =>
    cases keyboard with
    | none =>
      cases hw
      exact h.polled rfl rfl rfl
    | some ch =>
      simp only [SynchConsole.interrupt, Console.checkCharAvail] at hw
      split at hw
      · rename_i heq
        split at heq
        · cases heq
          cases hw
          exact h.polled rfl rfl rfl
        · cases heq
      · rename_i heq
        split at heq
        · cases heq
        · rename_i hempty
          cases heq
          cases hw
          exact h.typed (not_not.mp hempty) rfl rfl rfl

end Step

theorem inv_initial : Inv ([] : List (ConsoleEvent T))
    (.initial (fun _ => .outside) ⟨false, Console.eof, 0⟩) where
  writes := .idle nofun rfl
  busy := by simp [Ideal.initial]
  threads _ := rfl
  device := rfl
  reads _ := ⟨.nothing rfl fun t ht => (nomatch ht.1), rfl⟩

/-- The invariant is kept. -/
theorem keeps : (client (T := T)).Keeps needs
    (.initial (fun _ => .outside) ⟨false, Console.eof, 0⟩) Inv where
  start := inv_initial
  move h hg hp hv := h.move hg hp hv
  effect h hg he := h.effect hg he
  interrupt h _ hw := h.interrupt hw

section Runs
variable {multilevel : Bool} {priority : T → ℕ} {ready : List T} {tr : List (ConsoleEvent T)}
  {s : Cluster Unit T ConsolePhase Console}

theorem runs_inv (h : client.Runs (start multilevel priority ready) tr s) :
    ∃ a, Inv tr a ∧ a.Guarded client needs ∧ s.Implements a :=
  Client.invariant disciplined (fun _ => rfl) keeps h

/-- **The console is written synchronously.**  Whatever threads call `WriteConsole` and
`ReadConsole`, in whatever order they and the interrupts take their steps: `PutChar` never finds the
console busy, the console has let each character depart before it gets the next, and each
`WriteConsole` puts its character once and returns after that character has departed. -/
theorem synchConsole_writes (h : client.Runs (start multilevel priority ready) tr s) :
    (∀ t ch, s.phase ((), t) = .acquiringWrite ch → (s.kernel ()).code t = [] →
        s.data.putBusy = false) ∧
      (tr.foldl alternate (some false)).isSome = true ∧
      ∀ t, (tr.foldl (follow t) (some .idle)).isSome = true := by
  obtain ⟨a, hinv, hg, himp⟩ := runs_inv h
  refine ⟨fun t ch hphase hcode => ?_, ?_, fun t => ?_⟩
  · rw [himp.phase] at hphase
    rw [himp.data]
    refine (hinv.notBusy hg hphase ?_).1
    apply Remains.of_nil
    rw [← hcode]
    exact (himp.kernel ()).remains t
  · rw [hinv.device]
    rfl
  · rw [hinv.threads t]
    rfl

/-- **What is typed is read**, once and in order, as long as it is not the character that is `EOF`:
the characters `ReadConsole` has taken are those read in from the keyboard, but for the one in the
buffer. -/
theorem synchConsole_reads (h : client.Runs (start multilevel priority ready) tr s)
    (heof : Console.eof ∉ typed tr) : typed tr = taken tr ++ buffered s.data := by
  obtain ⟨a, hinv, -, himp⟩ := runs_inv h
  rw [himp.data]
  exact (hinv.reads heof).2

end Runs

/-- One thread writes and one reads: the writer sleeps until its character has departed, and the
reader runs in the meantime. -/
def wroteAndRead : List (Cluster.Action Unit ℕ ConsoleCall ConsoleInterrupt) :=
  [.dispatch () 0, .proceed () (.writeConsole 65), .run (), .run (), .run (),
    .proceed () .readConsole, .run (), .dispatch () 1, .proceed () .readConsole, .run (), .run (),
    .run (), .interrupt () (.checkCharAvail (some 66)), .proceed () .readConsole, .run (),
    .interrupt () .writeDone, .proceed () .readConsole, .run (), .run (),
    .proceed () .readConsole, .yield (), .dispatch () 0, .run (), .proceed () .readConsole,
    .run (), .run (), .proceed () .readConsole]

/-- The run, with what is recorded of it. -/
theorem runs_wroteAndRead : ∃ tr s, client.Runs (start true (fun _ => 0) [0, 1]) tr s ∧
    tr = [.writeConsole 0 65, .putChar 0 65, .readConsole 1, .typed 66, .departed,
      .getChar 1 66, .returned 1 66, .wrote 0] := by
  obtain ⟨r, hr⟩ : ∃ r, play client.step client.emit (start true (fun _ => 0) [0, 1])
      wroteAndRead = some r := ⟨_, rfl⟩
  refine ⟨r.1, r.2, Run.start.play hr, ?_⟩
  cases hr
  rfl

theorem synchConsole_writes_once :
    ∃ tr s, client.Runs (start true (fun _ => 0) [(0 : ℕ), 1]) tr s ∧ .wrote 0 ∈ tr ∧
      (tr.foldl alternate (some false)).isSome = true := by
  obtain ⟨tr, s, hrun, htr⟩ := runs_wroteAndRead
  exact ⟨tr, s, hrun, by simp [htr], (synchConsole_writes hrun).2.1⟩

theorem synchConsole_reads_once :
    ∃ tr s, client.Runs (start true (fun _ => 0) [(0 : ℕ), 1]) tr s ∧ typed tr = [66] ∧
      typed tr = taken tr ++ buffered s.data := by
  obtain ⟨tr, s, hrun, htr⟩ := runs_wroteAndRead
  have htyped : typed tr = [66] := by rw [htr]; rfl
  refine ⟨tr, s, hrun, htyped, synchConsole_reads hrun ?_⟩
  rw [htyped]
  decide

end SynchConsole
end PaldOs
