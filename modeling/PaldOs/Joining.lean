import PaldOs.Clients

/-! # Joining a thread

A joinable thread has a channel of its own: `Finish` sends its exit status there, and `Join`
receives it.  Here threads finish and join each other on one kernel, through the channel of
`threads/channel.cc` with its lock and its two conditions, from one routine that is called to the
next.  What is left out is what becomes of a thread after it has gone to sleep for the last time.

`Exit` is what joining is for: the status is taken once, by one `Join`, which returns it, and
`Finish` waits until it is taken.
-/
namespace PaldOs

/-- Where a thread is in `Finish` or `Join`, by the routine it has called; `u` is the thread whose
channel it uses. -/
inductive JoinPhase where
  | running
  /-- In `lock->Acquire()` of `Send`. -/
  | acquiringSend (u : ℕ) (message : ℤ)
  /-- In `conditionForReceivers->Signal()`. -/
  | signallingReceivers (u : ℕ) (message : ℤ)
  /-- In `conditionForSenders->Wait()`. -/
  | waitingSend (u : ℕ) (message msg : ℤ)
  /-- In `lock->Release()` of `Send`. -/
  | releasingSend (u : ℕ) (message : ℤ)
  /-- In the last `Sleep`. -/
  | finished (st : ℤ)
  /-- In `lock->Acquire()` of `Receive`. -/
  | acquiringReceive (u : ℕ)
  /-- In `conditionForReceivers->Wait()`. -/
  | waitingReceive (u : ℕ)
  /-- In `conditionForSenders->Signal()`. -/
  | signallingSenders (u : ℕ) (message : ℤ)
  /-- In `lock->Release()` of `Receive`. -/
  | releasingReceive (u : ℕ) (message : ℤ)
deriving DecidableEq

/-- What a running thread does next. -/
inductive JoinCall where
  | finish (st : ℤ)
  | join (u : ℕ)

/-- What is recorded of a run: the calls, the messages taken out of a channel, and the returns. -/
inductive JoinEvent where
  | finish (t : ℕ) (st : ℤ)
  | finished (t : ℕ)
  | join (t u : ℕ)
  | took (t u : ℕ) (message : ℤ)
  | joined (t u : ℕ) (value : ℤ)
deriving DecidableEq

namespace Joining

/-- `conditionForSenders` of the channel of `u`. -/
def conditionForSenders (u : ℕ) : ℕ := 2 * u

/-- `conditionForReceivers`. -/
def conditionForReceivers (u : ℕ) : ℕ := 2 * u + 1

/-- The routine called in each phase.  The lock of a channel has the number of its thread. -/
def call : JoinPhase → Option Kernel.Call
  | .running => none
  | .acquiringSend u _ => some (.acquire u)
  | .signallingReceivers u _ => some (.signal (conditionForReceivers u) u)
  | .waitingSend u _ _ => some (.wait (conditionForSenders u) u)
  | .releasingSend u _ => some (.release u)
  | .finished _ => none
  | .acquiringReceive u => some (.acquire u)
  | .waitingReceive u => some (.wait (conditionForReceivers u) u)
  | .signallingSenders u _ => some (.signal (conditionForSenders u) u)
  | .releasingReceive u _ => some (.release u)

/-- `List::Head`; `none` is a failed assertion. -/
def head : List ℤ → Option ℤ
  | [] => none
  | message :: _ => some message

/-- The test of the loop in `Send`: where to go on. -/
def sendLoop (u : ℕ) (message msg : ℤ) (buzon : List ℤ) : JoinPhase :=
  if head buzon = some msg then .waitingSend u message msg else .releasingSend u message

/-- The test of the loop in `Receive`, and `Pop`. -/
def receiveLoop (t u : ℕ) (buzon : ℕ → List ℤ) : Move JoinPhase (ℕ → List ℤ) JoinEvent :=
  match buzon u with
  | [] => ⟨.waitingReceive u, buzon, []⟩
  | message :: rest =>
      ⟨.signallingSenders u message, Function.update buzon u rest, [.took t u message]⟩

/-- `Finish` and `Join`, from one routine they call to the next. -/
def proceed (joinable : ℕ → Bool) (t : ℕ) (x : JoinCall) (p : JoinPhase) (buzon : ℕ → List ℤ) :
    Option (Move JoinPhase (ℕ → List ℤ) JoinEvent) :=
  match p with
  | .running =>
      match x with
      | .finish st =>
          if joinable t then some ⟨.acquiringSend t st, buzon, [.finish t st]⟩
          else some ⟨.finished st, buzon, [.finish t st, .finished t]⟩
      | .join u => if joinable u then some ⟨.acquiringReceive u, buzon, [.join t u]⟩ else none
  | .acquiringSend u message =>
      some ⟨.signallingReceivers u message, Function.update buzon u (buzon u ++ [message]), []⟩
  | .signallingReceivers u message => do
      -- `msg` is what `Head` gives, also where that is 0
      let msg ← head (buzon u)
      some ⟨sendLoop u message msg (buzon u), buzon, []⟩
  | .waitingSend u message msg => some ⟨sendLoop u message msg (buzon u), buzon, []⟩
  | .releasingSend _ message => some ⟨.finished message, buzon, [.finished t]⟩
  | .finished _ => none
  | .acquiringReceive u => some (receiveLoop t u buzon)
  | .waitingReceive u => some (receiveLoop t u buzon)
  | .signallingSenders u message => some ⟨.releasingReceive u message, buzon, []⟩
  | .releasingReceive u message => some ⟨.running, buzon, [.joined t u message]⟩

/-- The threads of one kernel. -/
def client (joinable : ℕ → Bool) :
    Client Unit ℕ JoinPhase (ℕ → List ℤ) JoinCall Empty JoinEvent where
  call := call
  proceed _ := proceed joinable
  interrupt _ y := nomatch y

/-- The start, with empty channels. -/
def start (multilevel : Bool) (priority : ℕ → ℕ) (ready : List ℕ) :
    Cluster Unit ℕ JoinPhase (ℕ → List ℤ) :=
  .initial multilevel (fun _ => priority) (fun _ => ready) (fun _ => .running) fun _ => []

end Joining

/-! ## What joining is for -/

/-- How far a thread is with its exit: the status it has finished with, the thread that has taken it
in `Join`, whether `Finish` has come to its end and whether that `Join` has. -/
structure Exit where
  status : Option ℤ
  taker : Option ℕ
  finished : Bool
  returned : Bool
deriving DecidableEq

namespace Exit

/-- A thread that has not finished. -/
def initial : Exit := ⟨none, none, false, false⟩

/-- The exit of thread `u` after an event; `none` where the event is out of order. -/
def next (u : ℕ) (x : Exit) : JoinEvent → Option Exit
  | .finish t st =>
      if t ≠ u then some x
      else if x.status = none then some { x with status := some st } else none
  | .finished t =>
      if t ≠ u then some x
      else if x.taker ≠ none ∧ x.finished = false then some { x with finished := true } else none
  | .join _ _ => some x
  | .took t v message =>
      if v ≠ u then some x
      else if x.status = some message ∧ x.taker = none then some { x with taker := some t }
      else none
  | .joined t v value =>
      if v ≠ u then some x
      else if x.status = some value ∧ x.taker = some t ∧ x.returned = false then
        some { x with returned := true }
      else none

theorem foldlM_singleton (u : ℕ) (x : Exit) (e : JoinEvent) :
    [e].foldlM (next u) x = next u x e := by
  rw [List.foldlM_cons]
  exact bind_pure _

/-- The exit of thread `u` after the events of a run. -/
def after (u : ℕ) (tr : List JoinEvent) : Option Exit := tr.foldlM (next u) initial

end Exit

namespace JoinPhase

/-- The status that a thread finishes with. -/
def status : JoinPhase → Option ℤ
  | .acquiringSend _ message => some message
  | .signallingReceivers _ message => some message
  | .waitingSend _ message _ => some message
  | .releasingSend _ message => some message
  | .finished st => some st
  | _ => none

/-- A thread in `Send` is on its own channel, which is there. -/
def Own (joinable : ℕ → Bool) (t : ℕ) : JoinPhase → Prop
  | .acquiringSend u _ => u = t ∧ joinable t = true
  | .signallingReceivers u _ => u = t ∧ joinable t = true
  | .waitingSend u _ _ => u = t ∧ joinable t = true
  | .releasingSend u _ => u = t ∧ joinable t = true
  | _ => True

/-- It waits for its own message to be taken. -/
def Awaits : JoinPhase → Prop
  | .waitingSend _ message msg => msg = message
  | _ => True

/-- Its message has been put into the channel. -/
def sent : JoinPhase → Bool
  | .signallingReceivers _ _ => true
  | .waitingSend _ _ _ => true
  | .releasingSend _ _ => true
  | .finished _ => true
  | _ => false

/-- Nobody can have taken the message: the thread has not let go of the lock. -/
def untaken : JoinPhase → Bool
  | .waitingSend _ _ _ => false
  | .releasingSend _ _ => false
  | .finished _ => false
  | _ => true

/-- The message has been taken: the thread has come out of the loop. -/
def delivered : JoinPhase → Bool
  | .releasingSend _ _ => true
  | .finished _ => true
  | _ => false

/-- The thread is at the end of `Finish`. -/
def atEnd : JoinPhase → Bool
  | .finished _ => true
  | _ => false

/-- The thread is in the channel of `u`, with the lock. -/
def signals (u : ℕ) : JoinPhase → Prop
  | .signallingReceivers v _ => v = u
  | .signallingSenders v _ => v = u
  | _ => False

/-- What the thread has taken out of the channel of `u` and not yet returned. -/
def taken (u : ℕ) : JoinPhase → Option ℤ
  | .signallingSenders v message => if v = u then some message else none
  | .releasingReceive v message => if v = u then some message else none
  | _ => none

end JoinPhase

namespace Joining
variable {joinable : ℕ → Bool}

/-- The lock a phase needs. -/
def needs : JoinPhase → Option ℕ
  | .acquiringSend u _ => some u
  | .signallingReceivers u _ => some u
  | .waitingSend u _ _ => some u
  | .acquiringReceive u => some u
  | .waitingReceive u => some u
  | .signallingSenders u _ => some u
  | _ => none

theorem holding_sendLoop (u : ℕ) (message msg : ℤ) (buzon : List ℤ) :
    Ideal.holding (needs (sendLoop u message msg buzon)) (call (sendLoop u message msg buzon)) =
      some u := by
  unfold sendLoop
  split <;> rfl

theorem holding_receiveLoop (t u : ℕ) (buzon : ℕ → List ℤ) :
    Ideal.holding (needs (receiveLoop t u buzon).phase) (call (receiveLoop t u buzon).phase) =
      some u := by
  unfold receiveLoop
  split <;> rfl

theorem disciplined : (client joinable).Disciplined needs where
  fits p := by cases p <;> simp [needs, client, call, Ideal.Fits, Kernel.Call.primitive]
  brings {m t x p d v} h := by
    cases p with
    | running =>
      cases x with
      | finish st =>
        simp only [client, proceed] at h
        split at h
        · cases h
          rfl
        · cases h
          rfl
      | join u =>
        simp only [client, proceed] at h
        split at h
        · cases h
          rfl
        · cases h
    | signallingReceivers u message =>
      simp only [client, proceed, Option.bind_eq_bind, Option.bind_eq_some_iff] at h
      obtain ⟨msg, -, h⟩ := h
      cases h
      exact holding_sendLoop u message msg (d u)
    | waitingSend u message msg =>
      cases h
      exact holding_sendLoop u message msg (d u)
    | acquiringReceive u | waitingReceive u =>
      cases h
      exact holding_receiveLoop t u d
    | finished => cases h
    | acquiringSend | releasingSend | signallingSenders | releasingReceive =>
      cases h
      rfl

/-! ## The invariant -/

/-- How the exit of a thread in phase `p` is, and what is in its channel. -/
structure ExitAt (x : Exit) (p : JoinPhase) (buzon : List ℤ) : Prop where
  awaits : p.Awaits
  status : x.status = p.status
  buzon : buzon = if p.sent = true ∧ x.taker = none then x.status.toList else []
  untaken : p.untaken = true → x.taker = none
  delivered : p.delivered = true → x.taker ≠ none
  finished : x.finished = p.atEnd
  returned : x.taker = none → x.returned = false

/-- How the exit of `u` is, where the threads are in these phases. -/
structure Shows (x : Exit) (u : ℕ) (phase : ℕ → JoinPhase) (buzon : List ℤ) : Prop where
  exitAt : ExitAt x (phase u) buzon
  taken : ∀ t message, (phase t).taken u = some message →
    x.status = some message ∧ x.taker = some t ∧ x.returned = false
  gone : (phase u).delivered = true → ∀ t, ¬ (phase t).signals u

/-- The invariant. -/
structure Inv (joinable : ℕ → Bool) (tr : List JoinEvent)
    (a : Ideal Unit ℕ JoinPhase (ℕ → List ℤ)) : Prop where
  own : ∀ t, (a.phase ((), t)).Own joinable t
  shows : ∀ u, joinable u = true → ∃ x, Exit.after u tr = some x ∧
    Shows x u (fun t => a.phase ((), t)) (a.data u)

/-- Phases that look the same to the exit of their thread. -/
structure Alike (p p' : JoinPhase) : Prop where
  awaits : p'.Awaits
  status : p'.status = p.status
  sent : p'.sent = p.sent
  untaken : p'.untaken = true → p.untaken = true
  delivered : p'.delivered = true → p.delivered = true
  atEnd : p'.atEnd = p.atEnd

section Step
variable {x x' : Exit} {u t : ℕ} {p p' : JoinPhase} {phase : ℕ → JoinPhase} {b b' : List ℤ}

theorem ExitAt.alike (h : ExitAt x p b) (hp : Alike p p') : ExitAt x p' b where
  awaits := hp.awaits
  status := h.status.trans hp.status.symm
  buzon := by
    rw [hp.sent]
    exact h.buzon
  untaken hu := h.untaken (hp.untaken hu)
  delivered hd := h.delivered (hp.delivered hd)
  finished := h.finished.trans hp.atEnd.symm
  returned := h.returned

/-- A thread moves. -/
theorem Shows.moved (hself : ExitAt x' (Function.update phase t p' u) b')
    (hothers : ∀ s, s ≠ t → ∀ message, (phase s).taken u = some message →
      x'.status = some message ∧ x'.taker = some s ∧ x'.returned = false)
    (hmover : ∀ message, p'.taken u = some message →
      x'.status = some message ∧ x'.taker = some t ∧ x'.returned = false)
    (hgone : (Function.update phase t p' u).delivered = true →
      ¬ p'.signals u ∧ ∀ s, s ≠ t → ¬ (phase s).signals u) :
    Shows x' u (Function.update phase t p') b' := by
  refine ⟨hself, fun s message hs => ?_, fun hdelivered s => ?_⟩
  · by_cases hst : s = t
    · subst hst
      rw [Function.update_self] at hs
      exact hmover message hs
    · rw [Function.update_of_ne hst] at hs
      exact hothers s hst message hs
  · obtain ⟨hmine, hrest⟩ := hgone hdelivered
    by_cases hst : s = t
    · subst hst
      rwa [Function.update_self]
    · rw [Function.update_of_ne hst]
      exact hrest s hst

/-- A thread that goes on does not come back to signal on a channel that is done with. -/
theorem Shows.gone_moved (h : Shows x u phase b)
    (hp : t = u → p'.delivered = true → (phase t).delivered = true)
    (hsignals : (phase u).delivered = true → ¬ p'.signals u) :
    (Function.update phase t p' u).delivered = true →
      ¬ p'.signals u ∧ ∀ s, s ≠ t → ¬ (phase s).signals u := by
  intro hdelivered
  have hbefore : (phase u).delivered = true := by
    by_cases htu : t = u
    · subst htu
      rw [Function.update_self] at hdelivered
      exact hp rfl hdelivered
    · rwa [Function.update_of_ne (Ne.symm htu)] at hdelivered
  exact ⟨hsignals hbefore, fun s _ => h.gone hbefore s⟩

/-- A move that the exit of `u` does not see. -/
theorem Shows.quiet (h : Shows x u phase b) (hp : t = u → Alike (phase t) p')
    (htaken : p'.taken u = none ∨ p'.taken u = (phase t).taken u) (hsignals : ¬ p'.signals u) :
    Shows x u (Function.update phase t p') b := by
  refine .moved ?_ (fun s _ => h.taken s) (fun message hm => ?_)
    (h.gone_moved (fun htu => (hp htu).delivered) fun _ => hsignals)
  · by_cases htu : t = u
    · subst htu
      rw [Function.update_self]
      exact h.exitAt.alike (hp rfl)
    · rw [Function.update_of_ne (Ne.symm htu)]
      exact h.exitAt
  · cases htaken with
    | inl hnone =>
      rw [hnone] at hm
      cases hm
    | inr hsame =>
      rw [hsame] at hm
      exact h.taken t message hm

/-- A thread that has not sent has nothing in its channel. -/
theorem ExitAt.empty (h : ExitAt x p b) (hp : p.sent = false) : b = [] := by
  rw [h.buzon, if_neg]
  rw [hp]
  exact fun hsent => Bool.false_ne_true hsent.1

/-- A message in a channel is the status of its thread, and nobody has taken it. -/
theorem ExitAt.message (h : ExitAt x p b) {message : ℤ} {rest : List ℤ}
    (hb : b = message :: rest) :
    p.sent = true ∧ x.taker = none ∧ x.status = some message ∧ rest = [] := by
  have hbuzon := h.buzon
  rw [hb] at hbuzon
  split at hbuzon
  · rename_i hsent
    cases hstatus : x.status with
    | none =>
      rw [hstatus] at hbuzon
      cases hbuzon
    | some st =>
      rw [hstatus] at hbuzon
      cases hbuzon
      exact ⟨hsent.1, hsent.2, rfl, rfl⟩
  · cases hbuzon

end Step

section Move
variable {tr : List JoinEvent} {a : Ideal Unit ℕ JoinPhase (ℕ → List ℤ)} {x : Exit} {u t v : ℕ}
  {p' : JoinPhase} {phase : ℕ → JoinPhase} {buzon : ℕ → List ℤ} {message msg : ℤ}

/-- The phases after a move. -/
theorem phase_moved (w : Move JoinPhase (ℕ → List ℤ) JoinEvent) :
    (fun s => (a.moved (client joinable) () t w).phase ((), s)) =
      Function.update (fun s => a.phase ((), s)) t w.phase := by
  funext s
  by_cases hst : s = t
  · subst hst
    rw [Ideal.moved_phase, Function.update_self, Function.update_self]
  · rw [Function.update_of_ne hst, Ideal.moved_phase, Function.update_of_ne]
    intro h
    exact hst (congrArg Prod.snd h)

theorem own_sendLoop {b : List ℤ} (h : joinable t = true) :
    (sendLoop t message msg b).Own joinable t := by
  unfold sendLoop
  split
  · exact ⟨rfl, h⟩
  · exact ⟨rfl, h⟩

/-- What has to be shown of a move. -/
theorem Inv.moved (h : Inv joinable tr a) {w : Move JoinPhase (ℕ → List ℤ) JoinEvent}
    (hown : w.phase.Own joinable t)
    (hshows : ∀ u x, joinable u = true → Shows x u (fun s => a.phase ((), s)) (a.data u) →
      ∃ x', w.events.foldlM (Exit.next u) x = some x' ∧
        Shows x' u (Function.update (fun s => a.phase ((), s)) t w.phase) (w.data u)) :
    Inv joinable (tr ++ w.events) (a.moved (client joinable) () t w) where
  own s := by
    have hphase : (a.moved (client joinable) () t w).phase ((), s) =
        Function.update (fun s => a.phase ((), s)) t w.phase s := congrFun (phase_moved w) s
    rw [hphase]
    by_cases hst : s = t
    · subst hst
      rwa [Function.update_self]
    · rw [Function.update_of_ne hst]
      exact h.own s
  shows u hu := by
    obtain ⟨x, hx, hs⟩ := h.shows u hu
    obtain ⟨x', hx', hs'⟩ := hshows u x hu hs
    refine ⟨x', ?_, ?_⟩
    · rw [Exit.after, List.foldlM_append]
      show (Exit.after u tr).bind _ = _
      rw [hx]
      exact hx'
    · rw [phase_moved]
      exact hs'

/-- `Finish` is called. -/
theorem Shows.finish (h : Shows x u phase (buzon u)) (hphase : phase t = .running) (st : ℤ) :
    ∃ x', Exit.next u x (.finish t st) = some x' ∧
      Shows x' u (Function.update phase t (.acquiringSend t st)) (buzon u) := by
  by_cases htu : t = u
  · subst htu
    have hexit := h.exitAt
    rw [hphase] at hexit
    have hstatus : x.status = none := hexit.status
    have htaker : x.taker = none := hexit.untaken rfl
    refine ⟨{ x with status := some st }, ?_, .moved ?_ (fun s _ message hs => ?_) nofun
      (h.gone_moved (fun _ => nofun) fun _ => not_false)⟩
    · rw [Exit.next, if_neg (not_not.mpr rfl), if_pos hstatus]
    · rw [Function.update_self]
      refine ⟨trivial, rfl, ?_, fun _ => htaker, nofun, hexit.finished, hexit.returned⟩
      rw [hexit.empty rfl, if_neg (fun hsent => Bool.false_ne_true hsent.1)]
    · have htaken := (h.taken s message hs).1
      rw [hstatus] at htaken
      cases htaken
  · exact ⟨x, if_pos htu, h.quiet (fun heq => absurd heq htu) (Or.inl rfl) not_false⟩

/-- The message is put into the channel. -/
theorem Shows.append (h : Shows x u phase (buzon u)) (hphase : phase t = .acquiringSend t message) :
    Shows x u (Function.update phase t (.signallingReceivers t message))
      (Function.update buzon t (buzon t ++ [message]) u) := by
  by_cases htu : t = u
  · subst htu
    have hexit := h.exitAt
    rw [hphase] at hexit
    have htaker : x.taker = none := hexit.untaken rfl
    have hstatus : x.status = some message := hexit.status
    have hnot : (phase t).delivered ≠ true := by
      rw [hphase]
      exact Bool.false_ne_true
    refine .moved ?_ (fun s _ => h.taken s) nofun
      (h.gone_moved (fun _ => nofun) fun hdelivered => absurd hdelivered hnot)
    rw [Function.update_self, Function.update_self]
    refine ⟨trivial, hstatus, ?_, fun _ => htaker, nofun, hexit.finished, hexit.returned⟩
    rw [hexit.empty rfl, if_pos ⟨rfl, htaker⟩, hstatus]
    rfl
  · rw [Function.update_of_ne (Ne.symm htu)]
    exact h.quiet (fun heq => absurd heq htu) (Or.inl rfl) htu

/-- The loop of `Send` goes on as long as the message is in the channel. -/
theorem Shows.sendLoop (h : Shows x u phase (buzon u)) (hsent : (phase t).sent = true)
    (hstatus : (phase t).status = some message) (hend : (phase t).atEnd = false)
    (hmsg : t = u → msg = message) (hgone : t = u → ∀ s, s ≠ t → ¬ (phase s).signals u) :
    Shows x u (Function.update phase t (sendLoop t message msg (buzon t))) (buzon u) := by
  have hsignals : ¬ (Joining.sendLoop t message msg (buzon t)).signals u := by
    unfold Joining.sendLoop
    split <;> exact not_false
  refine .moved ?_ (fun s _ => h.taken s) (fun m hm => ?_) fun hdelivered => ?_
  · by_cases htu : t = u
    · subst htu
      rw [Function.update_self, hmsg rfl]
      have hexit := h.exitAt
      have hbuzon := hexit.buzon
      rw [hexit.status, hstatus, hsent] at hbuzon
      by_cases htaker : x.taker = none
      · have hhead : head (buzon t) = some message := by
          rw [hbuzon, if_pos ⟨rfl, htaker⟩]
          rfl
        rw [Joining.sendLoop, if_pos hhead]
        refine ⟨rfl, hexit.status.trans hstatus, ?_, nofun, nofun, hexit.finished.trans hend,
          hexit.returned⟩
        rw [if_pos ⟨rfl, htaker⟩, hexit.status, hstatus, hbuzon, if_pos ⟨rfl, htaker⟩]
      · have hempty : buzon t = [] := by
          rw [hbuzon, if_neg fun hnone => htaker hnone.2]
        rw [Joining.sendLoop, if_neg (by rw [hempty]; nofun)]
        refine ⟨trivial, hexit.status.trans hstatus, ?_, nofun, fun _ => htaker,
          hexit.finished.trans hend, hexit.returned⟩
        rw [if_neg fun hnone => htaker hnone.2, hempty]
    · rw [Function.update_of_ne (Ne.symm htu)]
      exact h.exitAt
  · unfold Joining.sendLoop at hm
    split at hm
    · cases hm
    · cases hm
  · by_cases htu : t = u
    · exact ⟨hsignals, hgone htu⟩
    · rw [Function.update_of_ne (Ne.symm htu)] at hdelivered
      exact ⟨hsignals, fun s _ => h.gone hdelivered s⟩

/-- `Finish` comes to its end. -/
theorem Shows.finished (h : Shows x u phase (buzon u))
    (hphase : phase t = .releasingSend t message) :
    ∃ x', Exit.next u x (.finished t) = some x' ∧
      Shows x' u (Function.update phase t (.finished message)) (buzon u) := by
  by_cases htu : t = u
  · subst htu
    have hexit := h.exitAt
    rw [hphase] at hexit
    have htaker : x.taker ≠ none := hexit.delivered rfl
    have hdelivered : (phase t).delivered = true := by
      rw [hphase]
      rfl
    refine ⟨{ x with finished := true }, ?_, .moved ?_ (fun s _ => h.taken s) nofun
      (h.gone_moved (fun _ _ => hdelivered) fun _ => not_false)⟩
    · rw [Exit.next, if_neg (not_not.mpr rfl), if_pos ⟨htaker, hexit.finished⟩]
    · rw [Function.update_self]
      exact ⟨trivial, hexit.status, hexit.buzon, nofun, fun _ => htaker, rfl, hexit.returned⟩
  · exact ⟨x, if_pos htu, h.quiet (fun heq => absurd heq htu) (Or.inl rfl) not_false⟩

/-- A thread that has not sent looks the same in all of `Join`. -/
theorem alike_receiving {p p' : JoinPhase} (hp : p.status = none) (hp' : p'.status = none) :
    Alike p p' := by
  cases p with
  | acquiringSend | signallingReceivers | waitingSend | releasingSend | finished => cases hp
  | running | acquiringReceive | waitingReceive | signallingSenders | releasingReceive =>
    cases p' with
    | acquiringSend | signallingReceivers | waitingSend | releasingSend | finished => cases hp'
    | running | acquiringReceive | waitingReceive | signallingSenders | releasingReceive =>
      exact ⟨trivial, rfl, rfl, fun _ => rfl, nofun, rfl⟩

/-- A message is taken out of the channel of `v`, whose thread has let go of the lock. -/
theorem Shows.receiveLoop (h : Shows x u phase (buzon u)) (hphase : (phase t).status = none)
    (hlock : u = v → (phase u).sent = true → (phase u).untaken = false) :
    ∃ x', (receiveLoop t v buzon).events.foldlM (Exit.next u) x = some x' ∧
      Shows x' u (Function.update phase t (receiveLoop t v buzon).phase)
        ((receiveLoop t v buzon).data u) := by
  unfold Joining.receiveLoop
  split
  · exact ⟨x, rfl, h.quiet (fun _ => alike_receiving hphase rfl) (Or.inl rfl) not_false⟩
  · rename_i message rest hb
    by_cases hvu : v = u
    · subst hvu
      obtain ⟨hsent, htaker, hstatus, hrest⟩ := h.exitAt.message hb
      have hreturned := h.exitAt.returned htaker
      have hne : v ≠ t := by
        intro heq
        subst heq
        have hsome := h.exitAt.status
        rw [hphase, hstatus] at hsome
        cases hsome
      refine ⟨{ x with taker := some t }, ?_, .moved ?_ (fun s _ m hs => ?_)
        (fun m hm => ?_) (h.gone_moved (fun heq => absurd heq.symm hne) fun hdelivered => ?_)⟩
      · rw [Exit.foldlM_singleton, Exit.next, if_neg (not_not.mpr rfl), if_pos ⟨hstatus, htaker⟩]
      · show ExitAt _ _ (Function.update buzon v rest v)
        rw [Function.update_of_ne hne, Function.update_self]
        refine ⟨h.exitAt.awaits, h.exitAt.status, ?_, fun huntaken => ?_, nofun,
          h.exitAt.finished, nofun⟩
        · rw [if_neg fun hnone => nomatch hnone.2]
          exact hrest
        · rw [hlock rfl hsent] at huntaken
          cases huntaken
      · have hsome := (h.taken s m hs).2.1
        rw [htaker] at hsome
        cases hsome
      · simp only [JoinPhase.taken, if_true, Option.some.injEq] at hm
        subst hm
        exact ⟨hstatus, rfl, hreturned⟩
      · exact absurd htaker (h.exitAt.delivered hdelivered)
    · refine ⟨x, ?_, ?_⟩
      · rw [Exit.foldlM_singleton, Exit.next, if_pos hvu]
      · show Shows x u _ (Function.update buzon v rest u)
        rw [Function.update_of_ne (Ne.symm hvu)]
        exact h.quiet (fun _ => alike_receiving hphase rfl) (Or.inl (if_neg hvu)) hvu

/-- `Join` returns. -/
theorem Shows.joined (h : Shows x u phase (buzon u))
    (hphase : phase t = .releasingReceive v message) :
    ∃ x', Exit.next u x (.joined t v message) = some x' ∧
      Shows x' u (Function.update phase t .running) (buzon u) := by
  by_cases hvu : v = u
  · subst hvu
    obtain ⟨hstatus, htaker, hreturned⟩ := h.taken t message (by rw [hphase]; exact if_pos rfl)
    refine ⟨{ x with returned := true }, ?_, .moved ?_ (fun s hst m hs => ?_) nofun
      (h.gone_moved (fun _ => nofun) fun _ => not_false)⟩
    · rw [Exit.next, if_neg (not_not.mpr rfl), if_pos ⟨hstatus, htaker, hreturned⟩]
    · have hexit : ExitAt x (Function.update phase t .running v) (buzon v) := by
        by_cases htv : t = v
        · subst htv
          rw [Function.update_self]
          exact h.exitAt.alike (alike_receiving (by rw [hphase]; rfl) rfl)
        · rw [Function.update_of_ne (Ne.symm htv)]
          exact h.exitAt
      refine ⟨hexit.awaits, hexit.status, hexit.buzon, hexit.untaken, hexit.delivered,
        hexit.finished, fun hnone => ?_⟩
      have hsome : x.taker = none := hnone
      rw [htaker] at hsome
      cases hsome
    · have hother := (h.taken s m hs).2.1
      rw [htaker] at hother
      cases hother
      exact absurd rfl hst
  · exact ⟨x, if_pos hvu,
      h.quiet (fun _ => alike_receiving (by rw [hphase]; rfl) rfl) (Or.inl rfl) not_false⟩

end Move

section Runs
variable {tr : List JoinEvent} {a : Ideal Unit ℕ JoinPhase (ℕ → List ℤ)} {t v : ℕ}

/-- A thread that goes on with the lock of a channel is the only one to signal there. -/
theorem eq_of_signals (hg : a.Guarded (client joinable) needs) (hp : (a.prims ()).pending t = none)
    (ht : needs (a.phase ((), t)) = some v) {s : ℕ} (hs : (a.phase ((), s)).signals v) : s = t := by
  apply hg.alone ht hp
  have hc := hg.inCall () s
  cases hphase : a.phase ((), s) with
  | signallingReceivers u message | signallingSenders u message =>
    rw [hphase] at hc hs
    have huv : u = v := hs
    subst huv
    rcases hc.made_or nofun with hps | hps
    · rw [hps]
      rfl
    · rw [hps]
      rfl
  | running | acquiringSend | waitingSend | releasingSend | finished | acquiringReceive
  | waitingReceive | releasingReceive =>
    rw [hphase] at hs
    exact hs.elim

/-- Who has put its message into the channel and not let go of the lock signals there. -/
theorem signals_of_untaken {p : JoinPhase} (hown : p.Own joinable v) (hsent : p.sent = true)
    (huntaken : p.untaken = true) : p.signals v := by
  cases p with
  | signallingReceivers u message => exact hown.1
  | waitingSend | releasingSend | finished => cases huntaken
  | running | acquiringSend | acquiringReceive | waitingReceive | signallingSenders
  | releasingReceive => cases hsent

theorem status_of_sent {p : JoinPhase} (hsent : p.sent = true) : p.status ≠ none := by
  cases p with
  | signallingReceivers | waitingSend | releasingSend | finished => exact nofun
  | running | acquiringSend | acquiringReceive | waitingReceive | signallingSenders
  | releasingReceive => cases hsent

/-- A move keeps the invariant. -/
theorem Inv.move (h : Inv joinable tr a) (hg : a.Guarded (client joinable) needs)
    (hp : (a.prims ()).pending t = none) {x : JoinCall}
    {w : Move JoinPhase (ℕ → List ℤ) JoinEvent}
    (hw : proceed joinable t x (a.phase ((), t)) a.data = some w) :
    Inv joinable (tr ++ w.events) (a.moved (client joinable) () t w) := by
  have hown := h.own t
  have hreceive : ∀ v, needs (a.phase ((), t)) = some v → (a.phase ((), t)).status = none →
      ∀ u, u = v → (a.phase ((), u)).sent = true → (a.phase ((), u)).untaken = false := by
    intro v hneeds hstatus u huv hsent
    subst huv
    by_contra huntaken
    have hsignals := signals_of_untaken (h.own u) hsent (Bool.eq_true_of_not_eq_false huntaken)
    have hut : u = t := eq_of_signals hg hp hneeds hsignals
    subst hut
    exact status_of_sent hsent hstatus
  cases hphase : a.phase ((), t) with
  | running =>
    rw [hphase] at hw
    cases x with
    | finish st =>
      simp only [proceed] at hw
      split at hw
      · rename_i hjoinable
        cases hw
        refine h.moved ⟨rfl, hjoinable⟩ fun u y _ hs => ?_
        rw [Exit.foldlM_singleton]
        exact hs.finish hphase st
      · rename_i hnot
        cases hw
        refine h.moved trivial fun u y hu hs => ?_
        have htu : t ≠ u := by
          intro heq
          rw [heq] at hnot
          exact hnot hu
        refine ⟨y, ?_, hs.quiet (fun heq => absurd heq htu) (Or.inl rfl) not_false⟩
        rw [List.foldlM_cons, Exit.next, if_pos htu]
        show List.foldlM (Exit.next u) y [.finished t] = _
        rw [Exit.foldlM_singleton, Exit.next, if_pos htu]
    | join v =>
      simp only [proceed] at hw
      split at hw
      · cases hw
        refine h.moved trivial fun u y _ hs => ⟨y, rfl, ?_⟩
        exact hs.quiet (fun _ => alike_receiving (by rw [hphase]; rfl) rfl) (Or.inl rfl) not_false
      · cases hw
  | acquiringSend v message =>
    rw [hphase] at hw hown
    obtain ⟨rfl, hjoinable⟩ : v = t ∧ joinable t = true := hown
    cases hw
    exact h.moved ⟨rfl, hjoinable⟩ fun u y _ hs => ⟨y, rfl, hs.append hphase⟩
  | signallingReceivers v message =>
    rw [hphase] at hw hown
    obtain ⟨rfl, hjoinable⟩ : v = t ∧ joinable t = true := hown
    simp only [proceed, Option.bind_eq_bind, Option.bind_eq_some_iff] at hw
    obtain ⟨msg, hhead, hw⟩ := hw
    cases hw
    refine h.moved (own_sendLoop hjoinable) fun u y _ hs => ⟨y, rfl, ?_⟩
    · refine hs.sendLoop (by rw [hphase]; rfl) (by rw [hphase]; rfl) (by rw [hphase]; rfl) ?_
        fun hvu s hsv hsignals => hsv (eq_of_signals hg hp (by rw [hphase]; rfl) (hvu ▸ hsignals))
      intro hvu
      subst hvu
      cases hb : a.data v with
      | nil =>
        rw [hb] at hhead
        cases hhead
      | cons m rest =>
        rw [hb] at hhead
        cases hhead
        have hexit := hs.exitAt
        obtain ⟨-, -, hstatus, -⟩ := hexit.message hb
        rw [hexit.status, hphase] at hstatus
        exact (Option.some.inj hstatus).symm
  | waitingSend v message msg =>
    rw [hphase] at hw hown
    obtain ⟨rfl, hjoinable⟩ : v = t ∧ joinable t = true := hown
    cases hw
    refine h.moved (own_sendLoop hjoinable) fun u y _ hs => ⟨y, rfl, ?_⟩
    · refine hs.sendLoop (by rw [hphase]; rfl) (by rw [hphase]; rfl) (by rw [hphase]; rfl) ?_
        fun hvu s hsv hsignals => hsv (eq_of_signals hg hp (by rw [hphase]; rfl) (hvu ▸ hsignals))
      intro hvu
      subst hvu
      have hawaits := hs.exitAt.awaits
      rw [hphase] at hawaits
      exact hawaits
  | releasingSend v message =>
    rw [hphase] at hw hown
    obtain ⟨rfl, hjoinable⟩ : v = t ∧ joinable t = true := hown
    cases hw
    refine h.moved trivial fun u y _ hs => ?_
    rw [Exit.foldlM_singleton]
    exact hs.finished hphase
  | finished st =>
    rw [hphase] at hw
    cases hw
  | acquiringReceive v | waitingReceive v =>
    rw [hphase] at hw hreceive
    cases hw
    refine h.moved ?_ fun u y _ hs => ?_
    · unfold receiveLoop
      split <;> exact trivial
    · exact hs.receiveLoop (by rw [hphase]; rfl) (hreceive v rfl rfl u)
  | signallingSenders v message =>
    rw [hphase] at hw
    cases hw
    refine h.moved trivial fun u y _ hs => ⟨y, rfl, ?_⟩
    exact hs.quiet (fun _ => alike_receiving (by rw [hphase]; rfl) rfl)
      (Or.inr (by rw [hphase]; rfl)) not_false
  | releasingReceive v message =>
    rw [hphase] at hw
    cases hw
    refine h.moved trivial fun u y _ hs => ?_
    rw [Exit.foldlM_singleton]
    exact hs.joined hphase

/-- The invariant is kept. -/
theorem keeps : (client joinable).Keeps needs (.initial (fun _ => .running) fun _ => [])
    (Inv joinable) where
  start := by
    refine ⟨fun _ => trivial, fun u _ => ⟨.initial, rfl, ?_, nofun, nofun⟩⟩
    exact ⟨trivial, rfl, rfl, fun _ => rfl, nofun, rfl, fun _ => rfl⟩
  move h hg hp hv := h.move hg hp hv
  effect h _ _ := ⟨h.own, h.shows⟩
  interrupt {_ _ _ y _} _ _ _ := nomatch y

/-- The message of a thread that has not let go of the lock is in its channel. -/
theorem Inv.head (h : Inv joinable tr a) {message : ℤ}
    (hphase : a.phase ((), t) = .signallingReceivers v message) :
    Joining.head (a.data v) = some message := by
  have hown := h.own t
  rw [hphase] at hown
  obtain ⟨rfl, hjoinable⟩ : v = t ∧ joinable t = true := hown
  obtain ⟨x, -, hs⟩ := h.shows v hjoinable
  have hexit := hs.exitAt
  rw [hphase] at hexit
  have hstatus : x.status = some message := hexit.status
  rw [hexit.buzon, if_pos ⟨rfl, hexit.untaken rfl⟩, hstatus]
  rfl

variable {multilevel : Bool} {priority : ℕ → ℕ} {ready : List ℕ}
  {s : Cluster Unit ℕ JoinPhase (ℕ → List ℤ)}

/-- **Joining hands over the exit status.**  Whatever threads finish and join each other, in
whatever order they take their steps: the status of a joinable thread is taken once, by one `Join`,
which returns it, and `Finish` comes to its end after it is taken, when that `Join` has let go of
the channel; and no assertion fails but that of a thread that is not joinable. -/
theorem join_synchronises
    (h : (client joinable).Runs (start multilevel priority ready) tr s) :
    (∀ u, joinable u = true → (Exit.after u tr).isSome = true ∧
        ∀ st, s.phase ((), u) = .finished st →
          ∀ t message, s.phase ((), t) ≠ .signallingSenders u message) ∧
      ∀ t x, (∀ st, s.phase ((), t) ≠ .finished st) → (∀ u, x = .join u → joinable u = true) →
        (proceed joinable t x (s.phase ((), t)) s.data).isSome = true := by
  obtain ⟨a, hinv, -, himp⟩ := Client.invariant disciplined (fun _ => rfl) keeps h
  refine ⟨fun u hu => ?_, fun t x hend hx => ?_⟩
  · obtain ⟨y, hy, hs⟩ := hinv.shows u hu
    refine ⟨by rw [hy]; rfl, fun st hst t message ht => ?_⟩
    rw [himp.phase] at hst ht
    refine hs.gone ?_ t ?_
    · show (a.phase ((), u)).delivered = true
      rw [hst]
      rfl
    · show (a.phase ((), t)).signals u
      rw [ht]
      rfl
  · rw [himp.phase] at hend ⊢
    rw [himp.data]
    cases hphase : a.phase ((), t) with
    | running =>
      cases x with
      | finish st =>
        simp only [proceed]
        split <;> rfl
      | join u => rw [proceed, if_pos (hx u rfl)]; rfl
    | finished st => exact absurd hphase (hend st)
    | signallingReceivers v message =>
      simp only [proceed, hinv.head hphase]
      rfl
    | acquiringSend | waitingSend | releasingSend | acquiringReceive | waitingReceive
    | signallingSenders | releasingReceive => rfl

end Runs

/-- A thread waits for another, which finishes, and both come to their ends. -/
def joinedRun : List (Cluster.Action Unit ℕ JoinCall Empty) :=
  [.dispatch () 0, .proceed () (.join 1), .run (), .run (), .run (), .proceed () (.join 1), .run (),
    .run (), .run (), .run (), .dispatch () 1, .proceed () (.finish 7), .run (), .run (), .run (),
    .proceed () (.join 0), .run (), .run (), .proceed () (.join 0), .run (), .run (), .run (),
    .run (), .dispatch () 0, .run (), .run (), .run (), .run (), .proceed () (.join 1), .run (),
    .run (), .proceed () (.join 1), .run (), .run (), .proceed () (.join 1), .yield (),
    .dispatch () 1, .run (), .run (), .run (), .run (), .proceed () (.join 0), .run (), .run (),
    .proceed () (.join 0)]

theorem join_synchronises_waiting :
    ∃ tr s, (client fun _ => true).Runs (start true (fun _ => 0) [0, 1]) tr s ∧
      tr = [.join 0 1, .finish 1 7, .took 0 1 7, .joined 0 1 7, .finished 1] ∧
      (Exit.after 1 tr).isSome = true := by
  obtain ⟨r, hr⟩ : ∃ r, play (client fun _ => true).step (client fun _ => true).emit
      (start true (fun _ => 0) [0, 1]) joinedRun = some r := ⟨_, rfl⟩
  have hrun : (client fun _ => true).Runs (start true (fun _ => 0) [0, 1]) r.1 r.2 :=
    Run.start.play hr
  refine ⟨r.1, r.2, hrun, ?_, ((join_synchronises hrun).1 1 rfl).1⟩
  cases hr
  rfl

end Joining

end PaldOs
