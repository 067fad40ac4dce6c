import Mathlib.Data.List.Basic
import Mathlib.Tactic.Common

/-! # Runs of a machine

A machine is given by a step function on its states, `none` where an action is
not possible, and by the events an action emits.  A run from a start state is
the list of events emitted so far together with the state reached.  A guard
restricts the actions taken by a condition on the run so far and the state they
are taken in; `Run.mono` relaxes it.  Invariants are proved by `Run.invariant`:
they hold at the start and are kept by every guarded step.
-/
namespace PaldOs

variable {σ α ε : Type}

/-- The runs of the machine `step` from `start` that take only actions allowed by
`guard`: the events emitted, in order, and the state reached. -/
inductive Run (step : σ → α → Option σ) (emit : σ → α → List ε) (guard : List ε → σ → α → Prop)
    (start : σ) : List ε → σ → Prop
  | start : Run step emit guard start [] start
  | next {tr : List ε} {s s' : σ} (a : α) : Run step emit guard start tr s → guard tr s a →
      step s a = some s' → Run step emit guard start (tr ++ emit s a) s'

namespace Run
variable {step : σ → α → Option σ} {emit : σ → α → List ε} {guard guard' : List ε → σ → α → Prop}
  {start : σ}

/-- **The invariant rule.** -/
theorem invariant {I : List ε → σ → Prop} (h0 : I [] start)
    (hstep : ∀ tr s a s', I tr s → guard tr s a → step s a = some s' → I (tr ++ emit s a) s')
    {tr : List ε} {s : σ} (h : Run step emit guard start tr s) : I tr s := by
  induction h with
  | start => exact h0
  | next a _ hg hs ih => exact hstep _ _ a _ ih hg hs

/-- A run under a guard is a run under any weaker one. -/
theorem mono (hg : ∀ tr s a, guard tr s a → guard' tr s a) {tr : List ε} {s : σ}
    (h : Run step emit guard start tr s) : Run step emit guard' start tr s := by
  induction h with
  | start => exact .start
  | next a _ hga hs ih => exact .next a ih (hg _ _ _ hga) hs

/-- The same steps, with other events. -/
theorem reemit {ε' : Type} (emit' : σ → α → List ε') {tr : List ε} {s : σ}
    (h : Run step emit (fun _ _ _ => True) start tr s) :
    ∃ tr', Run step emit' (fun _ _ _ => True) start tr' s := by
  induction h with
  | start => exact ⟨[], .start⟩
  | next a _ _ hs ih =>
    obtain ⟨tr', h'⟩ := ih
    exact ⟨_, h'.next a trivial hs⟩

/-- One run after another. -/
theorem append {tr es : List ε} {s s' : σ} (h : Run step emit (fun _ _ _ => True) start tr s)
    (h' : Run step emit (fun _ _ _ => True) s es s') :
    Run step emit (fun _ _ _ => True) start (tr ++ es) s' := by
  induction h' with
  | start =>
    rw [List.append_nil]
    exact h
  | next a _ _ hs ih =>
    rw [← List.append_assoc]
    exact ih.next a trivial hs

/-- A run of the machine that stops where `ok` fails is a run guarded by `ok`. -/
theorem of_restrict {ok : σ → α → Bool} {tr : List ε} {s : σ}
    (h : Run (fun s a => if ok s a = true then step s a else none) emit (fun _ _ _ => True)
      start tr s) : Run step emit (fun _ s a => ok s a = true) start tr s := by
  induction h with
  | start => exact .start
  | next a _ _ hs ih =>
    split at hs
    · rename_i hok
      exact .next a ih hok hs
    · cases hs

end Run

/-- The state after a list of actions, with the events they emit. -/
def play (step : σ → α → Option σ) (emit : σ → α → List ε) : σ → List α → Option (List ε × σ)
  | s, [] => some ([], s)
  | s, a :: as => do
      let s' ← step s a
      let r ← play step emit s' as
      return (emit s a ++ r.1, r.2)

/-- Playing actions from the end of a run extends the run. -/
theorem Run.play {step : σ → α → Option σ} {emit : σ → α → List ε} {start : σ}
    {tr : List ε} {s : σ} (h : Run step emit (fun _ _ _ => True) start tr s) {as : List α}
    {r : List ε × σ} (hp : PaldOs.play step emit s as = some r) :
    Run step emit (fun _ _ _ => True) start (tr ++ r.1) r.2 := by
  induction as generalizing tr s r with
  | nil =>
    cases hp
    simpa using h
  | cons a as ih =>
    simp only [PaldOs.play, Option.bind_eq_bind, Option.bind_eq_some_iff, Option.pure_def,
      Option.some.injEq] at hp
    obtain ⟨s', hs, r', hr, rfl⟩ := hp
    have := ih (h.next a trivial hs) hr
    rwa [List.append_assoc] at this

/-- The same, where a check that sees the events so far allows each action. -/
def playChecked (step : σ → α → Option σ) (emit : σ → α → List ε) (ok : List ε → σ → α → Bool) :
    List ε → σ → List α → Option (List ε × σ)
  | tr, s, [] => some (tr, s)
  | tr, s, a :: as =>
      if ok tr s a then do
        let s' ← step s a
        playChecked step emit ok (tr ++ emit s a) s' as
      else none

/-- Playing checked actions extends a run that is guarded by the check. -/
theorem Run.playChecked {step : σ → α → Option σ} {emit : σ → α → List ε}
    {ok : List ε → σ → α → Bool} {start : σ} {tr : List ε} {s : σ}
    (h : Run step emit (fun tr s a => ok tr s a = true) start tr s) {as : List α}
    {r : List ε × σ} (hp : PaldOs.playChecked step emit ok tr s as = some r) :
    Run step emit (fun tr s a => ok tr s a = true) start r.1 r.2 := by
  induction as generalizing tr s with
  | nil =>
    cases hp
    exact h
  | cons a as ih =>
    simp only [PaldOs.playChecked] at hp
    split at hp
    · rename_i hok
      simp only [Option.bind_eq_bind, Option.bind_eq_some_iff] at hp
      obtain ⟨s', hs, hr⟩ := hp
      exact ih (h.next a hok hs) hr
    · cases hp

end PaldOs
