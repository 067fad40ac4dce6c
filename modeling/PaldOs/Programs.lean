import Mathlib.Data.List.Basic
import Mathlib.Tactic.Common

/-! # Programs of atomic accesses

A program is finished, or makes one access to the state it shares with others and
goes on with what the access returned.  `act` says what an access does: it returns
something and changes the state, or is not possible, because the program has to wait
there or because nothing sensible happens.

Run alone, a program takes a state to a result and a state.  `Ends` says that it
gets to its end, and what holds there; it is the weakest precondition of the program,
and the rules below take it apart along the program text.
-/
namespace PaldOs

/-- A program with a result in `α`; access `o` returns a value of type `ρ o`. -/
inductive Prog {ω : Type} (ρ : ω → Type) (α : Type) : Type
  | done (a : α) : Prog ρ α
  | access (o : ω) (next : ρ o → Prog ρ α) : Prog ρ α

namespace Prog
variable {ω : Type} {ρ : ω → Type} {α β σ : Type}

/-- One program after another. -/
def andThen : Prog ρ α → (α → Prog ρ β) → Prog ρ β
  | .done a, f => f a
  | .access o next, f => .access o (fun r => (next r).andThen f)

instance : Monad (Prog ρ) where
  pure := .done
  bind := andThen

/-- A single access. -/
def call (o : ω) : Prog ρ (ρ o) := .access o .done

/-- The program run alone. -/
def run (act : (o : ω) → σ → Option (ρ o × σ)) : Prog ρ α → σ → Option (α × σ)
  | .done a, s => some (a, s)
  | .access o next, s => (act o s).bind (fun r => (next r.1).run act r.2)

/-- **The program gets to its end**, in a state in which `Q` holds of it and of the
result. -/
def Ends (act : (o : ω) → σ → Option (ρ o × σ)) (p : Prog ρ α) (s : σ) (Q : α → σ → Prop) : Prop :=
  ∃ a s', p.run act s = some (a, s') ∧ Q a s'

section Rules
variable {act : (o : ω) → σ → Option (ρ o × σ)} {s s' : σ} {Q Q' : α → σ → Prop}

theorem run_bind (p : Prog ρ α) (f : α → Prog ρ β) (s : σ) :
    (p >>= f).run act s = (p.run act s).bind (fun r => (f r.1).run act r.2) := by
  induction p generalizing s with
  | done a => rfl
  | access o next ih =>
    show (act o s).bind _ = ((act o s).bind _).bind _
    rw [Option.bind_assoc]
    congr 1
    funext r
    exact ih r.1 r.2

theorem Ends.mono {p : Prog ρ α} (h : p.Ends act s Q) (hq : ∀ a s', Q a s' → Q' a s') :
    p.Ends act s Q' := by
  obtain ⟨a, s', hrun, ha⟩ := h
  exact ⟨a, s', hrun, hq a s' ha⟩

@[simp] theorem ends_pure {a : α} : (pure a : Prog ρ α).Ends act s Q ↔ Q a s := by
  constructor
  · rintro ⟨a', s', hrun, ha⟩
    obtain ⟨rfl, rfl⟩ := Prod.mk.inj (Option.some.inj hrun)
    exact ha
  · intro ha
    exact ⟨a, s, rfl, ha⟩

@[simp] theorem ends_bind {p : Prog ρ β} {f : β → Prog ρ α} : (p >>= f).Ends act s Q ↔
    p.Ends act s (fun b s' => (f b).Ends act s' Q) := by
  constructor
  · rintro ⟨a, s'', hrun, ha⟩
    rw [run_bind, Option.bind_eq_some_iff] at hrun
    obtain ⟨⟨b, s'⟩, hrun, hrun'⟩ := hrun
    exact ⟨b, s', hrun, a, s'', hrun', ha⟩
  · rintro ⟨b, s', hrun, a, s'', hrun', ha⟩
    refine ⟨a, s'', ?_, ha⟩
    rw [run_bind, hrun]
    exact hrun'

/-- A program goes on from where its first part ended. -/
theorem ends_bind_run {p : Prog ρ β} {f : β → Prog ρ α} {b : β} (h : p.run act s = some (b, s')) :
    (p >>= f).Ends act s Q ↔ (f b).Ends act s' Q := by
  rw [Ends, Ends, run_bind, h]
  rfl

theorem ends_call {o : ω} {Q : ρ o → σ → Prop} :
    (call o : Prog ρ (ρ o)).Ends act s Q ↔ ∃ r, act o s = some r ∧ Q r.1 r.2 := by
  constructor
  · rintro ⟨a, s', hrun, ha⟩
    obtain ⟨r, hr, hrun⟩ := Option.bind_eq_some_iff.mp hrun
    obtain ⟨rfl, rfl⟩ := Prod.mk.inj (Option.some.inj hrun)
    exact ⟨r, hr, ha⟩
  · rintro ⟨r, hr, ha⟩
    exact ⟨r.1, r.2, Option.bind_eq_some_iff.mpr ⟨r, hr, rfl⟩, ha⟩

/-- What is known of a run holds of the run that is made. -/
theorem Ends.of_run {p : Prog ρ α} (h : p.Ends act s Q) {a : α}
    (hrun : p.run act s = some (a, s')) :
    Q a s' := by
  obtain ⟨a', s'', hrun', ha⟩ := h
  rw [hrun, Option.some.injEq, Prod.mk.injEq] at hrun'
  rw [hrun'.1, hrun'.2]
  exact ha

end Rules

/-- If the program gets to its end, `Q` holds there. -/
def Yields (act : (o : ω) → σ → Option (ρ o × σ)) (p : Prog ρ α) (s : σ)
    (Q : α → σ → Prop) : Prop :=
  ∀ a s', p.run act s = some (a, s') → Q a s'

section PartialRules
variable {act : (o : ω) → σ → Option (ρ o × σ)} {s : σ} {Q Q' : α → σ → Prop}

theorem Ends.yields {p : Prog ρ α} (h : p.Ends act s Q) : p.Yields act s Q :=
  fun _ _ hrun => h.of_run hrun

theorem Ends.and_yields {p : Prog ρ α} (h : p.Ends act s Q) (h' : p.Yields act s Q') :
    p.Ends act s (fun a s' => Q a s' ∧ Q' a s') := by
  obtain ⟨a, s', hrun, ha⟩ := h
  exact ⟨a, s', hrun, ha, h' a s' hrun⟩

theorem Yields.mono {p : Prog ρ α} (h : p.Yields act s Q) (hq : ∀ a s', Q a s' → Q' a s') :
    p.Yields act s Q' :=
  fun a s' hrun => hq a s' (h a s' hrun)

theorem yields_of_forall {p : Prog ρ α} (h : ∀ a s', Q a s') : p.Yields act s Q :=
  fun a s' _ => h a s'

theorem yields_pure {a : α} : (pure a : Prog ρ α).Yields act s Q ↔ Q a s := by
  constructor
  · intro h
    exact h a s rfl
  · intro ha a' s' hrun
    obtain ⟨rfl, rfl⟩ := Prod.mk.inj (Option.some.inj hrun)
    exact ha

theorem yields_bind {p : Prog ρ β} {f : β → Prog ρ α} : (p >>= f).Yields act s Q ↔
    p.Yields act s (fun b s' => (f b).Yields act s' Q) := by
  constructor
  · intro h b s' hrun a s'' hrun'
    refine h a s'' ?_
    rw [run_bind, hrun]
    exact hrun'
  · intro h a s'' hrun
    rw [run_bind, Option.bind_eq_some_iff] at hrun
    obtain ⟨⟨b, s'⟩, hrun, hrun'⟩ := hrun
    exact h b s' hrun a s'' hrun'

/-- **What every access keeps holds after the program.** -/
theorem yields_of_kept {I : σ → Prop}
    (hact : ∀ o s r, act o s = some r → I s → I r.2) (p : Prog ρ α) (hs : I s) :
    p.Yields act s (fun _ s' => I s') := by
  induction p generalizing s with
  | done a =>
    rintro _ _ hrun
    obtain ⟨rfl, rfl⟩ := Prod.mk.inj (Option.some.inj hrun)
    exact hs
  | access o next ih =>
    intro a s' hrun
    obtain ⟨r, hr, hrun⟩ := Option.bind_eq_some_iff.mp hrun
    exact ih r.1 (hact o s r hr hs) a s' hrun

/-- A program of which all is known. -/
theorem yields_of_ends {p : Prog ρ α} {c : Prop} {a : α} {s' : σ}
    (h : ∀ Q : α → σ → Prop, p.Ends act s Q ↔ c ∧ Q a s') : p.Yields act s Q ↔ (c → Q a s') := by
  constructor
  · intro hy hc
    obtain ⟨b, s'', hrun, rfl, rfl⟩ := (h fun b s'' => b = a ∧ s'' = s').mpr ⟨hc, rfl, rfl⟩
    exact hy _ _ hrun
  · intro hq b s'' hrun
    obtain ⟨hc, rfl, rfl⟩ := (h fun c s₃ => b = c ∧ s'' = s₃).mp ⟨b, s'', hrun, rfl, rfl⟩
    exact hq hc

end PartialRules

end Prog
end PaldOs
