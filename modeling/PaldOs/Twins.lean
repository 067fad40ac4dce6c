import Mathlib.Data.Option.Basic
import PaldOs.Programs

/-! # Programs that cannot tell two states apart

A program is run from two states that differ where it does not look.  It gets to its end from both
or from neither, with one result, and the states at the end differ no more than those at the start:
the program is `Blind` to the difference.  Once the difference is gone the runs are the same run, so
what a program does with the place where the states differ is of no account after it has overwritten
it.

What is known of the result while the states still differ is carried along, so that a handle just
made is another one than that with the difference.
-/
namespace PaldOs
namespace Prog
variable {ω : Type} {ρ : ω → Type} {α β σ : Type}

/-- **Two runs that end together**, and what holds of the ends. -/
def Twins (act : (o : ω) → σ → Option (ρ o × σ)) (p q : Prog ρ α) (s t : σ)
    (Q : α → σ → α → σ → Prop) : Prop :=
  Option.Rel (fun a b => Q a.1 a.2 b.1 b.2) (p.run act s) (q.run act t)

/-- The ends of two runs: the results are equal, and the states are too or differ as `R` says. -/
def Alike (R : σ → σ → Prop) (P : α → Prop) (a : α) (s : σ) (b : α) (t : σ) : Prop :=
  a = b ∧ (s = t ∨ R s t ∧ P a)

/-- **The program is blind to the difference** `R`.  While there is one, `P` holds of the result. -/
def Blind (act : (o : ω) → σ → Option (ρ o × σ)) (R : σ → σ → Prop) (P : α → Prop)
    (p : Prog ρ α) : Prop :=
  ∀ s t, R s t → Twins act p p s t (Alike R P)

section Rules
variable {act : (o : ω) → σ → Option (ρ o × σ)} {R : σ → σ → Prop} {s t : σ} {P : α → Prop}
  {Q Q' : α → σ → α → σ → Prop}

theorem Twins.mono {p q : Prog ρ α} (h : Twins act p q s t Q)
    (hq : ∀ a s' b t', Q a s' b t' → Q' a s' b t') : Twins act p q s t Q' := by
  unfold Twins at h ⊢
  generalize p.run act s = u at h ⊢
  generalize q.run act t = v at h ⊢
  cases h with
  | some h => exact .some (hq _ _ _ _ h)
  | none => exact .none

/-- A run ends together with itself. -/
theorem Twins.refl {p : Prog ρ α} : Twins act p p s s (Alike R P) := by
  unfold Twins
  cases p.run act s with
  | none => exact .none
  | some r => exact .some ⟨rfl, .inl rfl⟩

theorem run_call {o : ω} : (Prog.call o : Prog ρ (ρ o)).run act s = act o s := by
  show (act o s).bind _ = _
  cases act o s with
  | none => rfl
  | some r => rfl

theorem Twins.pure {a b : α} (h : Q a s b t) :
    Twins act (pure a : Prog ρ α) (pure b) s t Q :=
  Option.Rel.some h

/-- **One after another.** -/
theorem Twins.bind {p q : Prog ρ β} {f g : β → Prog ρ α} {Q₁ : β → σ → β → σ → Prop}
    (h : Twins act p q s t Q₁)
    (hf : ∀ a s' b t', Q₁ a s' b t' → Twins act (f a) (g b) s' t' Q) :
    Twins act (p >>= f) (q >>= g) s t Q := by
  unfold Twins at h ⊢
  rw [run_bind, run_bind]
  generalize p.run act s = u at h ⊢
  generalize q.run act t = v at h ⊢
  cases h with
  | some h => exact hf _ _ _ _ h
  | none => exact .none

/-- Runs that end alike are equal. -/
theorem run_eq_of_ends {p q : Prog ρ α}
    (h : ∀ Q : α → σ → Prop, p.Ends act s Q ↔ q.Ends act t Q) : p.run act s = q.run act t := by
  cases hp : p.run act s with
  | none =>
    cases hq : q.run act t with
    | none => rfl
    | some b =>
      obtain ⟨a, s', hrun, -⟩ := (h fun _ _ => True).mpr ⟨b.1, b.2, hq, trivial⟩
      rw [hp] at hrun
      cases hrun
  | some a =>
    obtain ⟨b, t', hrun, hb⟩ := (h fun b t' => (b, t') = a).mp ⟨a.1, a.2, hp, rfl⟩
    rw [hrun, hb]

/-- Two runs that are equal. -/
theorem Twins.of_run {p q : Prog ρ α} (h : p.run act s = q.run act t) :
    Twins act p q s t (Alike R P) := by
  unfold Twins
  rw [← h]
  exact refl

/-- The results are equal if one run has one. -/
theorem Twins.eq {p q : Prog ρ α} (h : Twins act p q s t (Alike R P)) :
    (p.run act s).map Prod.fst = (q.run act t).map Prod.fst := by
  unfold Twins at h
  generalize p.run act s = u at h ⊢
  generalize q.run act t = v at h ⊢
  cases h with
  | some h => exact congrArg some h.1
  | none => rfl

theorem Blind.pure {a : α} (h : P a) : Blind act R P (pure a : Prog ρ α) :=
  fun _ _ hr => .pure ⟨rfl, .inr ⟨hr, h⟩⟩

/-- **One blind program after another.** -/
theorem Blind.bind {p : Prog ρ β} {f : β → Prog ρ α} {P₁ : β → Prop} (h : Blind act R P₁ p)
    (hf : ∀ a, P₁ a → Blind act R P (f a)) : Blind act R P (p >>= f) := by
  intro s t hr
  refine (h s t hr).bind ?_
  rintro a s' _ t' ⟨rfl, rfl | ⟨hr', ha⟩⟩
  · exact .refl
  · exact hf a ha s' t' hr'

/-- A program that ends without the difference may be followed by anything. -/
theorem Blind.bind_of_eq {p : Prog ρ β} {f : β → Prog ρ α}
    (h : Blind act R (fun _ => False) p) : Blind act R P (p >>= f) :=
  h.bind fun _ ha => ha.elim

theorem Blind.ite {c : Prop} [Decidable c] {p q : Prog ρ α} (hp : c → Blind act R P p)
    (hq : ¬ c → Blind act R P q) : Blind act R P (if c then p else q) := by
  split
  · rename_i h
    exact hp h
  · rename_i h
    exact hq h

/-- A single access. -/
theorem Blind.call {o : ω} {P : ρ o → Prop}
    (h : ∀ s t, R s t → Option.Rel (fun a b => Alike R P a.1 a.2 b.1 b.2) (act o s) (act o t)) :
    Blind act R P (Prog.call o : Prog ρ (ρ o)) := by
  intro s t hr
  unfold Twins
  rw [run_call, run_call]
  exact h s t hr

end Rules
end Prog
end PaldOs
