import PaldOs.Clients

/-! # Semaphores between a device and its driver

A driver uses a semaphore in one of two ways.  It makes a request and waits with `P` for the `V` of
the interrupt: inside a lock, so that there is one request at a time (`Completion`).  Or the device
raises the semaphore when it has buffered something, and who gets past the `P` takes it out
(`Arrival`): the device buffers one thing at a time.  Each lemma says how a step of the threads or
of the device moves between the cases.
-/
namespace PaldOs
namespace Primitives
variable {T : Type} {s s' : Primitives T} {n : ℕ}

/-- **One request at a time**: nobody waits at the semaphore, or one thread does, and either its
interrupt is outstanding or it has come. -/
inductive Completion (s : Primitives T) (n : ℕ) : ℕ → Prop
  | idle : (∀ t, s.pending t ≠ some (.p n)) → s.value n = 0 → Completion s n 0
  | asked (t : T) : s.pending t = some (.p n) → (∀ u, s.pending u = some (.p n) → u = t) →
      s.value n = 0 → Completion s n 1
  | answered (t : T) : s.pending t = some (.p n) → (∀ u, s.pending u = some (.p n) → u = t) →
      s.value n = 1 → Completion s n 0

namespace Completion
variable {outstanding : ℕ}

/-- What it depends on. -/
theorem congr (h : s.Completion n outstanding)
    (hp : ∀ u, s'.pending u = some (.p n) ↔ s.pending u = some (.p n))
    (hv : s'.value n = s.value n) : s'.Completion n outstanding := by
  cases h with
  | idle hno hzero => exact .idle (fun t => (hp t).not.mpr (hno t)) (hv.trans hzero)
  | asked t ht hu hzero =>
    exact .asked t ((hp t).mpr ht) (fun u h => hu u ((hp u).mp h)) (hv.trans hzero)
  | answered t ht hu hone =>
    exact .answered t ((hp t).mpr ht) (fun u h => hu u ((hp u).mp h)) (hv.trans hone)

/-- Nothing is outstanding where nobody waits. -/
theorem none_outstanding (h : s.Completion n outstanding)
    (hno : ∀ u, s.pending u ≠ some (.p n)) : outstanding = 0 ∧ s.value n = 0 := by
  cases h with
  | idle _ hzero => exact ⟨rfl, hzero⟩
  | asked t ht | answered t ht => exact absurd ht (hno t)

theorem le_one (h : s.Completion n outstanding) : outstanding ≤ 1 := by
  cases h <;> decide

/-- The interrupt comes. -/
theorem raise (h : s.Completion n (outstanding + 1)) : (s.raise n).Completion n outstanding := by
  generalize hk : outstanding + 1 = k at h
  cases h with
  | idle | answered => cases hk
  | asked t ht hu hzero =>
    obtain rfl : outstanding = 0 := Nat.succ.inj hk
    exact .answered t ht hu (by simp [Primitives.raise, hzero])

variable [DecidableEq T] {t : T}

/-- The request is made. -/
theorem request (h : s.Completion n outstanding) (hno : ∀ u, s.pending u ≠ some (.p n)) :
    outstanding = 0 ∧ (s.setPending t (some (.p n))).Completion n 1 := by
  obtain ⟨hzero, hvalue⟩ := h.none_outstanding hno
  refine ⟨hzero, .asked t (Function.update_self ..) (fun u hu => ?_) hvalue⟩
  by_contra hne
  rw [setPending_pending, Function.update_of_ne hne] at hu
  exact hno u hu

/-- A thread with nothing pending makes another call. -/
theorem call (h : s.Completion n outstanding) (ht : s.pending t = none) {c : Option Kernel.Call}
    (hc : c ≠ some (.p n)) : (s.setPending t c).Completion n outstanding := by
  refine h.congr (fun u => ?_) rfl
  by_cases hu : u = t
  · subst hu
    simp [ht, hc]
  · simp [hu]

/-- A call takes effect. -/
theorem effect (h : s.Completion n outstanding) (he : Effect s t s')
    (hv : s.pending t ≠ some (.v n)) : s'.Completion n outstanding := by
  obtain ⟨c, hpending, -⟩ := he.pending
  by_cases hp : s.pending t = some (.p n)
  · -- the thread that waits goes on
    cases he with
    | p hp' hne =>
      rw [hp] at hp'
      cases hp'
      cases h with
      | idle _ hzero | asked _ _ _ hzero => exact absurd hzero hne
      | answered u hu huniq hone =>
        refine .idle (fun w hw => ?_) (by simp [hone])
        by_cases hwt : w = t
        · subst hwt
          simp at hw
        · rw [setPending_pending, Function.update_of_ne hwt] at hw
          exact hwt ((huniq w hw).trans (huniq t hp).symm)
    | v hp' | acquire hp' | release hp' | wait hp' | signal hp' =>
      rw [hp] at hp'
      cases hp'
  · have hvalue : s'.value n = s.value n := by
      cases he with
      | p hp' =>
        refine Function.update_of_ne (fun hn => hp ?_) _ _
        rw [hp', hn]
      | v hp' =>
        refine Function.update_of_ne (fun hn => hv ?_) _ _
        rw [hp', hn]
      | acquire | release | wait | signal => rfl
    refine h.congr (fun u => ?_) hvalue
    by_cases hu : u = t
    · subst hu
      refine iff_of_false (fun hu => ?_) hp
      cases he with
      | p | v | acquire | release | signal | wait => simp at hu
    · rw [hpending, Function.update_of_ne hu]

end Completion

/-- **One thing buffered at a time**: nothing is, or something is and the semaphore is raised, or
the one thread for which `taking` holds has got past its `P` to take it out. -/
inductive Arrival (s : Primitives T) (n : ℕ) (taking : T → Prop) : Bool → Prop
  | nothing : s.value n = 0 → (∀ t, ¬ taking t) → Arrival s n taking false
  | arrived : s.value n = 1 → (∀ t, ¬ taking t) → Arrival s n taking true
  | taken (t : T) : s.value n = 0 → taking t → (∀ u, taking u → u = t) → Arrival s n taking true

namespace Arrival
variable {taking taking' : T → Prop} {buffered : Bool}

theorem congr (h : s.Arrival n taking buffered) (ht : ∀ u, taking' u ↔ taking u)
    (hv : s'.value n = s.value n) : s'.Arrival n taking' buffered := by
  cases h with
  | nothing hzero hno => exact .nothing (hv.trans hzero) fun t => (ht t).not.mpr (hno t)
  | arrived hone hno => exact .arrived (hv.trans hone) fun t => (ht t).not.mpr (hno t)
  | taken t hzero hin hu =>
    exact .taken t (hv.trans hzero) ((ht t).mpr hin) fun u h => hu u ((ht u).mp h)

/-- The device buffers something. -/
theorem raise (h : s.Arrival n taking false) : (s.raise n).Arrival n taking true := by
  cases h with
  | nothing hzero hno => exact .arrived (by simp [Primitives.raise, hzero]) hno

/-- A thread gets past its `P`. -/
theorem pass (h : s.Arrival n taking buffered) {t : T} (hne : s.value n ≠ 0)
    (hv : s'.value n = s.value n - 1) (ht : ∀ u, taking' u ↔ u = t ∨ taking u) :
    s'.Arrival n taking' buffered := by
  cases h with
  | nothing hzero | taken _ hzero => exact absurd hzero hne
  | arrived hone hno =>
    refine .taken t (by simp [hv, hone]) ((ht t).mpr (Or.inl rfl)) fun u hu => ?_
    exact ((ht u).mp hu).resolve_right (hno u)

/-- Who has got past takes it out. -/
theorem take (h : s.Arrival n taking buffered) {t : T} (hin : taking t)
    (hv : s'.value n = s.value n) (ht : ∀ u, taking' u ↔ u ≠ t ∧ taking u) :
    buffered = true ∧ s'.Arrival n taking' false := by
  cases h with
  | nothing _ hno | arrived _ hno => exact absurd hin (hno t)
  | taken u hzero _ huniq =>
    refine ⟨rfl, .nothing (hv.trans hzero) fun w hw => ?_⟩
    obtain ⟨hne, hw⟩ := (ht w).mp hw
    exact hne ((huniq w hw).trans (huniq t hin).symm)

end Arrival
end Primitives

/-! ## In a program -/

namespace Ideal
variable {M T P D X Y ε : Type} {c : Client M T P D X Y ε} {needs : P → Option ℕ}
  {a : Ideal M T P D} {m m' : M} {t u : T} {n outstanding : ℕ} {buffered : Bool}

/-- A thread has got past the `P` of its phase on semaphore `n`. -/
def Past (c : Client M T P D X Y ε) (n : ℕ) (a : Ideal M T P D) (m : M) (t : T) : Prop :=
  c.call (a.phase (m, t)) = some (.p n) ∧ (a.prims m).pending t = none

/-- A `P` that is pending is that of the phase. -/
theorem Guarded.call_of_pending (hg : a.Guarded c needs)
    (h : (a.prims m).pending u = some (.p n)) : c.call (a.phase (m, u)) = some (.p n) := by
  have hc := hg.inCall m u
  rw [h] at hc
  exact hc.p

/-- Where no phase does a `V`, none is pending: that is for the interrupts. -/
theorem Guarded.not_pending_v (hg : a.Guarded c needs) (hv : ∀ p, c.call p ≠ some (.v n)) :
    (a.prims m).pending u ≠ some (.v n) := by
  intro h
  have hc := hg.inCall m u
  rw [h] at hc
  exact hv _ hc.v

/-- A thread that goes on in a critical section finds nobody in a `P` there. -/
theorem Guarded.nobody_waiting (hg : a.Guarded c needs) {l : ℕ}
    (hneeds : needs (a.phase (m, t)) = some l) (hp : (a.prims m).pending t = none)
    (hin : ∀ p, c.call p = some (.p n) → needs p = some l) :
    ∀ u, (a.prims m).pending u ≠ some (.p n) := by
  intro u hu
  have hsame : u = t := by
    apply hg.alone hneeds hp
    rw [hu]
    exact hin _ (hg.call_of_pending hu)
  rw [hsame, hp] at hu
  cases hu

section Steps
variable [DecidableEq M] [DecidableEq T] {v : Move P D ε} {w : Handling D ε} {s : Primitives T}

/-- Who moves has not got past a `P` any more. -/
theorem past_moved : Past c n (a.moved c m t v) m' u ↔ (m', u) ≠ (m, t) ∧ Past c n a m' u := by
  unfold Past
  by_cases hmu : (m', u) = (m, t)
  · cases hmu
    simp only [moved_phase, moved_prims, Primitives.setPending_pending, Function.update_self,
      ne_eq, not_true_eq_false, false_and, iff_false, not_and]
    intro hp
    rw [hp]
    exact Option.some_ne_none _
  · obtain ⟨hp, hc⟩ := moved_other (a := a) (c := c) (v := v) hmu
    rw [hp, hc]
    simp [hmu]

omit [DecidableEq T] in
theorem past_handled : Past c n (a.handled m w) m' u ↔ Past c n a m' u := by
  rw [Past, handled_seen.2]
  exact Iff.rfl

/-- A move of a thread that has not got past its `P` leaves the arrivals as they are. -/
theorem arrival_moved (h : (a.prims m').Arrival n (Past c n a m') buffered)
    (ht : m' = m → ¬ Past c n a m t) :
    ((a.moved c m t v).prims m').Arrival n (Past c n (a.moved c m t v) m') buffered := by
  refine h.congr (fun u => ?_) (congrFun moved_value _)
  rw [past_moved]
  refine ⟨fun hu => hu.2, fun hu => ⟨fun hmu => ?_, hu⟩⟩
  cases hmu
  exact ht rfl hu

/-- A move of a thread that has got past its `P` takes out what has arrived. -/
theorem arrival_taken (h : (a.prims m).Arrival n (Past c n a m) buffered) (ht : Past c n a m t) :
    buffered = true ∧
      ((a.moved c m t v).prims m).Arrival n (Past c n (a.moved c m t v) m) false := by
  apply h.take ht
  · exact congrFun moved_value _
  · intro u
    rw [past_moved]
    simp

/-- An effect leaves the arrivals as they are, or lets a thread past its `P`. -/
theorem arrival_effected (h : (a.prims m').Arrival n (Past c n a m') buffered)
    (hg : a.Guarded c needs) (hv : ∀ p, c.call p ≠ some (.v n))
    (he : Primitives.Effect (a.prims m) t s) :
    ((a.effected m s).prims m').Arrival n (Past c n (a.effected m s) m') buffered := by
  obtain ⟨r, hpending, hne⟩ := he.pending
  by_cases hm : m' = m
  · subst hm
    have hother : ∀ u, u ≠ t → (Past c n (a.effected m' s) m' u ↔ Past c n a m' u) := by
      intro u hu
      simp only [Past, effected_prims, hpending, Function.update_of_ne hu]
      exact Iff.rfl
    have hnot : ¬ Past c n a m' t := fun hp => hne hp.2
    rw [effected_prims]
    by_cases hpt : (a.prims m').pending t = some (.p n)
    · cases he with
      | p hp hpos =>
        rw [hpt] at hp
        cases hp
        refine h.pass (t := t) hpos (by simp) fun u => ?_
        by_cases hu : u = t
        · subst hu
          simp only [true_or, iff_true]
          exact ⟨hg.call_of_pending hpt, by simp⟩
        · simp only [hu, false_or]
          exact hother u hu
      | v hp | acquire hp | release hp | wait hp | signal hp =>
        rw [hpt] at hp
        cases hp
    · refine h.congr (fun u => ?_) ?_
      · by_cases hu : u = t
        · subst hu
          refine iff_of_false (fun hu => ?_) hnot
          have hc := hg.inCall m' u
          have hcall : c.call (a.phase (m', u)) = some (.p n) := hu.1
          rw [hcall] at hc
          rcases hc.made_or nofun with hc | hc
          · exact hne hc
          · exact hpt hc
        · exact hother u hu
      · cases he with
        | @p k hp =>
          refine Function.update_of_ne (fun hn => hpt ?_) _ _
          rw [hp, hn]
        | @v k hp =>
          refine Function.update_of_ne (fun hn => ?_) _ _
          rw [← hn] at hp
          exact hg.not_pending_v hv hp
        | acquire | release | wait | signal => rfl
  · rw [effected_prims_of_ne hm]
    refine h.congr (fun u => ?_) rfl
    simp only [Past, effected_prims_of_ne hm]
    exact Iff.rfl

/-- A move that makes no request leaves the requests as they are. -/
theorem completion_moved (h : (a.prims m').Completion n outstanding)
    (hp : (a.prims m).pending t = none) (hv : m' = m → c.call v.phase ≠ some (.p n)) :
    ((a.moved c m t v).prims m').Completion n outstanding := by
  by_cases hm : m' = m
  · subst hm
    rw [moved_prims]
    exact h.call hp (hv rfl)
  · rw [moved_prims_of_ne hm]
    exact h

/-- An effect leaves the requests as they are. -/
theorem completion_effected (h : (a.prims m').Completion n outstanding) (hg : a.Guarded c needs)
    (hv : ∀ p, c.call p ≠ some (.v n)) (he : Primitives.Effect (a.prims m) t s) :
    ((a.effected m s).prims m').Completion n outstanding := by
  by_cases hm : m' = m
  · subst hm
    rw [effected_prims]
    exact h.effect he (hg.not_pending_v hv)
  · rw [effected_prims_of_ne hm]
    exact h

end Steps
end Ideal
end PaldOs
