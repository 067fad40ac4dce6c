import PaldOs.LockExclusion

/-! # Locks and semaphores as their callers see them

A routine of `threads/` takes several steps, with context switches between them: `Acquire` tests
the semaphore of the lock, may sleep and test again, and becomes the owner some time after it has
got past; `Release` ceases to be the owner before its `V`; `Wait` releases, sleeps on a semaphore of
its own and acquires again.  Callers do not see this.  For them a call is pending from the moment it
is made, and takes effect at one moment: `P` takes a unit, `Acquire` takes a lock nobody has,
`Release` gives it up, and `Wait` gives it up and is from then on an `Acquire`; nothing is promised
about what it waits for.  A machine with these effects only, `Primitives`, is what programs are
proved over.

`Remains` relates a pending call to what is left of the routine in the code of the thread, and
`Implements` a kernel to the primitives; each step of the kernel is a call, an effect, or nothing
(`Implements.call`, `Implements.run`, `Implements.schedule`, `Implements.raise`).
-/
namespace PaldOs

/-- The calls that have an effect here: all but `Broadcast` and those on channels. -/
def Kernel.Call.primitive : Kernel.Call → Bool
  | .p _ => true
  | .v _ => true
  | .acquire _ => true
  | .release _ => true
  | .wait _ _ => true
  | .signal _ _ => true
  | _ => false

/-- The locks and the semaphores, and the call each thread has made that has not taken effect. -/
structure Primitives (T : Type) where
  owner : ℕ → Option T
  value : ℕ → ℤ
  pending : T → Option Kernel.Call

namespace Primitives
variable {T : Type} [DecidableEq T]

/-- `t` has the call `c` pending. -/
def setPending (s : Primitives T) (t : T) (c : Option Kernel.Call) : Primitives T :=
  { s with pending := Function.update s.pending t c }

/-- A `V` in no thread of its own: the handler of an interrupt. -/
def raise (s : Primitives T) (n : ℕ) : Primitives T :=
  { s with value := Function.update s.value n (s.value n + 1) }

/-- **The pending call of `t` takes effect**; `none` where it has to wait. -/
def effect (s : Primitives T) (t : T) : Option (Primitives T) :=
  match s.pending t with
  | some (.p n) =>
      if s.value n = 0 then none
      else some ({ s with value := Function.update s.value n (s.value n - 1) }.setPending t none)
  | some (.v n) =>
      some ({ s with value := Function.update s.value n (s.value n + 1) }.setPending t none)
  | some (.acquire l) =>
      if s.owner l = none then
        some ({ s with owner := Function.update s.owner l (some t) }.setPending t none)
      else none
  | some (.release l) =>
      if s.owner l = some t then
        some ({ s with owner := Function.update s.owner l none }.setPending t none)
      else none
  | some (.wait _ l) =>
      if s.owner l = some t then
        some ({ s with owner := Function.update s.owner l none }.setPending t (some (.acquire l)))
      else none
  | some (.signal _ l) => if s.owner l = some t then some (s.setPending t none) else none
  | _ => none

/-- What can happen next: a thread that has nothing pending makes a call, or a pending call takes
effect. -/
inductive Action (T : Type) where
  | call (t : T) (c : Kernel.Call)
  | effect (t : T)

def step (s : Primitives T) : Action T → Option (Primitives T)
  | .call t c => if s.pending t = none then some (s.setPending t (some c)) else none
  | .effect t => s.effect t

/-- The calls made. -/
def emit (_ : Primitives T) : Action T → List (T × Kernel.Call)
  | .call t c => [(t, c)]
  | .effect _ => []

/-- Nobody has a lock or a call pending. -/
def initial (value : ℕ → ℤ) : Primitives T where
  owner _ := none
  value := value
  pending _ := none

@[simp] theorem setPending_owner (s : Primitives T) (t : T) (c : Option Kernel.Call) :
    (s.setPending t c).owner = s.owner := rfl

@[simp] theorem setPending_value (s : Primitives T) (t : T) (c : Option Kernel.Call) :
    (s.setPending t c).value = s.value := rfl

@[simp] theorem setPending_pending (s : Primitives T) (t : T) (c : Option Kernel.Call) :
    (s.setPending t c).pending = Function.update s.pending t c := rfl

omit [DecidableEq T] in
@[simp] theorem raise_owner (s : Primitives T) (n : ℕ) : (s.raise n).owner = s.owner := rfl

omit [DecidableEq T] in
@[simp] theorem raise_pending (s : Primitives T) (n : ℕ) : (s.raise n).pending = s.pending := rfl

/-- **What an effect does.** -/
inductive Effect (s : Primitives T) (t : T) : Primitives T → Prop
  | p {n : ℕ} : s.pending t = some (.p n) → s.value n ≠ 0 →
      Effect s t ({ s with value := Function.update s.value n (s.value n - 1) }.setPending t none)
  | v {n : ℕ} : s.pending t = some (.v n) →
      Effect s t ({ s with value := Function.update s.value n (s.value n + 1) }.setPending t none)
  | acquire {l : ℕ} : s.pending t = some (.acquire l) → s.owner l = none →
      Effect s t ({ s with owner := Function.update s.owner l (some t) }.setPending t none)
  | release {l : ℕ} : s.pending t = some (.release l) → s.owner l = some t →
      Effect s t ({ s with owner := Function.update s.owner l none }.setPending t none)
  | wait {n l : ℕ} : s.pending t = some (.wait n l) → s.owner l = some t →
      Effect s t ({ s with owner := Function.update s.owner l none }.setPending t
        (some (.acquire l)))
  | signal {n l : ℕ} : s.pending t = some (.signal n l) → s.owner l = some t →
      Effect s t (s.setPending t none)

theorem effect_eq_some {s s' : Primitives T} {t : T} : s.effect t = some s' ↔ Effect s t s' := by
  constructor
  · intro h
    unfold effect at h
    split at h
    · rename_i hp
      split at h
      · cases h
      · rename_i hv
        cases h
        exact .p hp hv
    · rename_i hp
      cases h
      exact .v hp
    · rename_i hp
      split at h
      · rename_i ho
        cases h
        exact .acquire hp ho
      · cases h
    · rename_i hp
      split at h
      · rename_i ho
        cases h
        exact .release hp ho
      · cases h
    · rename_i hp
      split at h
      · rename_i ho
        cases h
        exact .wait hp ho
      · cases h
    · rename_i hp
      split at h
      · rename_i ho
        cases h
        exact .signal hp ho
      · cases h
    · cases h
  · intro h
    cases h with
    | p hp hv => simp [effect, hp, hv]
    | v hp => simp [effect, hp]
    | acquire hp ho | release hp ho | wait hp ho | signal hp ho => simp [effect, hp, ho]

/-- An effect is of a pending call, and leaves the other threads' calls. -/
theorem Effect.pending {s s' : Primitives T} {t : T} (h : Effect s t s') :
    ∃ c, s'.pending = Function.update s.pending t c ∧ s.pending t ≠ none := by
  cases h with
  | p hp | v hp | acquire hp | release hp | wait hp | signal hp => exact ⟨_, rfl, by simp [hp]⟩

end Primitives

/-! ## What is left of a routine -/

/-- What the code of a thread is while a call is pending, or has taken effect. -/
inductive Remains : Option Kernel.Call → List Instr → Prop
  | done : Remains none []
  | released (l : ℕ) : Remains none [.releaseV (.user l)]
  | signalled (w : ℕ) : Remains none [.v (.waiter w)]
  | p (n : ℕ) : Remains (some (.p n)) [.p (.user n)]
  | v (n : ℕ) : Remains (some (.v n)) [.v (.user n)]
  | acquire (l : ℕ) : Remains (some (.acquire l)) [.acquire (.user l)]
  | acquireP (l : ℕ) : Remains (some (.acquire l)) [.acquireP (.user l)]
  | setOwner (l : ℕ) : Remains (some (.acquire l)) [.setOwner (.user l)]
  | release (l : ℕ) : Remains (some (.release l)) [.release (.user l)]
  | signal (n l : ℕ) : Remains (some (.signal n l)) [.signal (.user n l)]
  | wait (n l : ℕ) : Remains (some (.wait n l)) [.wait (.user n l)]
  | waiting (n l w : ℕ) : Remains (some (.wait n l))
      [.release (.user l), .p (.waiter w), .acquire (.user l)]
  | leaving (l w : ℕ) : Remains (some (.acquire l))
      [.releaseV (.user l), .p (.waiter w), .acquire (.user l)]
  | sleeping (l w : ℕ) : Remains (some (.acquire l)) [.p (.waiter w), .acquire (.user l)]

theorem Remains.shaped {c : Option Kernel.Call} {is : List Instr} (h : Remains c is) :
    Shaped is := by
  cases h <;> simp [Shaped, Instr.onLock, Instr.firstOnly]

theorem Remains.call {c : Kernel.Call} (h : c.primitive = true) : Remains (some c) [c.instr] := by
  cases c with
  | p n => exact .p n
  | v n => exact .v n
  | acquire l => exact .acquire l
  | release l => exact .release l
  | wait n l => exact .wait n l
  | signal n l => exact .signal n l
  | broadcast | send | receive => cases h

/-- A routine that has returned has taken effect. -/
theorem Remains.of_nil {c : Option Kernel.Call} (h : Remains c []) : c = none := by
  cases h
  rfl

namespace Kernel
variable {T : Type} [DecidableEq T]

/-- **A kernel implements the primitives.** -/
structure Implements (k : Kernel T) (s : Primitives T) : Prop where
  remains : ∀ t, Remains (s.pending t) (k.code t)
  owner : ∀ l, k.lockOwner (.user l) = s.owner l
  value : ∀ n, k.value (.user n) = s.value n
  lock : ∀ l, ∃ tr holder, LockInv tr k (.user l) holder

/-- The `V` of an interrupt's handler. -/
def raise (k : Kernel T) (n : ℕ) : Kernel T :=
  { k.wake (.user n) with value := Function.update k.value (.user n) (k.value (.user n) + 1) }

section Step
variable {k k' : Kernel T} {s s' : Primitives T} {t : T}

theorem Implements.lock_step (h : k.Implements s) {a : Action T} (hk : k.step a = some k') (l : ℕ) :
    ∃ tr holder, LockInv tr k' (.user l) holder := by
  obtain ⟨tr, holder, hl⟩ := h.lock l
  exact ⟨_, lockInv_step hk (fun t => (h.remains t).shaped) hl⟩

/-- A thread's code and pending call have moved together. -/
theorem Implements.moved (h : k.Implements s) {a : Action T} (hk : k.step a = some k')
    {c : Option Kernel.Call} {is : List Instr} (hcode : k'.code = Function.update k.code t is)
    (hpending : s'.pending = Function.update s.pending t c) (hremains : Remains c is)
    (howner : ∀ l, k'.lockOwner (.user l) = s'.owner l)
    (hvalue : ∀ n, k'.value (.user n) = s'.value n) : k'.Implements s' := by
  refine ⟨fun u => ?_, howner, hvalue, h.lock_step hk⟩
  rw [hcode, hpending]
  by_cases hu : u = t
  · subst hu
    rwa [Function.update_self, Function.update_self]
  · rw [Function.update_of_ne hu, Function.update_of_ne hu]
    exact h.remains u

/-- A thread's code has moved and nothing else that callers see. -/
theorem Implements.quiet (h : k.Implements s) {a : Action T} (hk : k.step a = some k')
    {is : List Instr} (hcode : k'.code = Function.update k.code t is)
    (hremains : Remains (s.pending t) is)
    (howner : ∀ l, k'.lockOwner (.user l) = k.lockOwner (.user l))
    (hvalue : ∀ n, k'.value (.user n) = k.value (.user n)) : k'.Implements s :=
  h.moved hk hcode (Function.update_eq_self t s.pending).symm hremains
    (fun l => (howner l).trans (h.owner l)) (fun n => (hvalue n).trans (h.value n))

/-- A call is made. -/
theorem Implements.call (h : k.Implements s) {c : Call} (hc : c.primitive = true)
    (hk : k.step (.call c) = some k') :
    ∃ t, k.currentThread = some t ∧ s.pending t = none ∧
      k'.Implements (s.setPending t (some c)) := by
  rcases step_cases hk with ⟨c', t, heq, ht, hcode, rfl⟩ | ⟨_, _, _, ha, _⟩ | ⟨_, ha, _⟩ |
    ⟨_, ha, _⟩
  · cases heq
    have hnone : s.pending t = none := by
      apply Remains.of_nil
      rw [← hcode]
      exact h.remains t
    refine ⟨t, ht, hnone, ?_⟩
    apply h.moved hk rfl rfl (.call hc)
    · exact h.owner
    · exact h.value
  · cases ha
  · cases ha
  · cases ha

/-- The scheduler is not seen. -/
theorem Implements.schedule (h : k.Implements s) {a : Action T} (hk : k.step a = some k')
    (ha : a = .yield ∨ ∃ u, a = .dispatch u) : k'.Implements s := by
  rcases step_cases hk with ⟨_, _, rfl, _⟩ | ⟨_, _, _, rfl, _⟩ | ⟨t, rfl, -, -, rfl⟩ |
    ⟨t, rfl, -, -, rfl⟩
  · rcases ha with ha | ⟨_, ha⟩ <;> cases ha
  · rcases ha with ha | ⟨_, ha⟩ <;> cases ha
  · exact ⟨h.remains, h.owner, h.value, h.lock_step hk⟩
  · exact ⟨h.remains, h.owner, h.value, h.lock_step hk⟩

/-- The `V` of an interrupt's handler. -/
theorem Implements.raise (h : k.Implements s) (n : ℕ) : (k.raise n).Implements (s.raise n) := by
  have hsame : (k.raise n).code = k.code ∧ (k.raise n).lockOwner = k.lockOwner ∧
      (k.raise n).value = Function.update k.value (.user n) (k.value (.user n) + 1) := by
    unfold Kernel.raise
    rcases k.wake_eq (.user n) with ⟨-, hw⟩ | ⟨u, q, r, -, hw, -⟩ <;> rw [hw] <;>
      exact ⟨rfl, rfl, rfl⟩
  obtain ⟨hcode, howner, hvalue⟩ := hsame
  refine ⟨fun t => ?_, fun l => ?_, fun m => ?_, fun l => ?_⟩
  · rw [hcode]
    exact h.remains t
  · rw [howner]
    exact h.owner l
  · rw [hvalue]
    by_cases hm : m = n
    · subst hm
      simp [Primitives.raise, h.value]
    · simp [Primitives.raise, h.value, hm]
  · obtain ⟨tr, holder, hl⟩ := h.lock l
    refine ⟨tr, holder, ?_, fun t => ?_, hl.holds_iff, ?_⟩
    · rw [hvalue, Function.update_of_ne (by simp)]
      exact hl.value_eq
    · rw [Inside, hcode, howner]
      exact hl.inside_iff t
    · rw [hcode, howner]
      exact hl.owner_done

/-- Nobody owns the lock that a thread is about to be set as the owner of. -/
theorem Implements.unowned (h : k.Implements s) {l : ℕ} (hc : k.code t = [.setOwner (.user l)]) :
    s.owner l = none := by
  obtain ⟨tr, holder, hl⟩ := h.lock l
  have hin : holder = some t := (hl.inside_iff t).mp (Or.inr (Or.inl (by rw [hc]; rfl)))
  rw [← h.owner l]
  cases hown : k.lockOwner (.user l) with
  | none => rfl
  | some u =>
    have hu := (hl.inside_iff u).mp (Or.inl hown)
    rw [hin] at hu
    cases hu
    exact absurd (by rw [hc]; rfl) (hl.owner_done t hown).2.1

/-- One test of the loop of `P`, as callers see it: the thread sleeps or goes on. -/
theorem semaphoreP_seen (k : Kernel T) (t : T) (m : SemId) (is : List Instr) :
    (k.value m = 0 ∧ (k.semaphoreP t m is).code = k.code ∧
        (k.semaphoreP t m is).value = k.value) ∨
      (k.value m ≠ 0 ∧ (k.semaphoreP t m is).code = Function.update k.code t is ∧
        (k.semaphoreP t m is).value = Function.update k.value m (k.value m - 1)) := by
  unfold semaphoreP
  split
  · rename_i hv
    exact Or.inl ⟨hv, rfl, rfl⟩
  · rename_i hv
    exact Or.inr ⟨hv, rfl, rfl⟩

omit [DecidableEq T] in
theorem wake_seen (k : Kernel T) (m : SemId) :
    (k.wake m).code = k.code ∧ (k.wake m).value = k.value ∧
      (k.wake m).lockOwner = k.lockOwner := by
  rcases k.wake_eq m with ⟨-, hw⟩ | ⟨u, q, r, -, hw, -⟩ <;> rw [hw] <;> exact ⟨rfl, rfl, rfl⟩

/-- `V`, as callers see it. -/
theorem semaphoreV_seen (k : Kernel T) (t : T) (m : SemId) (is : List Instr) :
    (k.semaphoreV t m is).code = Function.update k.code t is ∧
      (k.semaphoreV t m is).lockOwner = k.lockOwner ∧
      (k.semaphoreV t m is).value = Function.update k.value m (k.value m + 1) := by
  obtain ⟨hcode, -, howner⟩ := k.wake_seen m
  refine ⟨?_, howner, rfl⟩
  rw [semaphoreV, goOn_code]
  exact congrArg (fun f => Function.update f t is) hcode

theorem semaphoreP_owner (k : Kernel T) (t : T) (m : SemId) (is : List Instr) :
    (k.semaphoreP t m is).lockOwner = k.lockOwner := by
  unfold semaphoreP
  split <;> rfl

/-- **An instruction is the effect of the thread's call, or is not seen.** -/
theorem Implements.run (h : k.Implements s) (hk : k.step .run = some k') :
    k'.Implements s ∨ ∃ t s', s.effect t = some s' ∧ k'.Implements s' := by
  rcases step_cases hk with ⟨_, _, ha, _⟩ | ⟨t, i, rest, -, ht, hc, he⟩ | ⟨_, ha, _⟩ | ⟨_, ha, _⟩
  · cases ha
  · have hr := h.remains t
    rw [hc] at hr
    generalize hp : s.pending t = c at hr
    cases hr with
    | released l | signalled w =>
      rw [← Option.some.inj he] at hk ⊢
      obtain ⟨hcode, howner, hvalue⟩ := k.semaphoreV_seen t _ []
      refine Or.inl (h.quiet hk hcode (by rw [hp]; exact .done) (fun l => by rw [howner])
        fun n => ?_)
      rw [hvalue, Function.update_of_ne (by simp)]
    | p n =>
      rw [← Option.some.inj he] at hk ⊢
      have howner := k.semaphoreP_owner t (.user n) []
      rcases k.semaphoreP_seen t (.user n) [] with ⟨-, hcode, hvalue⟩ | ⟨hv, hcode, hvalue⟩
      · have hstays : (k.semaphoreP t (.user n) []).code =
            Function.update k.code t [.p (.user n)] := by
          rw [hcode, ← hc, Function.update_eq_self]
        exact Or.inl (h.quiet hk hstays (by rw [hp]; exact .p n) (fun l => by rw [howner])
          fun m => by rw [hvalue])
      · rw [h.value n] at hv hvalue
        refine Or.inr ⟨t, _, Primitives.effect_eq_some.mpr (.p hp hv), ?_⟩
        refine h.moved hk hcode rfl .done (fun l => ?_) fun m => ?_
        · rw [howner]
          exact h.owner l
        · rw [hvalue]
          by_cases hm : m = n
          · subst hm
            simp
          · simp [hm, h.value m]
    | v n =>
      rw [← Option.some.inj he] at hk ⊢
      obtain ⟨hcode, howner, hvalue⟩ := k.semaphoreV_seen t (.user n) []
      rw [h.value n] at hvalue
      refine Or.inr ⟨t, _, Primitives.effect_eq_some.mpr (.v hp), ?_⟩
      refine h.moved hk hcode rfl .done (fun l => ?_) fun m => ?_
      · rw [howner]
        exact h.owner l
      · rw [hvalue]
        by_cases hm : m = n
        · subst hm
          simp
        · simp [hm, h.value m]
    | acquire l =>
      simp only [exec] at he
      split at he
      · cases he
      · obtain ⟨o, q, r, hin, -⟩ := k.inherit_eq t (.user l)
        rw [hin] at he
        rw [← Option.some.inj he] at hk ⊢
        exact Or.inl (h.quiet hk rfl (by rw [hp]; exact .acquireP l) (fun _ => rfl) fun _ => rfl)
    | acquireP l =>
      rw [← Option.some.inj he] at hk ⊢
      have howner := k.semaphoreP_owner t (.lock (.user l)) [.setOwner (.user l)]
      rcases k.semaphoreP_seen t (.lock (.user l)) [.setOwner (.user l)] with
        ⟨-, hcode, hvalue⟩ | ⟨hv, hcode, hvalue⟩
      · have hstays : (k.semaphoreP t (.lock (.user l)) [.setOwner (.user l)]).code =
            Function.update k.code t [.acquireP (.user l)] := by
          rw [hcode, ← hc, Function.update_eq_self]
        exact Or.inl (h.quiet hk hstays (by rw [hp]; exact .acquireP l) (fun l => by rw [howner])
          fun m => by rw [hvalue])
      · refine Or.inl (h.quiet hk hcode (by rw [hp]; exact .setOwner l) (fun l => by rw [howner])
          fun m => ?_)
        rw [hvalue, Function.update_of_ne (by simp)]
    | setOwner l =>
      rw [← Option.some.inj he] at hk ⊢
      refine Or.inr ⟨t, _, Primitives.effect_eq_some.mpr (.acquire hp (h.unowned hc)), ?_⟩
      refine h.moved hk rfl rfl .done (fun m => ?_) fun m => ?_
      · by_cases hm : m = l
        · subst hm
          simp
        · simp [hm, h.owner m]
      · exact h.value m
    | release l =>
      simp only [exec] at he
      split at he
      · rename_i hown
        obtain ⟨q, r, hd, -⟩ := disinherit_eq
          { k with lockOwner := Function.update k.lockOwner (.user l) none } t (.user l)
        rw [hd] at he
        rw [← Option.some.inj he] at hk ⊢
        rw [h.owner l] at hown
        refine Or.inr ⟨t, _, Primitives.effect_eq_some.mpr (.release hp hown), ?_⟩
        refine h.moved hk rfl rfl (.released l) (fun m => ?_) fun m => ?_
        · by_cases hm : m = l
          · subst hm
            simp
          · simp [hm, h.owner m]
        · exact h.value m
      · cases he
    | signal n l =>
      simp only [exec] at he
      split at he
      · rename_i hown
        rw [show (CondId.user n l).lock = .user l from rfl, h.owner l] at hown
        refine Or.inr ⟨t, _, Primitives.effect_eq_some.mpr (.signal hp hown), ?_⟩
        split at he <;> rw [← Option.some.inj he] at hk ⊢
        · exact h.moved hk rfl rfl .done h.owner h.value
        · exact h.moved hk rfl rfl (.signalled _) h.owner h.value
      · cases he
    | wait n l =>
      simp only [exec] at he
      split at he
      · rw [← Option.some.inj he] at hk ⊢
        refine Or.inl (h.quiet hk rfl (by rw [hp]; exact .waiting n l _) (fun _ => rfl) fun m => ?_)
        simp
      · cases he
    | waiting n l w =>
      simp only [exec] at he
      split at he
      · rename_i hown
        obtain ⟨q, r, hd, -⟩ := disinherit_eq
          { k with lockOwner := Function.update k.lockOwner (.user l) none } t (.user l)
        rw [hd] at he
        rw [← Option.some.inj he] at hk ⊢
        rw [h.owner l] at hown
        refine Or.inr ⟨t, _, Primitives.effect_eq_some.mpr (.wait hp hown), ?_⟩
        refine h.moved hk rfl rfl (.leaving l w) (fun m => ?_) fun m => ?_
        · by_cases hm : m = l
          · subst hm
            simp
          · simp [hm, h.owner m]
        · exact h.value m
      · cases he
    | leaving l w =>
      rw [← Option.some.inj he] at hk ⊢
      obtain ⟨hcode, howner, hvalue⟩ := k.semaphoreV_seen t (.lock (.user l))
        [.p (.waiter w), .acquire (.user l)]
      refine Or.inl (h.quiet hk hcode (by rw [hp]; exact .sleeping l w) (fun l => by rw [howner])
        fun n => ?_)
      rw [hvalue, Function.update_of_ne (by simp)]
    | sleeping l w =>
      rw [← Option.some.inj he] at hk ⊢
      have howner := k.semaphoreP_owner t (.waiter w) [.acquire (.user l)]
      rcases k.semaphoreP_seen t (.waiter w) [.acquire (.user l)] with
        ⟨-, hcode, hvalue⟩ | ⟨hv, hcode, hvalue⟩
      · have hstays : (k.semaphoreP t (.waiter w) [.acquire (.user l)]).code =
            Function.update k.code t [.p (.waiter w), .acquire (.user l)] := by
          rw [hcode, ← hc, Function.update_eq_self]
        exact Or.inl (h.quiet hk hstays (by rw [hp]; exact .sleeping l w)
          (fun l => by rw [howner]) fun m => by rw [hvalue])
      · refine Or.inl (h.quiet hk hcode (by rw [hp]; exact .acquire l) (fun l => by rw [howner])
          fun m => ?_)
        rw [hvalue, Function.update_of_ne (by simp)]
  · cases ha
  · cases ha

theorem implements_initial (multilevel : Bool) (value : ℕ → ℤ) (priority : T → ℕ)
    (ready : List T) : (initial multilevel value priority ready).Implements (.initial value) where
  remains _ := .done
  owner _ := rfl
  value _ := rfl
  lock l := ⟨[], none, lockInv_initial multilevel value priority ready (.user l)⟩

end Step

/-! ## The refinement -/

/-- Whether an action, if it is a call, is of a primitive. -/
def Action.primitive : Action T → Bool
  | .call c => c.primitive
  | _ => true

end Kernel
end PaldOs
