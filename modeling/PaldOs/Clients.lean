import PaldOs.Primitives

/-! # Programs over the primitives

A program for several machines, each with the threads and the kernel of its own, over data that all
of them can reach.  A thread is in a phase of the program; when the routine it has called has
returned it goes on (`Client.proceed`): it looks at the data, changes it, calls the next routine.
An interrupt (`Client.interrupt`) changes the data in no thread and does the `V` of its handler.
What is not the program's to decide, the arguments of a call or what a device does, is an input:
`X` of a thread, `Y` of an interrupt.

`Cluster` runs such a program on kernels, `Ideal` on the primitives, where a call takes effect at
one moment.  `Client.invariant` is the rule by which a program is verified: what holds at the start
and is kept by the moves of the threads, by the effects of their calls and by the interrupts holds
in every run on kernels.  Where each phase has the lock it needs (`Client.Disciplined`), the rule
provides mutual exclusion (`Ideal.Guarded`).
-/
namespace PaldOs

/-- What a thread does between two calls: the phase it goes on in, the data it leaves and what is
recorded of it. -/
structure Move (P D ε : Type) where
  phase : P
  data : D
  events : List ε

/-- What an interrupt does: the data it leaves, the semaphore its handler raises and what is
recorded of it. -/
structure Handling (D ε : Type) where
  data : D
  raised : Option ℕ
  events : List ε

/-- A program for the machines `M` with threads `T`: `call p` is the routine that is called on
entering phase `p`. -/
structure Client (M T P D X Y ε : Type) where
  call : P → Option Kernel.Call
  proceed : M → T → X → P → D → Option (Move P D ε)
  interrupt : M → Y → D → Option (Handling D ε)

/-! ## On kernels -/

/-- The machines with their kernels. -/
structure Cluster (M T P D : Type) where
  kernel : M → Kernel T
  phase : M × T → P
  data : D

/-- What can happen next, on machine `m`. -/
inductive Cluster.Action (M T X Y : Type) where
  /-- The running thread, back from the routine it has called, goes on in the program. -/
  | proceed (m : M) (x : X)
  /-- The running thread executes an instruction of a routine. -/
  | run (m : M)
  /-- The running thread yields the processor. -/
  | yield (m : M)
  /-- A ready thread gets the processor. -/
  | dispatch (m : M) (t : T)
  /-- An interrupt comes. -/
  | interrupt (m : M) (y : Y)

section Clients
variable {M T P D X Y ε : Type} [DecidableEq M] [DecidableEq T]

namespace Client

/-- The kernel after the call of a move. -/
def callOf (k : Kernel T) : Option Kernel.Call → Option (Kernel T)
  | none => some k
  | some c => k.step (.call c)

/-- The kernel after the `V` of a handler. -/
def raiseOf (k : Kernel T) : Option ℕ → Kernel T
  | none => k
  | some n => k.raise n

/-- **One step of the machines.** -/
def step (c : Client M T P D X Y ε) (s : Cluster M T P D) :
    Cluster.Action M T X Y → Option (Cluster M T P D)
  | .proceed m x => do
      let t ← (s.kernel m).currentThread
      if (s.kernel m).code t = [] then
        let v ← c.proceed m t x (s.phase (m, t)) s.data
        let k ← callOf (s.kernel m) (c.call v.phase)
        some { kernel := Function.update s.kernel m k
               phase := Function.update s.phase (m, t) v.phase
               data := v.data }
      else none
  | .run m => do
      let k ← (s.kernel m).step .run
      some { s with kernel := Function.update s.kernel m k }
  | .yield m => do
      let k ← (s.kernel m).step .yield
      some { s with kernel := Function.update s.kernel m k }
  | .dispatch m t => do
      let k ← (s.kernel m).step (.dispatch t)
      some { s with kernel := Function.update s.kernel m k }
  | .interrupt m y => do
      let v ← c.interrupt m y s.data
      some { s with
        kernel := Function.update s.kernel m (raiseOf (s.kernel m) v.raised)
        data := v.data }

/-- The events of a step. -/
def emit (c : Client M T P D X Y ε) (s : Cluster M T P D) : Cluster.Action M T X Y → List ε
  | .proceed m x =>
      match (s.kernel m).currentThread with
      | none => []
      | some t =>
        match c.proceed m t x (s.phase (m, t)) s.data with
        | none => []
        | some v => v.events
  | .interrupt m y =>
      match c.interrupt m y s.data with
      | none => []
      | some v => v.events
  | _ => []

/-- The runs of the program. -/
def Runs (c : Client M T P D X Y ε) (start : Cluster M T P D) : List ε → Cluster M T P D → Prop :=
  Run c.step c.emit (fun _ _ _ => True) start

end Client

/-- The machines at the start: the semaphores are zero and the threads of `ready` are ready. -/
def Cluster.initial (multilevel : Bool) (priority : M → T → ℕ) (ready : M → List T)
    (phase : M × T → P) (data : D) : Cluster M T P D where
  kernel m := .initial multilevel (fun _ => 0) (priority m) (ready m)
  phase := phase
  data := data

/-! ## On the primitives -/

/-- The machines with locks and semaphores whose calls take effect at one moment. -/
structure Ideal (M T P D : Type) where
  prims : M → Primitives T
  phase : M × T → P
  data : D

namespace Ideal

/-- The state after a move of thread `t` of machine `m`. -/
def moved (c : Client M T P D X Y ε) (a : Ideal M T P D) (m : M) (t : T) (v : Move P D ε) :
    Ideal M T P D where
  prims := Function.update a.prims m ((a.prims m).setPending t (c.call v.phase))
  phase := Function.update a.phase (m, t) v.phase
  data := v.data

/-- The state after an effect on machine `m`. -/
def effected (a : Ideal M T P D) (m : M) (s : Primitives T) : Ideal M T P D :=
  { a with prims := Function.update a.prims m s }

/-- The semaphores after the `V` of a handler. -/
def raised (s : Primitives T) : Option ℕ → Primitives T
  | none => s
  | some n => s.raise n

/-- The state after an interrupt of machine `m`. -/
def handled (a : Ideal M T P D) (m : M) (v : Handling D ε) : Ideal M T P D :=
  { a with
    prims := Function.update a.prims m (raised (a.prims m) v.raised)
    data := v.data }

def initial (phase : M × T → P) (data : D) : Ideal M T P D where
  prims _ := .initial fun _ => 0
  phase := phase
  data := data

/-! ## Critical sections -/

/-- The lock a thread has, in a phase that needs the lock `needs`, with its call pending. -/
def holding (needs : Option ℕ) : Option Kernel.Call → Option ℕ
  | some (.acquire _) => none
  | some (.release l) => some l
  | _ => needs

/-- A call that can be made on entering a phase that needs the lock `needs`. -/
def Fits (needs : Option ℕ) : Option Kernel.Call → Prop
  | some (.acquire l) => needs = some l
  | some (.release _) => needs = none
  | some (.wait _ l) => needs = some l
  | some c => c.primitive = true
  | none => True

/-- What is pending of a call: nothing any more, or the call, or the `Acquire` of a `Wait`. -/
inductive InCall : Option Kernel.Call → Option Kernel.Call → Prop
  | returned {call : Option Kernel.Call} : InCall call none
  | made {call : Option Kernel.Call} : InCall call call
  | waited {n l : ℕ} : InCall (some (.wait n l)) (some (.acquire l))

/-- A `P` that is pending is the call. -/
theorem InCall.p {call : Option Kernel.Call} {n : ℕ} (h : InCall call (some (.p n))) :
    call = some (.p n) := by
  cases h
  rfl

/-- A call that is not a `Wait` is pending as it was made. -/
theorem InCall.made_or {call : Kernel.Call} {c : Option Kernel.Call} (h : InCall (some call) c)
    (hw : ∀ n l, call ≠ .wait n l) : c = none ∨ c = some call := by
  cases h with
  | returned => exact Or.inl rfl
  | made => exact Or.inr rfl
  | waited => exact absurd rfl (hw _ _)

/-- So is a `V`. -/
theorem InCall.v {call : Option Kernel.Call} {n : ℕ} (h : InCall call (some (.v n))) :
    call = some (.v n) := by
  cases h
  rfl

/-- **Threads are in the calls of their phases and in the critical sections of the locks they own**,
where `needs` tells which phases are in which. -/
structure Guarded (c : Client M T P D X Y ε) (needs : P → Option ℕ) (a : Ideal M T P D) : Prop where
  inCall : ∀ m t, InCall (c.call (a.phase (m, t))) ((a.prims m).pending t)
  owner : ∀ m t l, (a.prims m).owner l = some t ↔
    holding (needs (a.phase (m, t))) ((a.prims m).pending t) = some l

omit [DecidableEq M] [DecidableEq T] in
/-- A thread that goes on in a critical section is alone in it. -/
theorem Guarded.alone {c : Client M T P D X Y ε} {needs : P → Option ℕ} {a : Ideal M T P D}
    (h : a.Guarded c needs) {m : M} {t u : T} {l : ℕ} (ht : needs (a.phase (m, t)) = some l)
    (hp : (a.prims m).pending t = none)
    (hu : holding (needs (a.phase (m, u))) ((a.prims m).pending u) = some l) : u = t := by
  have hown : (a.prims m).owner l = some t := by
    rw [h.owner, hp]
    exact ht
  rw [(h.owner m u l).mpr hu] at hown
  exact Option.some.inj hown

end Ideal

/-- **The discipline of a program**: the locks its phases need are acquired before and released
after. -/
structure Client.Disciplined (c : Client M T P D X Y ε) (needs : P → Option ℕ) : Prop where
  fits : ∀ p, Ideal.Fits (needs p) (c.call p)
  brings : ∀ {m t x p d v}, c.proceed m t x p d = some v →
    Ideal.holding (needs v.phase) (c.call v.phase) = needs p

namespace Ideal
variable {c : Client M T P D X Y ε} {needs : P → Option ℕ} {a : Ideal M T P D} {m : M} {t : T}

/-! ### What a step leaves alone -/

section Frame
variable {v : Move P D ε} {w : Handling D ε} {s : Primitives T} {m' : M}

@[simp] theorem moved_data : (a.moved c m t v).data = v.data := rfl

@[simp] theorem moved_phase :
    (a.moved c m t v).phase = Function.update a.phase (m, t) v.phase := rfl

@[simp] theorem moved_prims :
    (a.moved c m t v).prims m = (a.prims m).setPending t (c.call v.phase) :=
  Function.update_self ..

theorem moved_prims_of_ne (h : m' ≠ m) : (a.moved c m t v).prims m' = a.prims m' :=
  Function.update_of_ne h ..

@[simp] theorem moved_owner : ((a.moved c m t v).prims m').owner = (a.prims m').owner := by
  by_cases h : m' = m
  · subst h
    rw [moved_prims]
    rfl
  · rw [moved_prims_of_ne h]

@[simp] theorem moved_value : ((a.moved c m t v).prims m').value = (a.prims m').value := by
  by_cases h : m' = m
  · subst h
    rw [moved_prims]
    rfl
  · rw [moved_prims_of_ne h]

/-- The other threads. -/
theorem moved_other {u : T} (h : (m', u) ≠ (m, t)) :
    (a.moved c m t v).phase (m', u) = a.phase (m', u) ∧
      ((a.moved c m t v).prims m').pending u = (a.prims m').pending u := by
  refine ⟨Function.update_of_ne h _ _, ?_⟩
  by_cases hm : m' = m
  · subst hm
    have hu : u ≠ t := fun he => h (by rw [he])
    rw [moved_prims, Primitives.setPending_pending, Function.update_of_ne hu]
  · rw [moved_prims_of_ne hm]

omit [DecidableEq T] in
@[simp] theorem effected_prims : (a.effected m s).prims m = s := Function.update_self ..

omit [DecidableEq T] in
theorem effected_prims_of_ne (h : m' ≠ m) : (a.effected m s).prims m' = a.prims m' :=
  Function.update_of_ne h ..

omit [DecidableEq T] in
@[simp] theorem handled_prims : (a.handled m w).prims m = raised (a.prims m) w.raised :=
  Function.update_self ..

omit [DecidableEq T] in
theorem handled_prims_of_ne (h : m' ≠ m) : (a.handled m w).prims m' = a.prims m' :=
  Function.update_of_ne h ..

omit [DecidableEq T] in
/-- A handler makes no call and takes no lock. -/
theorem handled_seen : ((a.handled m w).prims m').owner = (a.prims m').owner ∧
    ((a.handled m w).prims m').pending = (a.prims m').pending := by
  by_cases h : m' = m
  · subst h
    rw [handled_prims]
    cases w.raised <;> exact ⟨rfl, rfl⟩
  · rw [handled_prims_of_ne h]
    exact ⟨rfl, rfl⟩

end Frame

/-! ### The discipline is kept -/

/-- A move keeps the discipline: what the thread has does not change with its call, that is for the
effect to do. -/
theorem Guarded.moved (h : a.Guarded c needs) (hp : (a.prims m).pending t = none) {v : Move P D ε}
    (hv : holding (needs v.phase) (c.call v.phase) = needs (a.phase (m, t))) :
    (a.moved c m t v).Guarded c needs := by
  refine ⟨fun m' u => ?_, fun m' u l => ?_⟩
  · by_cases hmu : (m', u) = (m, t)
    · cases hmu
      rw [moved_prims, moved_phase, Primitives.setPending_pending, Function.update_self,
        Function.update_self]
      exact .made
    · obtain ⟨hp', hc'⟩ := moved_other (a := a) (c := c) (v := v) hmu
      rw [hp', hc']
      exact h.inCall m' u
  · rw [moved_owner, h.owner]
    by_cases hmu : (m', u) = (m, t)
    · cases hmu
      rw [moved_prims, moved_phase, Primitives.setPending_pending, Function.update_self,
        Function.update_self, hv, hp]
      exact Iff.rfl
    · obtain ⟨hp', hc'⟩ := moved_other (a := a) (c := c) (v := v) hmu
      rw [hp', hc']

/-- What an effect does to the owner of each lock and to what the thread has. -/
theorem effect_owner {s s' : Primitives T} {n : Option ℕ} {call : Option Kernel.Call}
    (he : Primitives.Effect s t s') (hcall : InCall call (s.pending t)) (hf : Fits n call) :
    InCall call (s'.pending t) ∧
      ((s'.owner = s.owner ∧ holding n (s'.pending t) = holding n (s.pending t)) ∨
      (∃ l, s.owner l = none ∧ s'.owner = Function.update s.owner l (some t) ∧
        holding n (s.pending t) = none ∧ holding n (s'.pending t) = some l) ∨
      ∃ l, s.owner l = some t ∧ s'.owner = Function.update s.owner l none ∧
        holding n (s.pending t) = some l ∧ holding n (s'.pending t) = none) := by
  cases he with
  | p hp | v hp | signal hp =>
    rw [hp]
    simp only [Primitives.setPending_pending, Function.update_self]
    exact ⟨.returned, Or.inl ⟨rfl, rfl⟩⟩
  | acquire hp ho =>
    rw [hp] at hcall ⊢
    simp only [Primitives.setPending_pending, Function.update_self]
    refine ⟨.returned, Or.inr (Or.inl ⟨_, ho, rfl, rfl, ?_⟩)⟩
    cases hcall with
    | made | waited => exact hf
  | release hp ho =>
    rw [hp] at hcall ⊢
    simp only [Primitives.setPending_pending, Function.update_self]
    refine ⟨.returned, Or.inr (Or.inr ⟨_, ho, rfl, rfl, ?_⟩)⟩
    cases hcall with
    | made => exact hf
  | wait hp ho =>
    rw [hp] at hcall ⊢
    simp only [Primitives.setPending_pending, Function.update_self]
    cases hcall with
    | made => exact ⟨.waited, Or.inr (Or.inr ⟨_, ho, rfl, hf, rfl⟩)⟩

/-- An effect keeps the discipline. -/
theorem Guarded.effected (h : a.Guarded c needs) (hf : ∀ p, Fits (needs p) (c.call p))
    {s : Primitives T} (he : Primitives.Effect (a.prims m) t s) :
    (a.effected m s).Guarded c needs := by
  obtain ⟨_, hc, -⟩ := he.pending
  obtain ⟨hcall, howner⟩ := effect_owner he (h.inCall m t) (hf _)
  have hpending : ∀ u, u ≠ t → s.pending u = (a.prims m).pending u := fun u hu => by
    rw [hc, Function.update_of_ne hu]
  refine ⟨fun m' u => ?_, fun m' u l => ?_⟩
  · by_cases hm : m' = m
    · subst hm
      rw [effected_prims]
      by_cases hu : u = t
      · subst hu
        exact hcall
      · rw [hpending u hu]
        exact h.inCall m' u
    · rw [effected_prims_of_ne hm]
      exact h.inCall m' u
  · by_cases hm : m' = m
    · subst hm
      rw [effected_prims]
      show s.owner l = some u ↔ holding (needs (a.phase (m', u))) (s.pending u) = some l
      have hold := h.owner m' u l
      rcases howner with ⟨ho, hh⟩ | ⟨k, hfree, ho, hh, hh'⟩ | ⟨k, hown, ho, hh, hh'⟩
      · rw [ho, hold]
        by_cases hu : u = t
        · rw [hu, hh]
        · rw [hpending u hu]
      · rw [ho]
        by_cases hu : u = t
        · subst hu
          rw [hh', Option.some.injEq]
          rw [hh] at hold
          by_cases hl : l = k
          · simp [hl]
          · simp [hl, Ne.symm hl, hold]
        · rw [hpending u hu, ← hold]
          by_cases hl : l = k
          · subst hl
            simp [hfree, Ne.symm hu]
          · simp [hl]
      · rw [ho]
        by_cases hu : u = t
        · subst hu
          rw [hh']
          rw [hh, Option.some.injEq] at hold
          by_cases hl : l = k
          · simp [hl]
          · simp [hl, hold, Ne.symm hl]
        · rw [hpending u hu, ← hold]
          by_cases hl : l = k
          · subst hl
            simp [hown, Ne.symm hu]
          · simp [hl]
    · rw [effected_prims_of_ne hm]
      exact h.owner m' u l

omit [DecidableEq T] in
/-- An interrupt keeps the discipline. -/
theorem Guarded.handled (h : a.Guarded c needs) {v : Handling D ε} :
    (a.handled m v).Guarded c needs := by
  refine ⟨fun m' u => ?_, fun m' u l => ?_⟩
  · rw [handled_seen.2]
    exact h.inCall m' u
  · rw [handled_seen.1, handled_seen.2]
    exact h.owner m' u l

end Ideal

/-! ## The rule -/

/-- The machines implement the ideal ones. -/
structure Cluster.Implements (s : Cluster M T P D) (a : Ideal M T P D) : Prop where
  kernel : ∀ m, (s.kernel m).Implements (a.prims m)
  phase : s.phase = a.phase
  data : s.data = a.data

namespace Client

/-- **What has to be shown of an invariant**: it holds at the start, and a move, an effect and an
interrupt keep it, where threads are in the critical sections of the locks they own. -/
structure Keeps (c : Client M T P D X Y ε) (needs : P → Option ℕ) (start : Ideal M T P D)
    (I : List ε → Ideal M T P D → Prop) : Prop where
  start : I [] start
  move : ∀ {tr a m t x v}, I tr a → a.Guarded c needs → (a.prims m).pending t = none →
    c.proceed m t x (a.phase (m, t)) a.data = some v → I (tr ++ v.events) (a.moved c m t v)
  effect : ∀ {tr a m t s}, I tr a → a.Guarded c needs → Primitives.Effect (a.prims m) t s →
    I tr (a.effected m s)
  interrupt : ∀ {tr a m y v}, I tr a → a.Guarded c needs → c.interrupt m y a.data = some v →
    I (tr ++ v.events) (a.handled m v)

section Rule
variable {c : Client M T P D X Y ε} {needs : P → Option ℕ} {a : Ideal M T P D}
  {s s' : Cluster M T P D}

/-- One kernel has moved with its primitives. -/
theorem implements_update (h : ∀ m, (s.kernel m).Implements (a.prims m)) (m : M) {k : Kernel T}
    {p : Primitives T} (hk : k.Implements p) (m' : M) :
    (Function.update s.kernel m k m').Implements (Function.update a.prims m p m') := by
  by_cases hm : m' = m
  · subst hm
    rwa [Function.update_self, Function.update_self]
  · rw [Function.update_of_ne hm, Function.update_of_ne hm]
    exact h m'

/-- The call of a move, in a kernel and in the primitives. -/
theorem implements_call {k k' : Kernel T} {p : Primitives T} (h : k.Implements p) {t : T}
    (ht : k.currentThread = some t) (hcode : k.code t = []) {n : Option ℕ}
    {call : Option Kernel.Call} (hc : Ideal.Fits n call) (hk : callOf k call = some k') :
    k'.Implements (p.setPending t call) := by
  cases call with
  | none =>
    rw [← Option.some.inj hk]
    have hnone : p.pending t = none := Remains.of_nil (hcode ▸ h.remains t)
    have hsame : p.setPending t none = p := by
      rw [Primitives.setPending, ← hnone, Function.update_eq_self]
    rwa [hsame]
  | some call =>
    have hprim : call.primitive = true := by
      cases call with
      | p | v | acquire | release | wait | signal => rfl
      | broadcast | send | receive => cases hc
    obtain ⟨u, hu, -, himp⟩ := h.call hprim hk
    rw [ht] at hu
    cases hu
    exact himp

/-- **The rule for programs**: what is shown over the primitives holds on kernels, in every run. -/
theorem invariant (hc : c.Disciplined needs) {I : List ε → Ideal M T P D → Prop}
    {multilevel : Bool} {priority : M → T → ℕ} {ready : M → List T} {phase : M × T → P} {data : D}
    (hfree : ∀ mt, needs (phase mt) = none) (hI : c.Keeps needs (.initial phase data) I)
    {tr : List ε} (h : c.Runs (.initial multilevel priority ready phase data) tr s) :
    ∃ a, I tr a ∧ a.Guarded c needs ∧ s.Implements a := by
  induction h with
  | start =>
    refine ⟨_, hI.start, ⟨fun m t => .returned, fun m t l => ?_⟩, ⟨fun m => ?_, rfl, rfl⟩⟩
    · show none = some t ↔ needs (phase (m, t)) = some l
      rw [hfree]
      exact iff_of_false nofun nofun
    · exact Kernel.implements_initial ..
  | @next tr s s' act _ _ hs ih =>
    obtain ⟨a, hIa, hg, himp⟩ := ih
    cases act with
    | proceed m x =>
      simp only [step, Option.bind_eq_bind, Option.bind_eq_some_iff] at hs
      obtain ⟨t, ht, hs⟩ := hs
      split at hs
      · rename_i hcode
        simp only [Option.bind_eq_some_iff, Option.some.injEq] at hs
        obtain ⟨v, hv, k, hk, rfl⟩ := hs
        have hemit : c.emit s (.proceed m x) = v.events := by simp only [emit, ht, hv]
        rw [hemit]
        have hnone : (a.prims m).pending t = none := by
          apply Remains.of_nil
          rw [← hcode]
          exact (himp.kernel m).remains t
        rw [himp.phase, himp.data] at hv
        refine ⟨a.moved c m t v, hI.move hIa hg hnone hv, hg.moved hnone (hc.brings hv),
          ⟨?_, ?_, rfl⟩⟩
        · exact implements_update himp.kernel m
            (implements_call (himp.kernel m) ht hcode (hc.fits _) hk)
        · show Function.update s.phase (m, t) v.phase = _
          rw [himp.phase]
          rfl
      · cases hs
    | run m =>
      simp only [step, Option.bind_eq_bind, Option.bind_eq_some_iff, Option.some.injEq] at hs
      obtain ⟨k, hk, rfl⟩ := hs
      simp only [emit, List.append_nil]
      rcases (himp.kernel m).run hk with himp' | ⟨t, p, he, himp'⟩
      · refine ⟨a, hIa, hg, ⟨fun m' => ?_, himp.phase, himp.data⟩⟩
        have hmoved := implements_update himp.kernel m himp' m'
        rwa [Function.update_eq_self] at hmoved
      · rw [Primitives.effect_eq_some] at he
        exact ⟨a.effected m p, hI.effect hIa hg he, hg.effected hc.fits he,
          ⟨implements_update himp.kernel m himp', himp.phase, himp.data⟩⟩
    | yield m | dispatch m u =>
      simp only [step, Option.bind_eq_bind, Option.bind_eq_some_iff, Option.some.injEq] at hs
      obtain ⟨k, hk, rfl⟩ := hs
      simp only [emit, List.append_nil]
      refine ⟨a, hIa, hg, ⟨fun m' => ?_, himp.phase, himp.data⟩⟩
      have himp' : k.Implements (a.prims m) := (himp.kernel m).schedule hk (by simp)
      have hmoved := implements_update himp.kernel m himp' m'
      rwa [Function.update_eq_self] at hmoved
    | interrupt m y =>
      simp only [step, Option.bind_eq_bind, Option.bind_eq_some_iff, Option.some.injEq] at hs
      obtain ⟨v, hv, rfl⟩ := hs
      have hemit : c.emit s (.interrupt m y) = v.events := by simp only [emit, hv]
      rw [hemit]
      rw [himp.data] at hv
      refine ⟨a.handled m v, hI.interrupt hIa hg hv, hg.handled, ⟨?_, himp.phase, rfl⟩⟩
      have himp' : (raiseOf (s.kernel m) v.raised).Implements
          (Ideal.raised (a.prims m) v.raised) := by
        cases v.raised with
        | none => exact himp.kernel m
        | some n => exact (himp.kernel m).raise n
      exact implements_update himp.kernel m himp'

end Rule
end Client
end Clients
end PaldOs
