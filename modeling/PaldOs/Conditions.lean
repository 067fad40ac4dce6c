import PaldOs.ChannelWakeup
import PaldOs.Semaphores

/-! # Whom a condition wakes

`Condition::Wait` puts a semaphore of its own at the end of the queue of the condition, and
`Condition::Signal` does a `V` on the one at the head and leaves it there.  So the head is the
semaphore of the first `Wait` there ever was: a `Signal` after it wakes nobody, and `Broadcast`,
which signals until the queue is empty, does not end.

A run is recorded by its `Wait`s, each with the number of its semaphore, and its `Signal`s, each
with the semaphore it raises.
-/
namespace PaldOs
namespace Kernel
variable {T : Type} [DecidableEq T]

/-- What is recorded of the conditions: thread `t` has put its semaphore into the queue of `c`; or
it signals `c`, and which semaphore it finds at the head of the queue. -/
inductive CondEvent (T : Type) where
  | waited (c : CondId) (t : T) (n : ℕ)
  | signalled (c : CondId) (t : T) (n : Option ℕ)

/-- The events of an instruction. -/
def condEvents (k : Kernel T) (t : T) : Instr → List (CondEvent T)
  | .wait c => [.waited c t k.nextWaiter]
  | .signal c => [.signalled c t (k.waiters c).head?]
  | _ => []

/-- The events of an action. -/
def condEmit (k : Kernel T) : Action T → List (CondEvent T)
  | .run =>
      match k.currentThread with
      | none => []
      | some t =>
        match k.code t with
        | [] => []
        | i :: _ => k.condEvents t i
  | _ => []

/-- The runs of the kernel, with these events. -/
def CondRuns (start : Kernel T) : List (CondEvent T) → Kernel T → Prop :=
  Run step condEmit (fun _ _ _ => True) start

/-- The `Wait`s on `c`, the first one first. -/
def waits (c : CondId) (tr : List (CondEvent T)) : List (T × ℕ) :=
  tr.filterMap fun
    | .waited c' t n => if c' = c then some (t, n) else none
    | _ => none

/-- The semaphores raised by `Signal`s on `c`. -/
def signals (c : CondId) (tr : List (CondEvent T)) : List ℕ :=
  tr.filterMap fun
    | .signalled c' _ n => if c' = c then n else none
    | _ => none

/-- **The `Wait`s on `c` that no `Signal` has released**, the longest one first. -/
def unreleased (c : CondId) (tr : List (CondEvent T)) : List (T × ℕ) :=
  (waits c tr).filter fun w => w.2 ∉ signals c tr

/-- `t` is in the `Wait` with semaphore `n`, and cannot go on. -/
def Blocked (k : Kernel T) (t : T) (n : ℕ) : Prop :=
  .p (.waiter n) ∈ k.code t ∧ k.value (.waiter n) = 0

/-- `t` can go on from the `Wait` with semaphore `n`. -/
def Released (k : Kernel T) (t : T) (n : ℕ) : Prop :=
  k.value (.waiter n) = 1 ∧ t ∉ k.queue (.waiter n)

/-- **The `Signal` on `c` that is executed next wakes a waiter.**  It releases the thread that waits
longest and leaves the others blocked; and if nobody waits, threads that wait later are blocked
until a later `Signal`. -/
structure SignalWakes (tr : List (CondEvent T)) (k : Kernel T) (c : CondId) : Prop where
  oldest : ∀ t n others, unreleased c tr = (t, n) :: others →
    ∃ k₁ k₂, k.step .run = some k₁ ∧ k₁.step .run = some k₂ ∧ k₂.Released t n ∧
      ∀ w ∈ others, k₂.Blocked w.1 w.2
  nobody : unreleased c tr = [] → ∃ k₁, k.step .run = some k₁ ∧
    ∀ es k', CondRuns k₁ es k' → ∀ w ∈ unreleased c es, k'.Blocked w.1 w.2

/-! ## What an instruction records -/

section Events
variable {c : CondId} {tr es : List (CondEvent T)} {k : Kernel T} {t : T}

omit [DecidableEq T] in
theorem waits_append : waits c (tr ++ es) = waits c tr ++ waits c es := List.filterMap_append ..

omit [DecidableEq T] in
theorem signals_append : signals c (tr ++ es) = signals c tr ++ signals c es :=
  List.filterMap_append ..

omit [DecidableEq T] in
theorem mem_unreleased {w : T × ℕ} :
    w ∈ unreleased c tr ↔ w ∈ waits c tr ∧ w.2 ∉ signals c tr := by
  rw [unreleased, List.mem_filter, decide_eq_true_iff]

omit [DecidableEq T] in
theorem mem_waits_condEvents {i : Instr} {w : T × ℕ} :
    w ∈ waits c (k.condEvents t i) ↔ i = .wait c ∧ w = (t, k.nextWaiter) := by
  cases i with
  | wait d =>
    by_cases hd : d = c
    · simp [condEvents, waits, hd]
    · simp [condEvents, waits, hd]
  | _ => simp [condEvents, waits]

omit [DecidableEq T] in
theorem mem_signals_condEvents {i : Instr} {n : ℕ} :
    n ∈ signals c (k.condEvents t i) ↔ i = .signal c ∧ (k.waiters c).head? = some n := by
  cases i with
  | signal d =>
    by_cases hd : d = c
    · simp [condEvents, signals, hd]
    · simp [condEvents, signals, hd]
  | _ => simp [condEvents, signals]

omit [DecidableEq T] in
theorem waits_condEvents {i : Instr} (hi : i ≠ .wait c) : waits c (k.condEvents t i) = [] :=
  List.eq_nil_iff_forall_not_mem.mpr fun _ hw => hi (mem_waits_condEvents.mp hw).1

omit [DecidableEq T] in
theorem condEmit_run {i : Instr} {rest : List Instr} (ht : k.currentThread = some t)
    (hc : k.code t = i :: rest) : k.condEmit .run = k.condEvents t i := by
  simp only [condEmit, ht, hc]

end Events

/-! ## The code of the threads -/

section Exec
variable {k k' : Kernel T} {t : T} {i : Instr} {rest : List Instr}

/-- The code of a thread that has called `Wait`. -/
theorem code_wait {d : CondId} (he : k.exec t rest (.wait d) = some k') :
    k'.code t = .release d.lock :: .p (.waiter k.nextWaiter) :: .acquire d.lock :: rest := by
  simp only [exec] at he
  split at he
  · rw [← Option.some.inj he, goOn_code, Function.update_self]
  · cases he

/-- The code of a thread that has called `Signal`. -/
theorem code_signal {d : CondId} (he : k.exec t rest (.signal d) = some k') :
    k'.code t = ((k.waiters d).head?.map fun n => .v (.waiter n)).toList ++ rest := by
  simp only [exec] at he
  split at he
  · split at he
    · rename_i hnil
      rw [← Option.some.inj he, goOn_code, Function.update_self, hnil]
      rfl
    · rename_i n q hcons
      rw [← Option.some.inj he, goOn_code, Function.update_self, hcons]
      rfl
  · cases he

/-- Where a `P` on a private semaphore comes from. -/
theorem mem_p_exec (hc : k.code t = i :: rest) (he : k.exec t rest i = some k') {u : T} {n : ℕ}
    (h : .p (.waiter n) ∈ k'.code u) :
    .p (.waiter n) ∈ k.code u ∨ u = t ∧ n = k.nextWaiter ∧ ∃ d, i = .wait d := by
  by_cases hu : u = t
  · subst hu
    by_cases hi : ∃ d, i = .wait d
    · obtain ⟨d, rfl⟩ := hi
      rw [code_wait he] at h
      rcases List.mem_cons.mp h with h | h
      · cases h
      rcases List.mem_cons.mp h with h | h
      · cases h
        exact Or.inr ⟨rfl, rfl, d, rfl⟩
      rcases List.mem_cons.mp h with h | h
      · cases h
      · exact Or.inl (hc ▸ List.mem_cons_of_mem _ h)
    · left
      rcases exec_becomes he with hcode | ⟨is, hb, hcode⟩
      · rwa [hcode] at h
      · rw [hcode, Function.update_self] at h
        rw [hc]
        rcases List.mem_append.mp h with h | h
        · cases hb with
          | wait d m => exact absurd ⟨d, rfl⟩ hi
          | _ => simp at h
        · exact List.mem_cons_of_mem _ h
  · rw [code_exec_of_ne he hu] at h
    exact Or.inl h

/-- Where a `V` on a private semaphore comes from. -/
theorem mem_v_exec (hc : k.code t = i :: rest) (he : k.exec t rest i = some k') {u : T} {n : ℕ}
    (h : .v (.waiter n) ∈ k'.code u) :
    .v (.waiter n) ∈ k.code u ∨ ∃ d, i = .signal d ∧ (k.waiters d).head? = some n := by
  by_cases hu : u = t
  · subst hu
    by_cases hi : ∃ d, i = .signal d
    · obtain ⟨d, rfl⟩ := hi
      rw [code_signal he, List.mem_append, Option.mem_toList,
        Option.map_eq_some_iff] at h
      rcases h with ⟨m, hm, heq⟩ | h
      · cases heq
        exact Or.inr ⟨d, rfl, hm⟩
      · exact Or.inl (hc ▸ List.mem_cons_of_mem _ h)
    · left
      rcases exec_becomes he with hcode | ⟨is, hb, hcode⟩
      · rwa [hcode] at h
      · rw [hcode, Function.update_self] at h
        rw [hc]
        rcases List.mem_append.mp h with h | h
        · cases hb with
          | signal d m => exact absurd ⟨d, rfl⟩ hi
          | _ => simp at h
        · exact List.mem_cons_of_mem _ h
  · rw [code_exec_of_ne he hu] at h
    exact Or.inl h

/-- A thread stays in a `Wait` whose semaphore has not been raised. -/
theorem Blocked.exec {u : T} {n : ℕ} (hb : k.Blocked u n) (hc : k.code t = i :: rest)
    (he : k.exec t rest i = some k') (hv : i ≠ .v (.waiter n)) (hn : n < k.nextWaiter) :
    k'.Blocked u n := by
  obtain ⟨hp, hzero⟩ := hb
  refine ⟨?_, ?_⟩
  · by_cases hu : u = t
    · subst hu
      rcases exec_becomes he with hcode | ⟨is, hbec, hcode⟩
      · rwa [hcode]
      · rw [hc] at hp
        rw [hcode, Function.update_self]
        rcases List.mem_cons.mp hp with rfl | hp
        · -- the thread would have gone past its `P`
          exfalso
          rw [← Option.some.inj he, semaphoreP, if_pos hzero] at hcode
          have hlen := congrArg (fun f => (f u).length) hcode
          cases hbec
          simp [hc] at hlen
        · exact List.mem_append_right _ hp
    · rw [code_exec_of_ne he hu]
      exact hp
  · rw [(exec_waiters he (.senders 0) n).1]
    cases i with
    | p s => rw [valueAfter, if_neg fun h => h.2 hzero, hzero]
    | v s => rw [valueAfter, if_neg fun h => hv (congrArg Instr.v h), hzero]
    | wait d => rw [valueAfter, if_neg (Nat.ne_of_lt hn), hzero]
    | _ => exact hzero

end Exec

/-! ## The invariant -/

/-- The `Wait`s and `Signal`s so far, and the semaphores. -/
structure CondInv (tr : List (CondEvent T)) (k : Kernel T) : Prop where
  waiters : ∀ c, k.waiters c = (waits c tr).map Prod.snd
  below : ∀ c, ∀ w ∈ waits c tr, w.2 < k.nextWaiter
  nodup : ∀ c, ((waits c tr).map Prod.snd).Nodup
  apart : ∀ c c', ∀ w ∈ waits c tr, ∀ w' ∈ waits c' tr, w.2 = w'.2 → c = c'
  raised : ∀ c, ∀ n ∈ signals c tr, (k.waiters c).head? = some n
  asleep : ∀ c, ∀ w ∈ unreleased c tr, k.Blocked w.1 w.2
  pending : ∀ u n, .v (.waiter n) ∈ k.code u → ∃ c, n ∈ signals c tr
  owner : ∀ t n, .p (.waiter n) ∈ k.code t → ∃ c, (t, n) ∈ waits c tr
  queued : ∀ t n, t ∈ k.queue (.waiter n) → ∃ c, (t, n) ∈ waits c tr

omit [DecidableEq T] in
theorem condInv_initial (multilevel : Bool) (value : ℕ → ℤ) (priority : T → ℕ) (ready : List T) :
    CondInv [] (initial multilevel value priority ready) where
  waiters _ := rfl
  below _ _ h := absurd h List.not_mem_nil
  nodup _ := List.nodup_nil
  apart _ _ _ h := absurd h List.not_mem_nil
  raised _ _ h := absurd h List.not_mem_nil
  asleep _ _ h := absurd h List.not_mem_nil
  pending _ _ h := absurd h List.not_mem_nil
  owner _ _ h := absurd h List.not_mem_nil
  queued _ _ h := absurd h List.not_mem_nil

section Preserved
variable {tr : List (CondEvent T)} {k k' : Kernel T} {t : T} {i : Instr} {rest : List Instr}
  {c : CondId}

omit [DecidableEq T] in
/-- The semaphores of the `Wait`s that were released are not those of the others. -/
theorem CondInv.not_pending (h : CondInv tr k) {w : T × ℕ} (hw : w ∈ unreleased c tr) (u : T) :
    .v (.waiter w.2) ∉ k.code u := by
  intro hv
  rw [mem_unreleased] at hw
  obtain ⟨c', hc'⟩ := h.pending u w.2 hv
  have hmem := List.mem_of_head? (h.raised c' w.2 hc')
  rw [h.waiters c', List.mem_map] at hmem
  obtain ⟨w', hw', heq⟩ := hmem
  obtain rfl := h.apart c' c w' hw' w hw.1 heq
  exact hw.2 hc'

omit [DecidableEq T] in
/-- The semaphore of the next `Wait` is a new one. -/
theorem CondInv.fresh (h : CondInv tr k) {w : T × ℕ} (hw : w ∈ waits c tr) : w.2 ≠ k.nextWaiter :=
  Nat.ne_of_lt (h.below c w hw)

theorem waiters_exec (he : k.exec t rest i = some k') (c : CondId) :
    k'.waiters c = k.waiters c ++ (waits c (k.condEvents t i)).map Prod.snd := by
  have hw := (Prod.mk.inj (exec_waiters he c 0).2).1
  rw [hw]
  cases i with
  | wait d =>
    by_cases hd : d = c
    · simp [condEvents, waits, hd]
    · simp [condEvents, waits, hd]
  | _ => simp [condEvents, waits]

/-- **Every instruction keeps the invariant.** -/
theorem CondInv.exec (h : CondInv tr k) (hc : k.code t = i :: rest)
    (he : k.exec t rest i = some k') : CondInv (tr ++ k.condEvents t i) k' := by
  have hle := nextWaiter_exec_le he
  have hnew : ∀ d, i = .wait d → k'.nextWaiter = k.nextWaiter + 1 := by
    rintro d rfl
    exact (Prod.mk.inj (exec_waiters he d 0).2).2
  refine ⟨fun c => ?_, fun c w hw => ?_, fun c => ?_, fun c c' w hw w' hw' heq => ?_,
    fun c n hn => ?_, fun c w hw => ?_, fun u n hv => ?_, fun u n hp => ?_, fun u n hq => ?_⟩
  · rw [waiters_exec he, h.waiters, waits_append, List.map_append]
  · rw [waits_append, List.mem_append, mem_waits_condEvents] at hw
    rcases hw with hw | ⟨hi, rfl⟩
    · exact lt_of_lt_of_le (h.below c w hw) hle
    · rw [hnew c hi]
      exact Nat.lt_succ_self _
  · rw [waits_append, List.map_append, List.nodup_append]
    refine ⟨h.nodup c, ?_, fun n hn m hm => ?_⟩
    · by_cases hi : i = .wait c
      · subst hi
        simp [condEvents, waits]
      · rw [waits_condEvents hi]
        exact List.nodup_nil
    · obtain ⟨w, hw, rfl⟩ := List.mem_map.mp hn
      obtain ⟨w', hw', rfl⟩ := List.mem_map.mp hm
      obtain ⟨-, rfl⟩ := mem_waits_condEvents.mp hw'
      exact h.fresh hw
  · rw [waits_append, List.mem_append, mem_waits_condEvents] at hw hw'
    rcases hw with hw | ⟨hi, rfl⟩
    · rcases hw' with hw' | ⟨hi', rfl⟩
      · exact h.apart c c' w hw w' hw' heq
      · exact absurd heq (h.fresh hw)
    · rcases hw' with hw' | ⟨hi', rfl⟩
      · exact absurd heq.symm (h.fresh hw')
      · rw [hi] at hi'
        exact Instr.wait.inj hi'
  · have hhead : (k.waiters c).head? = some n := by
      rw [signals_append, List.mem_append, mem_signals_condEvents] at hn
      exact hn.elim (h.raised c n) And.right
    rw [waiters_exec he, List.head?_append, hhead]
    rfl
  · rw [mem_unreleased, waits_append, signals_append, List.mem_append, List.mem_append, not_or,
      mem_waits_condEvents] at hw
    obtain ⟨hw | ⟨rfl, rfl⟩, hnot⟩ := hw
    · have hold : w ∈ unreleased c tr := mem_unreleased.mpr ⟨hw, hnot.1⟩
      refine (h.asleep c w hold).exec hc he (fun hi => ?_) (h.below c w hw)
      refine h.not_pending hold t ?_
      rw [hc, hi]
      exact List.mem_cons_self
    · refine ⟨?_, ?_⟩
      · rw [code_wait he]
        exact List.mem_cons_of_mem _ List.mem_cons_self
      · rw [(exec_waiters he c k.nextWaiter).1, valueAfter, if_pos rfl]
  · rcases mem_v_exec hc he hv with hold | ⟨d, hi, hhead⟩
    · obtain ⟨c, hn⟩ := h.pending u n hold
      exact ⟨c, signals_append ▸ List.mem_append_left _ hn⟩
    · exact ⟨d, signals_append ▸ List.mem_append_right _ (mem_signals_condEvents.mpr ⟨hi, hhead⟩)⟩
  · rcases mem_p_exec hc he hp with hold | ⟨rfl, rfl, d, hi⟩
    · obtain ⟨c, hn⟩ := h.owner u n hold
      exact ⟨c, waits_append ▸ List.mem_append_left _ hn⟩
    · exact ⟨d, waits_append ▸ List.mem_append_right _ (mem_waits_condEvents.mpr ⟨hi, rfl⟩)⟩
  · have hgrow : (∃ c, (u, n) ∈ waits c tr) → ∃ c, (u, n) ∈ waits c (tr ++ k.condEvents t i) := by
      intro hwaits
      obtain ⟨c, hn⟩ := hwaits
      exact ⟨c, waits_append ▸ List.mem_append_left _ hn⟩
    cases exec_moves he with
    | nobody hqueue _ _ =>
      rw [hqueue] at hq
      exact hgrow (h.queued u n hq)
    | sleep s hp _ hqueue _ _ =>
      rw [hqueue] at hq
      by_cases hs : SemId.waiter n = s
      · subst hs
        rw [Function.update_self, List.mem_append, List.mem_singleton] at hq
        rcases hq with hq | rfl
        · exact hgrow (h.queued u n hq)
        · refine hgrow (h.owner u n ?_)
          rw [hc]
          cases i with
          | p s =>
            obtain rfl := Option.some.inj hp
            exact List.mem_cons_self
          | _ => cases hp
      · rw [Function.update_of_ne hs] at hq
        exact hgrow (h.queued u n hq)
    | wake s v q _ hfirst hqueue _ _ =>
      rw [hqueue] at hq
      by_cases hs : SemId.waiter n = s
      · subst hs
        rw [Function.update_self] at hq
        exact hgrow (h.queued u n (hfirst ▸ List.mem_cons_of_mem _ hq))
      · rw [Function.update_of_ne hs] at hq
        exact hgrow (h.queued u n hq)
    | wait m hqueue _ _ =>
      rw [hqueue] at hq
      by_cases hs : SemId.waiter n = SemId.waiter m
      · rw [hs, Function.update_self] at hq
        cases hq
      · rw [Function.update_of_ne hs] at hq
        exact hgrow (h.queued u n hq)

/-- Nothing but the code of a thread outside of all routines changes. -/
theorem CondInv.call (h : CondInv tr k) (hc : k.code t = []) (call : Call) :
    CondInv tr (k.goOn t [call.instr] true) := by
  have hp : ∀ n, Instr.p (.waiter n) ∉ [call.instr] := by
    intro n hn
    cases call <;> simp [Call.instr] at hn
  have hv : ∀ n, Instr.v (.waiter n) ∉ [call.instr] := by
    intro n hn
    cases call <;> simp [Call.instr] at hn
  refine ⟨h.waiters, h.below, h.nodup, h.apart, h.raised, fun c w hw => ?_, fun u n hmem => ?_,
    fun u n hmem => ?_, h.queued⟩
  · obtain ⟨hcode, hzero⟩ := h.asleep c w hw
    refine ⟨?_, hzero⟩
    have hne : w.1 ≠ t := by
      intro heq
      rw [heq, hc] at hcode
      cases hcode
    rw [goOn_code, Function.update_of_ne hne]
    exact hcode
  · by_cases hu : u = t
    · rw [hu, goOn_code, Function.update_self] at hmem
      exact absurd hmem (hv n)
    · rw [goOn_code, Function.update_of_ne hu] at hmem
      exact h.pending u n hmem
  · by_cases hu : u = t
    · rw [hu, goOn_code, Function.update_self] at hmem
      exact absurd hmem (hp n)
    · rw [goOn_code, Function.update_of_ne hu] at hmem
      exact h.owner u n hmem

theorem CondInv.step {a : Action T} (h : CondInv tr k) (hstep : k.step a = some k') :
    CondInv (tr ++ k.condEmit a) k' := by
  rcases step_cases hstep with ⟨call, t, rfl, -, hc, rfl⟩ | ⟨t, i, rest, rfl, ht, hc, he⟩ |
    ⟨t, rfl, -, -, rfl⟩ | ⟨t, rfl, -, -, rfl⟩
  · simp only [condEmit, List.append_nil]
    exact h.call hc call
  · rw [condEmit_run ht hc]
    exact h.exec hc he
  · simp only [condEmit, List.append_nil]
    exact ⟨h.waiters, h.below, h.nodup, h.apart, h.raised, h.asleep, h.pending, h.owner, h.queued⟩
  · simp only [condEmit, List.append_nil]
    exact ⟨h.waiters, h.below, h.nodup, h.apart, h.raised, h.asleep, h.pending, h.owner, h.queued⟩

end Preserved

section Runs
variable {multilevel : Bool} {value : ℕ → ℤ} {priority : T → ℕ} {ready : List T}
  {tr : List (CondEvent T)} {k : Kernel T}

theorem CondRuns.condInv (h : CondRuns (initial multilevel value priority ready) tr k) :
    CondInv tr k :=
  Run.invariant (I := CondInv) (condInv_initial multilevel value priority ready)
    (fun _ _ _ _ hi _ hstep => hi.step hstep) h

theorem CondRuns.onePlace (hready : ready.Nodup)
    (h : CondRuns (initial multilevel value priority ready) tr k) : OnePlace k :=
  Run.invariant (I := fun _ k => OnePlace k) (onePlace_initial multilevel value priority hready)
    (fun _ _ _ _ hi _ hstep => hi.step hstep) h

/-- What a `Signal` does, with semaphore `n` at the head of the queue. -/
theorem step_signal {s : T} {c : CondId} {rest : List Instr} {n : ℕ} (hs : k.currentThread = some s)
    (hcode : k.code s = .signal c :: rest) (hlock : k.lockOwner c.lock = some s)
    (hhead : (k.waiters c).head? = some n) :
    ∃ k₁, k.step .run = some k₁ ∧ k₁.currentThread = some s ∧ k₁.code s = .v (.waiter n) :: rest ∧
      k₁.value = k.value ∧ k₁.queue = k.queue ∧ k₁.lockOwner = k.lockOwner ∧
      k₁.waiters = k.waiters := by
  obtain ⟨q, hq⟩ : ∃ q, k.waiters c = n :: q := by
    rw [List.head?_eq_some_iff] at hhead
    exact hhead
  refine ⟨k.goOn s (.v (.waiter n) :: rest) false, ?_, hs, ?_, rfl, rfl, rfl, rfl⟩
  · simp only [step, hs, hcode, Option.bind_eq_bind, Option.bind_some, exec, hlock, if_true, hq]
  · rw [goOn_code, Function.update_self]

theorem step_v {s : T} {rest : List Instr} {n : ℕ} (hs : k.currentThread = some s)
    (hcode : k.code s = .v (.waiter n) :: rest) :
    ∃ k₂, k.step .run = some k₂ ∧ k₂.currentThread = some s ∧ k₂.code s = rest ∧
      k₂.value (.waiter n) = k.value (.waiter n) + 1 ∧
      k₂.queue (.waiter n) = (k.queue (.waiter n)).tail ∧ k₂.lockOwner = k.lockOwner ∧
      k₂.waiters = k.waiters := by
  refine ⟨k.semaphoreV s (.waiter n) rest, ?_, ?_⟩
  · simp only [step, hs, hcode, Option.bind_eq_bind, Option.bind_some, exec]
  · unfold semaphoreV
    rcases wake_eq k (.waiter n) with ⟨hq, hw⟩ | ⟨u, q, r, hq, hw, -⟩
    · rw [hw]
      refine ⟨hs, ?_, ?_, ?_, rfl, rfl⟩
      · rw [goOn_code, Function.update_self]
      · exact Function.update_self ..
      · rw [goOn_queue, hq]
        rfl
    · rw [hw]
      refine ⟨hs, ?_, ?_, ?_, rfl, rfl⟩
      · rw [goOn_code, Function.update_self]
      · exact Function.update_self ..
      · rw [goOn_queue, hq, List.tail_cons]
        exact Function.update_self ..

omit [DecidableEq T] in
/-- Nobody but the thread that waits is in the queue of a private semaphore. -/
theorem CondInv.queue_tail (h : CondInv tr k) (ho : OnePlace k) {c : CondId} {w : T × ℕ}
    (hw : w ∈ waits c tr) : w.1 ∉ (k.queue (.waiter w.2)).tail := by
  have hall : ∀ u ∈ k.queue (.waiter w.2), u = w.1 := by
    intro u hu
    obtain ⟨c', hu'⟩ := h.queued u w.2 hu
    obtain rfl := h.apart c' c _ hu' w hw rfl
    have := List.inj_on_of_nodup_map (h.nodup c') hu' hw rfl
    rw [← this]
  have hnodup := ho.queue_nodup (.waiter w.2)
  cases hq : k.queue (.waiter w.2) with
  | nil => exact List.not_mem_nil
  | cons u q =>
    rw [hq] at hall hnodup
    obtain rfl := hall u List.mem_cons_self
    exact (List.nodup_cons.mp hnodup).1

/-- After a `Signal` that did not go to the semaphore of a blocked thread, the thread is blocked. -/
theorem CondInv.signal_past {s : T} {c : CondId} {rest : List Instr} {n : ℕ} {k₁ k₂ : Kernel T}
    (h : CondInv tr k) (hs : k.currentThread = some s) (hcode : k.code s = .signal c :: rest)
    (hhead : (k.waiters c).head? = some n) (h₁ : k.step .run = some k₁)
    (hs₁ : k₁.currentThread = some s) (hcode₁ : k₁.code s = .v (.waiter n) :: rest)
    (h₂ : k₁.step .run = some k₂) {w : T × ℕ} (hw : w ∈ unreleased c tr) (hne : w.2 ≠ n) :
    k₂.Blocked w.1 w.2 := by
  have hw₁ : w ∈ unreleased c (tr ++ k.condEmit .run) := by
    rw [mem_unreleased] at hw ⊢
    rw [condEmit_run hs hcode, waits_append, signals_append, List.mem_append, List.mem_append,
      not_or,
      mem_signals_condEvents]
    refine ⟨Or.inl hw.1, hw.2, ?_⟩
    rintro ⟨-, hn⟩
    rw [hhead] at hn
    exact hne (Option.some.inj hn).symm
  have hnone : k₁.condEmit .run = [] := condEmit_run hs₁ hcode₁
  have hi₂ := (h.step h₁).step h₂
  rw [hnone, List.append_nil] at hi₂
  exact hi₂.asleep c w hw₁

/-- A `Signal` wakes nobody if there was one before it and somebody waits. -/
theorem CondInv.not_signalWakes {s : T} {c : CondId} {rest : List Instr} (h : CondInv tr k)
    (hs : k.currentThread = some s) (hcode : k.code s = .signal c :: rest)
    (hlock : k.lockOwner c.lock = some s) (hwait : unreleased c tr ≠ [])
    (hsig : signals c tr ≠ []) :
    ¬ SignalWakes tr k c := by
  intro hwakes
  obtain ⟨n, hn⟩ := List.exists_mem_of_ne_nil _ hsig
  have hhead := h.raised c n hn
  obtain ⟨⟨t, m⟩, others, hcons⟩ := List.exists_cons_of_ne_nil hwait
  have hw : (t, m) ∈ unreleased c tr := hcons ▸ List.mem_cons_self
  obtain ⟨k₁, k₂, h₁, h₂, hreleased, -⟩ := hwakes.oldest t m others hcons
  obtain ⟨k₁', h₁', hs₁, hcode₁, -⟩ := step_signal hs hcode hlock hhead
  obtain rfl := Option.some.inj (h₁.symm.trans h₁')
  have hne : m ≠ n := by
    rintro rfl
    exact (mem_unreleased.mp hw).2 hn
  have hblocked := h.signal_past hs hcode hhead h₁ hs₁ hcode₁ h₂ hw hne
  rw [Blocked, hreleased.1] at hblocked
  exact absurd hblocked.2 one_ne_zero

/-- The first `Signal` there is goes to the thread that waits longest. -/
theorem CondInv.first_signal {s : T} {c : CondId} {rest : List Instr} (h : CondInv tr k)
    (ho : OnePlace k) (hs : k.currentThread = some s) (hcode : k.code s = .signal c :: rest)
    (hlock : k.lockOwner c.lock = some s) (hsig : signals c tr = []) {t : T} {n : ℕ}
    {others : List (T × ℕ)} (hcons : unreleased c tr = (t, n) :: others) :
    ∃ k₁ k₂, k.step .run = some k₁ ∧ k₁.step .run = some k₂ ∧ k₂.Released t n ∧
      ∀ w ∈ others, k₂.Blocked w.1 w.2 := by
  have hall : waits c tr = (t, n) :: others := by
    rw [← hcons, unreleased, hsig]
    simp
  have hhead : (k.waiters c).head? = some n := by
    rw [h.waiters, hall]
    rfl
  obtain ⟨k₁, h₁, hs₁, hcode₁, hvalue₁, hqueue₁, -⟩ := step_signal hs hcode hlock hhead
  obtain ⟨k₂, h₂, -, -, hvalue₂, hqueue₂, -⟩ := step_v hs₁ hcode₁
  have hw : (t, n) ∈ unreleased c tr := hcons ▸ List.mem_cons_self
  refine ⟨k₁, k₂, h₁, h₂, ⟨?_, ?_⟩, fun w hother => ?_⟩
  · rw [hvalue₂, hvalue₁, (h.asleep c _ hw).2]
    rfl
  · rw [hqueue₂, hqueue₁]
    exact h.queue_tail ho (mem_unreleased.mp hw).1
  · have hw' : w ∈ unreleased c tr := hcons ▸ List.mem_cons_of_mem _ hother
    refine h.signal_past hs hcode hhead h₁ hs₁ hcode₁ h₂ hw' fun heq => ?_
    have hnodup := h.nodup c
    rw [hall, List.map_cons, List.nodup_cons] at hnodup
    exact hnodup.1 (List.mem_map.mpr ⟨w, hother, heq⟩)

/-- **Threads that wait after a `Signal` are not affected by it.** -/
theorem CondInv.later_waits {k₁ : Kernel T} (h : CondInv tr k) {a : Action T}
    (h₁ : k.step a = some k₁) {c : CondId} {es : List (CondEvent T)} {k' : Kernel T}
    (hrun : CondRuns k₁ es k') {w : T × ℕ} (hw : w ∈ unreleased c es) : k'.Blocked w.1 w.2 := by
  have hi₁ := h.step h₁
  have hi' : CondInv (tr ++ k.condEmit a ++ es) k' := by
    refine Run.invariant (I := fun es k' => CondInv (tr ++ k.condEmit a ++ es) k') ?_ ?_ hrun
    · rw [List.append_nil]
      exact hi₁
    · intro es k a' k' hi _ hstep
      rw [← List.append_assoc]
      exact hi.step hstep
  rw [mem_unreleased] at hw
  refine hi'.asleep c w (mem_unreleased.mpr ⟨?_, ?_⟩)
  · rw [waits_append]
    exact List.mem_append_right _ hw.1
  · rw [signals_append, List.mem_append, not_or]
    refine ⟨fun hsig => ?_, hw.2⟩
    -- what was raised before belongs to an earlier `Wait`
    have hold := List.mem_of_head? (hi₁.raised c w.2 hsig)
    rw [hi₁.waiters] at hold
    have hnodup := hi'.nodup c
    rw [waits_append, List.map_append, List.nodup_append] at hnodup
    exact hnodup.2.2 _ hold _ (List.mem_map_of_mem hw.1) rfl

/-- **A `Signal` wakes a waiter exactly if nobody waits or it is the first** on a queue that is not
empty.  The threads that wait are blocked in their `Wait`. -/
theorem signal_wakes_iff {s : T} {c : CondId} {rest : List Instr} (hready : ready.Nodup)
    (h : CondRuns (initial multilevel value priority ready) tr k) (hs : k.currentThread = some s)
    (hcode : k.code s = .signal c :: rest) (hlock : k.lockOwner c.lock = some s) :
    (∀ w ∈ unreleased c tr, k.Blocked w.1 w.2) ∧
      (SignalWakes tr k c ↔ unreleased c tr = [] ∨ signals c tr = []) := by
  have hi := h.condInv
  refine ⟨hi.asleep c, fun hwakes => ?_, fun hcond => ⟨fun t n others hcons => ?_, fun _ => ?_⟩⟩
  · by_contra hno
    rw [not_or] at hno
    exact hi.not_signalWakes hs hcode hlock hno.1 hno.2 hwakes
  · have hsig : signals c tr = [] := hcond.resolve_left fun hnil => by
      rw [hnil] at hcons
      cases hcons
    exact hi.first_signal (h.onePlace hready) hs hcode hlock hsig hcons
  · obtain ⟨k₁, h₁⟩ : ∃ k₁, k.step .run = some k₁ := by
      cases hhead : (k.waiters c).head? with
      | none =>
        rw [List.head?_eq_none_iff] at hhead
        simp only [step, hs, hcode, Option.bind_eq_bind, Option.bind_some, exec, hlock, if_true,
          hhead]
        exact ⟨_, rfl⟩
      | some n =>
        obtain ⟨k₁, h₁, -⟩ := step_signal hs hcode hlock hhead
        exact ⟨k₁, h₁⟩
    exact ⟨k₁, h₁, fun es k' hrun w hw => hi.later_waits h₁ hrun hw⟩

end Runs

/-- Threads `1` and `2` wait on condition `0` of lock `0`; thread `0` takes the lock and calls
`Signal`. -/
def twoWaitRun : List (Action ℕ) :=
  [.dispatch 1, .call (.acquire 0), .run, .run, .run, .call (.wait 0 0), .run, .run, .run, .run,
    .dispatch 2, .call (.acquire 0), .run, .run, .run, .call (.wait 0 0), .run, .run, .run, .run,
    .dispatch 0, .call (.acquire 0), .run, .run, .run, .call (.signal 0 0)]

theorem play_twoWaitRun :
    (play step condEmit (initial false (fun _ => 0) (fun _ => 0) [0, 1, 2]) twoWaitRun).map
      (fun r =>
      decide (r.2.currentThread = some 0 ∧ r.2.code 0 = [.signal (.user 0 0)] ∧
        r.2.lockOwner (.user 0) = some 0 ∧ unreleased (.user 0 0) r.1 = [(1, 0), (2, 1)] ∧
        signals (.user 0 0) r.1 = [])) = some true := by
  decide +kernel

theorem signal_wakes_iff_twoWait :
    ∃ (tr : List (CondEvent ℕ)) (k : Kernel ℕ),
      CondRuns (initial false (fun _ => 0) (fun _ => 0) [0, 1, 2]) tr k ∧
        unreleased (.user 0 0) tr = [(1, 0), (2, 1)] ∧ signals (.user 0 0) tr = [] ∧
        SignalWakes tr k (.user 0 0) := by
  obtain ⟨r, hr, hstate⟩ := Option.map_eq_some_iff.mp play_twoWaitRun
  obtain ⟨hs, hcode, hlock, hun, hsig⟩ := of_decide_eq_true hstate
  have hrun : CondRuns (initial false (fun _ => 0) (fun _ => 0) [0, 1, 2]) r.1 r.2 :=
    Run.start.play hr
  exact ⟨r.1, r.2, hrun, hun, hsig,
    (signal_wakes_iff (by decide) hrun hs hcode hlock).2.mpr (Or.inr hsig)⟩

/-- Thread `0` has signalled once and signals again. -/
def twoSignalsRun : List (Action ℕ) := twoWaitRun ++ [.run, .run, .call (.signal 0 0)]

theorem play_twoSignalsRun :
    (play step condEmit (initial false (fun _ => 0) (fun _ => 0) [0, 1, 2]) twoSignalsRun).map
      (fun r => decide (r.2.currentThread = some 0 ∧ r.2.code 0 = [.signal (.user 0 0)] ∧
        r.2.lockOwner (.user 0) = some 0 ∧ unreleased (.user 0 0) r.1 = [(2, 1)] ∧
        signals (.user 0 0) r.1 = [0])) = some true := by
  decide +kernel

/-- The second `Signal` goes to the first thread again, and the second thread is not woken. -/
theorem second_signal_lost :
    ∃ (tr : List (CondEvent ℕ)) (k : Kernel ℕ),
      CondRuns (initial false (fun _ => 0) (fun _ => 0) [0, 1, 2]) tr k ∧
        k.currentThread = some 0 ∧ k.code 0 = [.signal (.user 0 0)] ∧
        k.lockOwner (.user 0) = some 0 ∧ unreleased (.user 0 0) tr = [(2, 1)] ∧
        ¬ SignalWakes tr k (.user 0 0) := by
  obtain ⟨r, hr, hstate⟩ := Option.map_eq_some_iff.mp play_twoSignalsRun
  obtain ⟨hs, hcode, hlock, hun, hsig⟩ := of_decide_eq_true hstate
  have hrun : CondRuns (initial false (fun _ => 0) (fun _ => 0) [0, 1, 2]) r.1 r.2 :=
    Run.start.play hr
  refine ⟨r.1, r.2, hrun, hs, hcode, hlock, hun, ?_⟩
  refine hrun.condInv.not_signalWakes hs hcode hlock ?_ ?_
  · rw [hun]
    exact List.cons_ne_nil _ _
  · rw [hsig]
    exact List.cons_ne_nil _ _

/-! ## Broadcast -/

/-- How often `t` has signalled `c`. -/
def signalsBy (t : T) (c : CondId) (tr : List (CondEvent T)) : ℕ :=
  tr.countP fun
    | .signalled c' t' _ => decide (c' = c ∧ t' = t)
    | _ => false

/-- The runs from the call of a routine by `t` until it returns to `rest`. -/
def Until (t : T) (rest : List Instr) (start : Kernel T) : List (CondEvent T) → Kernel T → Prop :=
  Run step condEmit (fun _ k _ => k.code t ≠ rest) start

/-- **The `Broadcast` that `t` calls works**: it signals finitely often, whatever the other threads
do meanwhile, and when it returns every thread that was waiting has been released once. -/
structure BroadcastWorks (tr : List (CondEvent T)) (k : Kernel T) (t : T) (c : CondId)
    (rest : List Instr) : Prop where
  finite : ∃ bound, ∀ es k', Until t rest k es k' → signalsBy t c es ≤ bound
  released : ∀ es k', Until t rest k es k' → k'.code t = rest →
    ∀ w ∈ unreleased c tr, (signals c es).count w.2 = 1

section Broadcast
variable {tr : List (CondEvent T)} {k : Kernel T} {t : T} {c : CondId} {rest : List Instr}

theorem signalsBy_append (es es' : List (CondEvent T)) :
    signalsBy t c (es ++ es') = signalsBy t c es + signalsBy t c es' := List.countP_append ..

/-- **One more iteration** leaves the queue as it was. -/
theorem Until.iterate {start : Kernel T} {es : List (CondEvent T)} (h : Until t rest start es k)
    {n : ℕ} (ht : k.currentThread = some t) (hcode : k.code t = .broadcast c :: rest)
    (hlock : k.lockOwner c.lock = some t) (hhead : (k.waiters c).head? = some n) :
    ∃ es' k', Until t rest start es' k' ∧ signalsBy t c es' = signalsBy t c es + 1 ∧
      k'.currentThread = some t ∧ k'.code t = .broadcast c :: rest ∧
      k'.lockOwner c.lock = some t ∧ (k'.waiters c).head? = some n := by
  have hlonger : ∀ is : List Instr, is ≠ [] → is ++ rest ≠ rest := by
    intro is hne heq
    have hlen := congrArg List.length heq
    rw [List.length_append] at hlen
    exact hne (List.length_eq_zero_iff.mp (by omega))
  -- the test of the loop
  obtain ⟨k₁, h₁, ht₁, hcode₁, hlock₁, hwait₁⟩ : ∃ k₁, k.step .run = some k₁ ∧
      k₁.currentThread = some t ∧ k₁.code t = .signal c :: .broadcast c :: rest ∧
      k₁.lockOwner = k.lockOwner ∧ k₁.waiters = k.waiters := by
    obtain ⟨q, hq⟩ := List.head?_eq_some_iff.mp hhead
    refine ⟨k.goOn t (.signal c :: .broadcast c :: rest) false, ?_, ht, ?_, rfl, rfl⟩
    · simp only [step, ht, hcode, Option.bind_eq_bind, Option.bind_some, exec, hq]
    · rw [goOn_code, Function.update_self]
  obtain ⟨k₂, h₂, ht₂, hcode₂, -, -, hlock₂, hwait₂⟩ := step_signal ht₁ hcode₁
    (by rw [hlock₁]; exact hlock) (by rw [hwait₁]; exact hhead)
  obtain ⟨k₃, h₃, ht₃, hcode₃, -, -, hlock₃, hwait₃⟩ := step_v ht₂ hcode₂
  have hrun₁ := h.next .run (by rw [hcode]; exact hlonger [_] (List.cons_ne_nil _ _)) h₁
  have hrun₂ := hrun₁.next .run (by rw [hcode₁]; exact hlonger [_, _] (List.cons_ne_nil _ _)) h₂
  have hrun₃ := hrun₂.next .run (by rw [hcode₂]; exact hlonger [_, _] (List.cons_ne_nil _ _)) h₃
  rw [condEmit_run ht hcode, condEmit_run ht₁ hcode₁, condEmit_run ht₂ hcode₂] at hrun₃
  refine ⟨_, k₃, hrun₃, ?_, ht₃, hcode₃, ?_, ?_⟩
  · rw [signalsBy_append, signalsBy_append, signalsBy_append]
    simp [condEvents, signalsBy]
  · rw [hlock₃, hlock₂, hlock₁]
    exact hlock
  · rw [hwait₃, hwait₂, hwait₁]
    exact hhead

/-- **`Broadcast` does not end** if there is a semaphore in the queue. -/
theorem broadcast_loops {n : ℕ} (ht : k.currentThread = some t)
    (hcode : k.code t = .broadcast c :: rest) (hlock : k.lockOwner c.lock = some t)
    (hhead : (k.waiters c).head? = some n) (m : ℕ) :
    ∃ es k', Until t rest k es k' ∧ signalsBy t c es = m ∧ k'.currentThread = some t ∧
      k'.code t = .broadcast c :: rest ∧ k'.lockOwner c.lock = some t ∧
      (k'.waiters c).head? = some n := by
  induction m with
  | zero => exact ⟨[], k, .start, rfl, ht, hcode, hlock, hhead⟩
  | succ m ih =>
    obtain ⟨es, k', hrun, hm, ht', hcode', hlock', hhead'⟩ := ih
    obtain ⟨es', k'', hrun', hm', hrest⟩ := hrun.iterate ht' hcode' hlock' hhead'
    exact ⟨es', k'', hrun', by omega, hrest⟩

/-- The owner of a lock stays the owner while others run. -/
theorem LockInv.owner_exec {tr : List (Event T)} {k' : Kernel T} {l : LockId} {holder : Option T}
    {u : T} {i : Instr} {is : List Instr} (hl : LockInv tr k l holder) (hs : Shaped (i :: is))
    (hc : k.code u = i :: is) (he : k.exec u is i = some k') (ho : k.lockOwner l = some t)
    (hne : u ≠ t) : k'.lockOwner l = some t := by
  cases hm : moves l i with
  | false => rw [(exec_still he hs hm).2, ho]
  | true =>
    have hnot : ¬ k.Inside l u := by
      intro hin
      have hu := (hl.inside_iff u).mp hin
      rw [(hl.inside_iff t).mp (Or.inl ho)] at hu
      exact hne (Option.some.inj hu).symm
    cases i with
    | acquireP l' =>
      rw [← Option.some.inj he]
      unfold semaphoreP
      split <;> exact ho
    | releaseV l' =>
      obtain rfl : l' = l := of_decide_eq_true hm
      exact absurd (Or.inr (Or.inr (by rw [hc]; rfl))) hnot
    | setOwner l' =>
      obtain rfl : l' = l := of_decide_eq_true hm
      exact absurd (Or.inr (Or.inl (by rw [hc]; rfl))) hnot
    | release l' =>
      obtain rfl : l' = l := of_decide_eq_true hm
      simp only [exec] at he
      split at he
      · rename_i howner
        exact absurd (Or.inl howner) hnot
      · cases he
    | _ => cases hm

/-- While `t` has not returned from a `Broadcast` on an empty queue. -/
def Awaiting (es : List (CondEvent T)) (k : Kernel T) (t : T) (c : CondId) (rest : List Instr) :
    Prop :=
  signalsBy t c es = 0 ∧ (k.code t = rest ∨
    k.code t = .broadcast c :: rest ∧ k.lockOwner c.lock = some t ∧ k.waiters c = [])

/-- Another thread does not put anything into the queue, nor does `t`, which returns. -/
theorem Awaiting.exec {tr : List (Event T)} {es : List (CondEvent T)} {k' : Kernel T} {u : T}
    {i : Instr} {is : List Instr} {holder : Option T} (h : Awaiting es k t c rest)
    (hinside : k.code t ≠ rest) (hl : LockInv tr k c.lock holder) (hs : Shaped (k.code u))
    (hc : k.code u = i :: is) (he : k.exec u is i = some k') :
    Awaiting (es ++ k.condEvents u i) k' t c rest := by
  obtain ⟨hzero, hin⟩ := h
  obtain ⟨hcode, hlock, hempty⟩ := hin.resolve_left hinside
  by_cases hu : u = t
  · subst hu
    rw [hcode, List.cons.injEq] at hc
    obtain ⟨rfl, rfl⟩ := hc
    simp only [Kernel.exec, hempty] at he
    refine ⟨?_, Or.inl ?_⟩
    · rw [signalsBy_append, hzero]
      rfl
    · rw [← Option.some.inj he, goOn_code, Function.update_self]
  · refine ⟨?_, Or.inr ⟨?_, hl.owner_exec (hc ▸ hs) hc he hlock hu, ?_⟩⟩
    · rw [signalsBy_append, hzero, Nat.zero_add]
      cases i with
      | signal d => simp [condEvents, signalsBy, hu]
      | _ => rfl
    · rw [code_exec_of_ne he (Ne.symm hu)]
      exact hcode
    · rw [waiters_exec he, hempty, waits_condEvents]
      · rfl
      · -- `Wait` asks for the lock
        rintro rfl
        simp only [Kernel.exec] at he
        split at he
        · rename_i howner
          rw [hlock] at howner
          exact hu (Option.some.inj howner).symm
        · cases he

section Runs
variable {multilevel : Bool} {value : ℕ → ℤ} {priority : T → ℕ} {ready : List T}

/-- **A `Broadcast` on an empty queue returns** without a signal. -/
theorem Until.awaiting {es : List (CondEvent T)} {k' : Kernel T} (hrun : Until t rest k es k')
    (h : CondRuns (initial multilevel value priority ready) tr k)
    (hcode : k.code t = .broadcast c :: rest) (hlock : k.lockOwner c.lock = some t)
    (hempty : k.waiters c = []) : Awaiting es k' t c rest := by
  obtain ⟨tr₀, h₀⟩ := Run.reemit emit h
  refine (Run.invariant (I := fun es k' => (∃ tr', Runs (initial multilevel value priority ready)
    tr' k') ∧ Awaiting es k' t c rest) ?_ ?_ hrun).2
  · exact ⟨⟨tr₀, h₀⟩, rfl, Or.inr ⟨hcode, hlock, hempty⟩⟩
  · rintro es k₁ a k₂ ⟨⟨tr₁, h₁⟩, ha⟩ hinside hstep
    refine ⟨⟨_, h₁.next a trivial hstep⟩, ?_⟩
    obtain ⟨hshaped, hlocks⟩ := Runs.lockInv h₁
    obtain ⟨holder, hl⟩ := hlocks c.lock
    have hnonempty : k₁.code t ≠ [] := by
      rcases ha.2 with hret | ⟨hcode₁, -⟩
      · exact absurd hret hinside
      · rw [hcode₁]
        exact List.cons_ne_nil _ _
    rcases step_cases hstep with ⟨call, u, rfl, -, hc, rfl⟩ | ⟨u, i, is, rfl, hu, hc, he⟩ |
      ⟨u, rfl, -, -, rfl⟩ | ⟨u, rfl, -, -, rfl⟩
    · have hne : t ≠ u := by
        rintro rfl
        exact hnonempty hc
      simp only [condEmit, List.append_nil]
      refine ⟨ha.1, ?_⟩
      rw [goOn_code, Function.update_of_ne hne]
      exact ha.2
    · rw [condEmit_run hu hc]
      exact ha.exec hinside hl (hshaped u) hc he
    · simp only [condEmit, List.append_nil]
      exact ha
    · simp only [condEmit, List.append_nil]
      exact ha

/-- **`Broadcast` works exactly if nobody has ever waited** on the condition. -/
theorem broadcast_works_iff (h : CondRuns (initial multilevel value priority ready) tr k)
    (ht : k.currentThread = some t) (hcode : k.code t = .broadcast c :: rest)
    (hlock : k.lockOwner c.lock = some t) :
    BroadcastWorks tr k t c rest ↔ waits c tr = [] := by
  have hi := h.condInv
  constructor
  · intro hworks
    by_contra hne
    obtain ⟨w, others, hcons⟩ := List.exists_cons_of_ne_nil hne
    have hhead : (k.waiters c).head? = some w.2 := by
      rw [hi.waiters, hcons]
      rfl
    obtain ⟨bound, hbound⟩ := hworks.finite
    obtain ⟨es, k', hrun, hm, -⟩ := broadcast_loops ht hcode hlock hhead (bound + 1)
    have := hbound es k' hrun
    omega
  · intro hnil
    have hempty : k.waiters c = [] := by
      rw [hi.waiters, hnil]
      rfl
    refine ⟨⟨0, fun es k' hrun => (hrun.awaiting h hcode hlock hempty).1.le⟩,
      fun es k' _ _ w hw => ?_⟩
    rw [mem_unreleased, hnil] at hw
    exact absurd hw.1 List.not_mem_nil

end Runs
end Broadcast

/-- Thread `0` takes lock `0` and broadcasts on a condition nobody waits on. -/
def nobodyWaitsRun : List (Action ℕ) :=
  [.dispatch 0, .call (.acquire 0), .run, .run, .run, .call (.broadcast 0 0)]

theorem play_nobodyWaitsRun :
    (play step condEmit (initial false (fun _ => 0) (fun _ => 0) [0, 1]) nobodyWaitsRun).map
      (fun r => decide (r.2.currentThread = some 0 ∧ r.2.code 0 = [.broadcast (.user 0 0)] ∧
        r.2.lockOwner (.user 0) = some 0 ∧ waits (.user 0 0) r.1 = [])) = some true := by
  decide +kernel

theorem broadcast_works_iff_nobodyWaits :
    ∃ (tr : List (CondEvent ℕ)) (k : Kernel ℕ),
      CondRuns (initial false (fun _ => 0) (fun _ => 0) [0, 1]) tr k ∧
        k.code 0 = [.broadcast (.user 0 0)] ∧ BroadcastWorks tr k 0 (.user 0 0) [] := by
  obtain ⟨r, hr, hstate⟩ := Option.map_eq_some_iff.mp play_nobodyWaitsRun
  obtain ⟨ht, hcode, hlock, hnil⟩ := of_decide_eq_true hstate
  have hrun : CondRuns (initial false (fun _ => 0) (fun _ => 0) [0, 1]) r.1 r.2 := Run.start.play hr
  exact ⟨r.1, r.2, hrun, hcode, (broadcast_works_iff hrun ht hcode hlock).mpr hnil⟩

/-- Thread `1` waits on condition `0` of lock `0`; thread `0` takes the lock and broadcasts. -/
def oneWaitsRun : List (Action ℕ) :=
  [.dispatch 1, .call (.acquire 0), .run, .run, .run, .call (.wait 0 0), .run, .run, .run, .run] ++
    nobodyWaitsRun

theorem play_oneWaitsRun :
    (play step condEmit (initial false (fun _ => 0) (fun _ => 0) [0, 1]) oneWaitsRun).map
      (fun r => decide (r.2.currentThread = some 0 ∧ r.2.code 0 = [.broadcast (.user 0 0)] ∧
        r.2.lockOwner (.user 0) = some 0 ∧ (r.2.waiters (.user 0 0)).head? = some 0)) =
      some true := by
  decide +kernel

/-- `Broadcast` with one thread waiting signals it again and again. -/
theorem broadcast_never_returns :
    ∃ (tr : List (CondEvent ℕ)) (k : Kernel ℕ),
      CondRuns (initial false (fun _ => 0) (fun _ => 0) [0, 1]) tr k ∧
        k.currentThread = some 0 ∧ k.code 0 = [.broadcast (.user 0 0)] ∧
        k.lockOwner (.user 0) = some 0 ∧ ¬ BroadcastWorks tr k 0 (.user 0 0) [] := by
  obtain ⟨r, hr, hstate⟩ := Option.map_eq_some_iff.mp play_oneWaitsRun
  obtain ⟨ht, hcode, hlock, hhead⟩ := of_decide_eq_true hstate
  refine ⟨r.1, r.2, Run.start.play hr, ht, hcode, hlock, fun hworks => ?_⟩
  obtain ⟨bound, hbound⟩ := hworks.finite
  obtain ⟨es, k', hrun, hm, -⟩ := broadcast_loops ht hcode hlock hhead (bound + 1)
  have := hbound es k' hrun
  omega

end Kernel
end PaldOs
