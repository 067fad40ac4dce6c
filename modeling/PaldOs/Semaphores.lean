import PaldOs.Kernel
import Mathlib.Data.List.Nodup
import Mathlib.Data.Set.Card

/-! # Counting with semaphores

The value of a semaphore is its initial value, plus the number of `V`s done, minus the
number of `P`s completed, and is never negative.  A `V` raises the value and wakes a
thread at the same time, and it is left open who takes the unit: a thread that comes
along may, and then the woken one has to queue again.  Still no wake-up is lost: as
long as threads wait in the queue, at least as many as the value says have been woken
and have not tested the value again.

For this a thread has to be in one place only: running, on the ready list, or in the
queue of one semaphore (`OnePlace`).
-/
namespace PaldOs

namespace Kernel
variable {T : Type} [DecidableEq T]

/-- The threads on the ready list. -/
def ready (k : Kernel T) : List T := k.readyList.map ListElement.item

section Perm
variable (k : Kernel T) (t : T)

omit [DecidableEq T] in
theorem ready_readyToRun : (k.readyToRun t).ready.Perm (t :: k.ready) := by
  unfold readyToRun ready
  cases k.multilevel with
  | true => exact LinkedList.sortedInsertInverted_perm ..
  | false =>
    simp only [LinkedList.append, List.map_append, List.map_cons, List.map_nil, if_false,
      Bool.false_eq_true]
    exact List.perm_append_singleton _ _

theorem ready_setPriority (n : ℕ) : (k.setPriority t n).ready.Perm k.ready := by
  unfold setPriority modifyPriority
  split
  · rename_i h
    exact (LinkedList.sortedInsertInverted_perm ..).trans
      (LinkedList.remove_perm (LinkedList.has_iff.mp h)).symm
  · exact List.Perm.refl _

theorem ready_inherit (l : LockId) : (k.inherit t l).ready.Perm k.ready := by
  unfold inherit
  split
  · exact List.Perm.refl _
  · split
    · exact ready_setPriority ..
    · exact List.Perm.refl _

theorem ready_disinherit (l : LockId) : (k.disinherit t l).ready.Perm k.ready := by
  unfold disinherit
  split
  · exact ready_setPriority ..
  · exact List.Perm.refl _

end Perm

/-! ## Every thread is in one place -/

/-- **A thread is in one place.** -/
structure OnePlace (k : Kernel T) : Prop where
  ready_nodup : k.ready.Nodup
  queue_nodup : ∀ s, (k.queue s).Nodup
  queue_apart : ∀ s s' t, t ∈ k.queue s → t ∈ k.queue s' → s = s'
  ready_apart : ∀ s t, t ∈ k.queue s → t ∉ k.ready
  current_ready : ∀ t, k.currentThread = some t → t ∉ k.ready
  current_queue : ∀ s t, k.currentThread = some t → t ∉ k.queue s

/-- The semaphore an instruction does a `P` on. -/
def pOf : Instr → Option SemId
  | .p s => some s
  | .acquireP l => some (.lock l)
  | _ => none

/-- The semaphore an instruction does a `V` on. -/
def vOf : Instr → Option SemId
  | .v s => some s
  | .releaseV l => some (.lock l)
  | _ => none

theorem pOf_ne_vOf {i : Instr} {s : SemId} (hp : pOf i = some s) : vOf i ≠ some s := by
  cases i with
  | p _ | acquireP _ => exact fun h => nomatch h
  | _ => cases hp

/-- **Where an instruction moves threads.** -/
inductive Moves (k : Kernel T) (t : T) (i : Instr) (k' : Kernel T) : Prop
  | nobody (queue : k'.queue = k.queue) (current : k'.currentThread = k.currentThread)
      (ready : k'.ready.Perm k.ready)
  | sleep (s : SemId) (p : pOf i = some s) (value : k.value s = 0)
      (queue : k'.queue = Function.update k.queue s (k.queue s ++ [t]))
      (current : k'.currentThread = none) (ready : k'.ready = k.ready)
  | wake (s : SemId) (u : T) (q : List T) (v : vOf i = some s) (first : k.queue s = u :: q)
      (queue : k'.queue = Function.update k.queue s q)
      (current : k'.currentThread = k.currentThread) (ready : k'.ready.Perm (u :: k.ready))
  | wait (n : ℕ) (queue : k'.queue = Function.update k.queue (.waiter n) [])
      (current : k'.currentThread = k.currentThread) (ready : k'.ready = k.ready)

section Exec
variable {k k' : Kernel T} {t : T} {i : Instr} {rest : List Instr}

theorem semaphoreP_moves {s : SemId} {instrs : List Instr} (hp : pOf i = some s) :
    Moves k t i (k.semaphoreP t s instrs) := by
  unfold semaphoreP
  split
  · rename_i h0
    exact .sleep s hp h0 rfl rfl rfl
  · exact .nobody rfl rfl (List.Perm.refl _)

omit [DecidableEq T] in
theorem wake_moves (k : Kernel T) (s : SemId) :
    (k.queue s = [] ∧ k.wake s = k) ∨ ∃ u q, k.queue s = u :: q ∧
      (k.wake s).queue = Function.update k.queue s q ∧
      (k.wake s).currentThread = k.currentThread ∧ (k.wake s).ready.Perm (u :: k.ready) := by
  unfold wake
  split
  · rename_i h
    exact Or.inl ⟨h, rfl⟩
  · rename_i u q h
    exact Or.inr ⟨u, q, h, rfl, rfl, ready_readyToRun ..⟩

theorem semaphoreV_moves {s : SemId} {instrs : List Instr} (hv : vOf i = some s) :
    Moves k t i (k.semaphoreV t s instrs) := by
  unfold semaphoreV
  rcases wake_moves k s with ⟨-, hw⟩ | ⟨u, q, hq, hqueue, hcur, hready⟩
  · rw [hw]
    exact .nobody rfl rfl (List.Perm.refl _)
  · exact .wake s u q hv hq hqueue hcur hready

theorem exec_moves (h : k.exec t rest i = some k') : Moves k t i k' := by
  cases i with
  | p s =>
    rw [← Option.some.inj h]
    exact semaphoreP_moves rfl
  | acquireP l =>
    rw [← Option.some.inj h]
    exact semaphoreP_moves rfl
  | v s =>
    rw [← Option.some.inj h]
    exact semaphoreV_moves rfl
  | releaseV l =>
    rw [← Option.some.inj h]
    exact semaphoreV_moves rfl
  | acquire l =>
    simp only [exec] at h
    split at h
    · cases h
    · rw [← Option.some.inj h]
      obtain ⟨o, p, r, he, -⟩ := k.inherit_eq t l
      have hr := k.ready_inherit t l
      rw [he] at hr ⊢
      exact .nobody rfl rfl hr
  | release l =>
    simp only [exec] at h
    split at h
    · rw [← Option.some.inj h]
      obtain ⟨p, r, he, -⟩ := disinherit_eq
        { k with lockOwner := Function.update k.lockOwner l none } t l
      have hr := ready_disinherit
        { k with lockOwner := Function.update k.lockOwner l none } t l
      rw [he] at hr ⊢
      exact .nobody rfl rfl hr
    · cases h
  | wait c =>
    simp only [exec] at h
    split at h
    · rw [← Option.some.inj h]
      exact .wait k.nextWaiter rfl rfl rfl
    · cases h
  | setOwner l | send c m | sendAppend c m | receive c | receivePop c =>
    rw [← Option.some.inj h]
    exact .nobody rfl rfl (List.Perm.refl _)
  | broadcast c | sendLoop c m | receiveLoop c =>
    simp only [exec] at h
    split at h <;> rw [← Option.some.inj h] <;> exact .nobody rfl rfl (List.Perm.refl _)
  | sendHead c =>
    simp only [exec] at h
    split at h
    · cases h
    · rw [← Option.some.inj h]
      exact .nobody rfl rfl (List.Perm.refl _)
  | signal c =>
    simp only [exec] at h
    split at h
    · split at h <;> rw [← Option.some.inj h] <;> exact .nobody rfl rfl (List.Perm.refl _)
    · cases h

theorem OnePlace.exec (ho : OnePlace k) (ht : k.currentThread = some t)
    (h : k.exec t rest i = some k') : OnePlace k' := by
  cases exec_moves h with
  | nobody hq hc hr =>
    refine ⟨hr.nodup_iff.mpr ho.ready_nodup, hq ▸ ho.queue_nodup, hq ▸ ho.queue_apart, ?_, ?_,
      hq ▸ hc ▸ ho.current_queue⟩
    · intro s u hu hmem
      exact ho.ready_apart s u (hq ▸ hu) (hr.mem_iff.mp hmem)
    · intro u hu hmem
      exact ho.current_ready u (hc ▸ hu) (hr.mem_iff.mp hmem)
  | sleep s _ _ hq hc hr =>
    -- the running thread goes to the end of a queue in which it was not
    have hmem : ∀ s' u, u ∈ k'.queue s' → u ∈ k.queue s' ∨ s' = s ∧ u = t := by
      intro s' u hu
      rw [hq] at hu
      by_cases hs : s' = s
      · rw [hs, Function.update_self, List.mem_append, List.mem_singleton] at hu
        rw [hs]
        exact hu.imp_right fun hu => ⟨rfl, hu⟩
      · rw [Function.update_of_ne hs] at hu
        exact Or.inl hu
    refine ⟨hr ▸ ho.ready_nodup, fun s' => ?_, fun s' s'' u h1 h2 => ?_, fun s' u h1 => ?_,
      fun u hu => ?_, fun s' u hu => ?_⟩
    · rw [hq]
      by_cases hs : s' = s
      · rw [hs, Function.update_self]
        refine List.nodup_append.mpr ⟨ho.queue_nodup s, List.pairwise_singleton _ t, ?_⟩
        rintro u hu v hv rfl
        rw [List.mem_singleton.mp hv] at hu
        exact ho.current_queue s t ht hu
      · rw [Function.update_of_ne hs]
        exact ho.queue_nodup s'
    · rcases hmem s' u h1 with h1 | ⟨rfl, rfl⟩
      · rcases hmem s'' u h2 with h2 | ⟨rfl, rfl⟩
        · exact ho.queue_apart s' s'' u h1 h2
        · exact absurd h1 (ho.current_queue s' u ht)
      · rcases hmem s'' u h2 with h2 | ⟨rfl, -⟩
        · exact absurd h2 (ho.current_queue s'' u ht)
        · rfl
    · rw [hr]
      rcases hmem s' u h1 with h1 | ⟨-, rfl⟩
      · exact ho.ready_apart s' u h1
      · exact ho.current_ready u ht
    · rw [hc] at hu
      cases hu
    · rw [hc] at hu
      cases hu
  | wake s u q _ hfirst hq hc hr =>
    -- the first thread of the queue goes to the ready list
    have hu : u ∈ k.queue s := hfirst ▸ List.mem_cons_self
    have hnodup := ho.queue_nodup s
    rw [hfirst, List.nodup_cons] at hnodup
    have hmem : ∀ s' v, v ∈ k'.queue s' → v ∈ k.queue s' ∧ v ≠ u := by
      intro s' v hv
      rw [hq] at hv
      by_cases hs : s' = s
      · rw [hs, Function.update_self] at hv
        rw [hs, hfirst]
        exact ⟨List.mem_cons_of_mem _ hv, fun heq => hnodup.1 (heq ▸ hv)⟩
      · rw [Function.update_of_ne hs] at hv
        exact ⟨hv, fun heq => hs (ho.queue_apart s' s u (heq ▸ hv) hu)⟩
    refine ⟨?_, fun s' => ?_, fun s' s'' v h1 h2 => ?_, fun s' v h1 hv => ?_, fun v hv hmem' => ?_,
      fun s' v hv h1 => ?_⟩
    · exact hr.nodup_iff.mpr (List.nodup_cons.mpr ⟨ho.ready_apart s u hu, ho.ready_nodup⟩)
    · rw [hq]
      by_cases hs : s' = s
      · rw [hs, Function.update_self]
        exact hnodup.2
      · rw [Function.update_of_ne hs]
        exact ho.queue_nodup s'
    · exact ho.queue_apart s' s'' v (hmem s' v h1).1 (hmem s'' v h2).1
    · rcases List.mem_cons.mp (hr.mem_iff.mp hv) with heq | hv
      · exact (hmem s' v h1).2 heq
      · exact ho.ready_apart s' v (hmem s' v h1).1 hv
    · rw [hc] at hv
      rcases List.mem_cons.mp (hr.mem_iff.mp hmem') with heq | hv'
      · exact ho.current_queue s u (heq ▸ hv) hu
      · exact ho.current_ready v hv hv'
    · rw [hc] at hv
      exact ho.current_queue s' v hv (hmem s' v h1).1
  | wait n hq hc hr =>
    have hmem : ∀ s' v, v ∈ k'.queue s' → v ∈ k.queue s' := by
      intro s' v hv
      rw [hq] at hv
      by_cases hs : s' = .waiter n
      · rw [hs, Function.update_self] at hv
        cases hv
      · rwa [Function.update_of_ne hs] at hv
    refine ⟨hr ▸ ho.ready_nodup, fun s' => ?_, fun s' s'' v h1 h2 => ?_, fun s' v h1 => ?_,
      hr ▸ hc ▸ ho.current_ready, fun s' v hv h1 => ?_⟩
    · rw [hq]
      by_cases hs : s' = .waiter n
      · rw [hs, Function.update_self]
        exact List.nodup_nil
      · rw [Function.update_of_ne hs]
        exact ho.queue_nodup s'
    · exact ho.queue_apart s' s'' v (hmem s' v h1) (hmem s'' v h2)
    · rw [hr]
      exact ho.ready_apart s' v (hmem s' v h1)
    · exact ho.current_queue s' v (hc ▸ hv) (hmem s' v h1)

theorem OnePlace.step {a : Action T} (ho : OnePlace k) (h : k.step a = some k') : OnePlace k' := by
  rcases step_cases h with ⟨c, t, rfl, -, -, rfl⟩ | ⟨t, i, rest, rfl, ht, -, he⟩ |
    ⟨t, rfl, ht, -, rfl⟩ | ⟨t, rfl, hnone, hhas, rfl⟩
  · exact ⟨ho.ready_nodup, ho.queue_nodup, ho.queue_apart, ho.ready_apart, ho.current_ready,
      ho.current_queue⟩
  · exact ho.exec ht he
  · have hr : (k.readyToRun t).ready.Perm (t :: k.ready) := ready_readyToRun ..
    refine ⟨hr.nodup_iff.mpr (List.nodup_cons.mpr ⟨ho.current_ready t ht, ho.ready_nodup⟩),
      ho.queue_nodup, ho.queue_apart, fun s u hu hmem => ?_, fun u hu => (by cases hu),
      fun s u hu => (by cases hu)⟩
    rcases List.mem_cons.mp (hr.mem_iff.mp hmem) with rfl | hmem
    · exact ho.current_queue s u ht hu
    · exact ho.ready_apart s u hu hmem
  · have hr := LinkedList.remove_perm (LinkedList.has_iff.mp hhas)
    have hnodup := List.nodup_cons.mp (hr.nodup_iff.mp ho.ready_nodup)
    refine ⟨hnodup.2, ho.queue_nodup, ho.queue_apart, fun s u hu hmem => ?_, ?_, ?_⟩
    · exact ho.ready_apart s u hu (hr.mem_iff.mpr (List.mem_cons_of_mem _ hmem))
    · rintro u hu
      obtain rfl := Option.some.inj hu
      exact hnodup.1
    · rintro s u hu hmem
      obtain rfl := Option.some.inj hu
      exact ho.ready_apart s t hmem (LinkedList.has_iff.mp hhas)

end Exec

omit [DecidableEq T] in
theorem onePlace_initial (multilevel : Bool) (value : ℕ → ℤ) (priority : T → ℕ) {ready : List T}
    (h : ready.Nodup) : OnePlace (initial multilevel value priority ready) := by
  have hready : (initial multilevel value priority ready).ready = ready := by
    simp [Kernel.ready, initial, Function.comp_def]
  refine ⟨by rwa [hready], fun s => List.nodup_nil, fun s s' t h => absurd h List.not_mem_nil,
    fun s t h => absurd h List.not_mem_nil, fun t h => ?_, fun s t h => ?_⟩ <;> cases h

/-! ## What happens to a semaphore -/

/-- What is recorded of the semaphores: a thread tested the value and went to sleep, or took a
unit and so completed its `P`; or a `V` was done, and which thread it woke. -/
inductive SemEvent (T : Type) where
  | slept (s : SemId) (t : T)
  | passed (s : SemId) (t : T)
  | raised (s : SemId) (woken : Option T)

/-- The events of an instruction. -/
def semEvents (k : Kernel T) (t : T) (i : Instr) : List (SemEvent T) :=
  match pOf i, vOf i with
  | some s, _ => if k.value s = 0 then [.slept s t] else [.passed s t]
  | none, some s => [.raised s (k.queue s).head?]
  | none, none => []

/-- The events of an action. -/
def semEmit (k : Kernel T) : Action T → List (SemEvent T)
  | .run =>
      match k.currentThread with
      | none => []
      | some t =>
        match k.code t with
        | [] => []
        | i :: _ => k.semEvents t i
  | _ => []

/-- How many `V`s were done on `s`. -/
def vsDone (s : SemId) (tr : List (SemEvent T)) : ℕ :=
  tr.countP (fun e => match e with | .raised s' _ => s' = s | _ => false)

/-- How many `P`s on `s` were completed. -/
def psCompleted (s : SemId) (tr : List (SemEvent T)) : ℕ :=
  tr.countP (fun e => match e with | .passed s' _ => s' = s | _ => false)

/-- Whether `t` is woken and has not tested again, after an event. -/
def wokenAfter (s : SemId) (t : T) (woken : Bool) : SemEvent T → Bool
  | .slept s' t' => if s' = s ∧ t' = t then false else woken
  | .passed s' t' => if s' = s ∧ t' = t then false else woken
  | .raised s' t' => if s' = s ∧ t' = some t then true else woken

/-- **`t` was in the queue of `s`, has been moved to the ready list and has not tested the
value again.** -/
def Woken (tr : List (SemEvent T)) (s : SemId) (t : T) : Prop :=
  tr.foldl (wokenAfter s t) false = true

/-- The invariant of semaphore `s`, which began with `value₀`; `woken` are the threads that
have been woken and have not tested again. -/
structure SemInv (tr : List (SemEvent T)) (k : Kernel T) (s : SemId) (value₀ : ℤ)
    (woken : List T) : Prop where
  value_eq : k.value s = value₀ + vsDone s tr - psCompleted s tr
  nonneg : 0 ≤ k.value s
  nodup : woken.Nodup
  woken_iff : ∀ t, t ∈ woken ↔ Woken tr s t
  queued : ∀ t ∈ k.queue s, t ∉ woken
  enough : k.queue s ≠ [] → k.value s ≤ woken.length
  atP : ∀ t, t ∈ k.queue s ∨ t ∈ woken → ∃ i rest, k.code t = i :: rest ∧ pOf i = some s
  awake : ∀ t ∈ woken, t ∈ k.ready ∨ k.currentThread = some t

section Inv
variable {tr es : List (SemEvent T)} {k k' : Kernel T} {s s' : SemId} {value₀ : ℤ} {woken : List T}
  {t : T} {i : Instr} {rest : List Instr}

omit [DecidableEq T] in
theorem vsDone_append : vsDone s (tr ++ es) = vsDone s tr + vsDone s es := List.countP_append ..

omit [DecidableEq T] in
theorem psCompleted_append : psCompleted s (tr ++ es) = psCompleted s tr + psCompleted s es :=
  List.countP_append ..

/-- One more event. -/
theorem woken_append_singleton {e : SemEvent T} {u : T} :
    Woken (tr ++ [e]) s u ↔ wokenAfter s u (tr.foldl (wokenAfter s u) false) e = true := by
  rw [Woken, List.foldl_append]
  rfl

/-- What is recorded is not about `s`. -/
def NotAbout (s : SemId) (es : List (SemEvent T)) : Prop :=
  vsDone s es = 0 ∧ psCompleted s es = 0 ∧ ∀ u b, es.foldl (wokenAfter s u) b = b

theorem notAbout_nil : NotAbout s ([] : List (SemEvent T)) := ⟨rfl, rfl, fun _ _ => rfl⟩

omit [DecidableEq T] in
theorem semEvents_p (hp : pOf i = some s) :
    k.semEvents t i = if k.value s = 0 then [.slept s t] else [.passed s t] := by
  unfold semEvents
  rw [hp]

omit [DecidableEq T] in
theorem semEvents_v (hv : vOf i = some s) : k.semEvents t i = [.raised s (k.queue s).head?] := by
  have hp : pOf i = none := by cases i <;> first | rfl | cases hv
  unfold semEvents
  rw [hp, hv]

theorem notAbout_semEvents (hp : pOf i ≠ some s) (hv : vOf i ≠ some s) :
    NotAbout s (k.semEvents t i) := by
  cases hp' : pOf i with
  | some s' =>
    have hne : s' ≠ s := fun h => hp (h ▸ hp')
    rw [semEvents_p hp']
    split <;> simp [NotAbout, vsDone, psCompleted, wokenAfter, hne]
  | none =>
    cases hv' : vOf i with
    | some s' =>
      have hne : s' ≠ s := fun h => hv (h ▸ hv')
      rw [semEvents_v hv']
      simp [NotAbout, vsDone, psCompleted, wokenAfter, hne]
    | none =>
      unfold semEvents
      rw [hp', hv']
      exact notAbout_nil

/-- A step of `t` that has nothing to do with `s`. -/
theorem SemInv.quiet (hI : SemInv tr k s value₀ woken) (hes : NotAbout s es)
    (hvalue : k'.value s = k.value s) (hqueue : k'.queue s = k.queue s)
    (hcode : ∀ u, u ∈ k.queue s ∨ u ∈ woken → k'.code u = k.code u)
    (hawake : ∀ u ∈ woken, u ∈ k'.ready ∨ k'.currentThread = some u) :
    SemInv (tr ++ es) k' s value₀ woken where
  value_eq := by
    rw [hvalue, vsDone_append, psCompleted_append, hes.1, hes.2.1]
    exact hI.value_eq
  nonneg := hvalue ▸ hI.nonneg
  nodup := hI.nodup
  woken_iff u := by
    rw [hI.woken_iff u, Woken, Woken, List.foldl_append, hes.2.2]
  queued := hqueue ▸ hI.queued
  enough := hqueue ▸ hvalue ▸ hI.enough
  atP u hu := by
    rw [hqueue] at hu
    rw [hcode u hu]
    exact hI.atP u hu
  awake := hawake

theorem exec_p (h : k.exec t rest i = some k') (hp : pOf i = some s) :
    ∃ instrs, k' = k.semaphoreP t s instrs := by
  cases i with
  | p s' =>
    obtain rfl := Option.some.inj hp
    exact ⟨rest, (Option.some.inj h).symm⟩
  | acquireP l =>
    obtain rfl := Option.some.inj hp
    exact ⟨_, (Option.some.inj h).symm⟩
  | _ => cases hp

theorem exec_v (h : k.exec t rest i = some k') (hv : vOf i = some s) :
    ∃ instrs, k' = k.semaphoreV t s instrs := by
  cases i with
  | v s' =>
    obtain rfl := Option.some.inj hv
    exact ⟨rest, (Option.some.inj h).symm⟩
  | releaseV l =>
    obtain rfl := Option.some.inj hv
    exact ⟨_, (Option.some.inj h).symm⟩
  | _ => cases hv

/-- The other instructions leave the semaphores alone, but for the private ones. -/
theorem exec_value_still (h : k.exec t rest i = some k') (hp : pOf i = none) (hv : vOf i = none)
    (hs : ∀ n, s ≠ .waiter n) : k'.value s = k.value s := by
  cases i with
  | p s' | acquireP l => cases hp
  | v s' | releaseV l => cases hv
  | acquire l =>
    simp only [exec] at h
    split at h
    · cases h
    · rw [← Option.some.inj h]
      obtain ⟨o, p, r, he, -⟩ := k.inherit_eq t l
      rw [he]
      rfl
  | release l =>
    simp only [exec] at h
    split at h
    · rw [← Option.some.inj h]
      obtain ⟨p, r, he, -⟩ := disinherit_eq
        { k with lockOwner := Function.update k.lockOwner l none } t l
      rw [he]
      rfl
    · cases h
  | wait c =>
    simp only [exec] at h
    split at h
    · rw [← Option.some.inj h]
      exact Function.update_of_ne (hs _) ..
    · cases h
  | setOwner l | send c m | sendAppend c m | receive c | receivePop c =>
    rw [← Option.some.inj h]
    rfl
  | broadcast c | sendLoop c m | receiveLoop c =>
    simp only [exec] at h
    split at h <;> rw [← Option.some.inj h] <;> rfl
  | sendHead c =>
    simp only [exec] at h
    split at h
    · cases h
    · rw [← Option.some.inj h]
      rfl
  | signal c =>
    simp only [exec] at h
    split at h
    · split at h <;> rw [← Option.some.inj h] <;> rfl
    · cases h

theorem value_semaphoreP_of_ne {instrs : List Instr} (hs : s ≠ s') :
    (k.semaphoreP t s' instrs).value s = k.value s := by
  unfold semaphoreP
  split
  · rfl
  · exact Function.update_of_ne hs ..

theorem value_semaphoreV_of_ne {instrs : List Instr} (hs : s ≠ s') :
    (k.semaphoreV t s' instrs).value s = k.value s :=
  Function.update_of_ne hs ..

/-- An instruction that does neither `P` nor `V` on `s`. -/
theorem exec_sem_still (h : k.exec t rest i = some k') (hp : pOf i ≠ some s) (hv : vOf i ≠ some s)
    (hs : ∀ n, s ≠ .waiter n) : k'.value s = k.value s ∧ k'.queue s = k.queue s := by
  constructor
  · cases hp' : pOf i with
    | some s' =>
      obtain ⟨instrs, rfl⟩ := exec_p h hp'
      exact value_semaphoreP_of_ne fun heq => hp (hp'.trans (congrArg some heq.symm))
    | none =>
      cases hv' : vOf i with
      | some s' =>
        obtain ⟨instrs, rfl⟩ := exec_v h hv'
        exact value_semaphoreV_of_ne fun heq => hv (hv'.trans (congrArg some heq.symm))
      | none => exact exec_value_still h hp' hv' hs
  · cases exec_moves h with
    | nobody hq _ _ => rw [hq]
    | sleep s' hp' _ hq _ _ =>
      have hne : s ≠ s' := fun heq => hp (hp'.trans (congrArg some heq.symm))
      rw [hq, Function.update_of_ne hne]
    | wake s' u q hv' _ hq _ _ =>
      have hne : s ≠ s' := fun heq => hv (hv'.trans (congrArg some heq.symm))
      rw [hq, Function.update_of_ne hne]
    | wait n hq _ _ => rw [hq, Function.update_of_ne (hs n)]

/-- A ready thread stays ready. -/
theorem mem_ready_exec (h : k.exec t rest i = some k') {u : T} (hu : u ∈ k.ready) :
    u ∈ k'.ready := by
  cases exec_moves h with
  | nobody _ _ hr => exact hr.mem_iff.mpr hu
  | sleep _ _ _ _ _ hr => exact hr ▸ hu
  | wake _ v _ _ _ _ _ hr => exact hr.mem_iff.mpr (List.mem_cons_of_mem _ hu)
  | wait _ _ _ hr => exact hr ▸ hu

/-! ## The steps of a semaphore -/

/-- The running thread finds the value 0 and goes to sleep. -/
theorem SemInv.sleep (hI : SemInv tr k s value₀ woken)
    (ht : k.currentThread = some t) (hc : k.code t = i :: rest) (hp : pOf i = some s)
    (h0 : k.value s = 0) (instrs : List Instr) :
    SemInv (tr ++ [.slept s t]) (k.semaphoreP t s instrs) s value₀ (woken.erase t) := by
  have hk : k.semaphoreP t s instrs = { k with
      queue := Function.update k.queue s (k.queue s ++ [t])
      currentThread := none
      switchPoint := true } := if_pos h0
  have hmem : ∀ u, u ∈ woken.erase t ↔ u ≠ t ∧ u ∈ woken := fun u => hI.nodup.mem_erase_iff
  rw [hk]
  refine ⟨?_, hI.nonneg, hI.nodup.erase t, fun u => ?_, fun u hu => ?_, fun _ => ?_, fun u hu => ?_,
    fun u hu => ?_⟩
  · rw [vsDone_append, psCompleted_append]
    simpa [vsDone, psCompleted] using hI.value_eq
  · rw [hmem u, hI.woken_iff u, woken_append_singleton]
    by_cases hut : u = t
    · simp [wokenAfter, hut]
    · have hne : t ≠ u := fun h => hut h.symm
      simp [wokenAfter, hut, hne, Woken]
  · simp only [Function.update_self, List.mem_append, List.mem_singleton] at hu
    rw [hmem u]
    rintro ⟨hne, hw⟩
    exact hI.queued u (hu.resolve_right hne) hw
  · show k.value s ≤ _
    rw [h0]
    exact Int.natCast_nonneg _
  · simp only [Function.update_self, List.mem_append, List.mem_singleton, hmem u] at hu
    rcases hu with (hu | rfl) | ⟨-, hu⟩
    · exact hI.atP u (Or.inl hu)
    · exact ⟨i, rest, hc, hp⟩
    · exact hI.atP u (Or.inr hu)
  · obtain ⟨hne, hw⟩ := (hmem u).mp hu
    rcases hI.awake u hw with hr | hcur
    · exact Or.inl hr
    · rw [ht] at hcur
      exact absurd (Option.some.inj hcur).symm hne

/-- The running thread takes a unit. -/
theorem SemInv.pass (hI : SemInv tr k s value₀ woken) (ho : OnePlace k)
    (ht : k.currentThread = some t) (h0 : k.value s ≠ 0) (instrs : List Instr) :
    SemInv (tr ++ [.passed s t]) (k.semaphoreP t s instrs) s value₀ (woken.erase t) := by
  have hk : k.semaphoreP t s instrs = ({ k with
      value := Function.update k.value s (k.value s - 1) }).goOn t instrs true := if_neg h0
  have hmem : ∀ u, u ∈ woken.erase t ↔ u ≠ t ∧ u ∈ woken := fun u => hI.nodup.mem_erase_iff
  have hnonneg := hI.nonneg
  have hvalue : (k.semaphoreP t s instrs).value s = k.value s - 1 := by
    rw [hk]
    exact Function.update_self ..
  rw [hk] at hvalue ⊢
  refine ⟨?_, ?_, hI.nodup.erase t, fun u => ?_, fun u hu => ?_, fun hq => ?_, fun u hu => ?_,
    fun u hu => ?_⟩
  · have hv := hI.value_eq
    rw [hvalue, vsDone_append, psCompleted_append]
    simp only [vsDone, psCompleted, List.countP_singleton, decide_true, if_true,
      Bool.false_eq_true, if_false] at hv ⊢
    push_cast
    omega
  · rw [hvalue]
    omega
  · rw [hmem u, hI.woken_iff u, woken_append_singleton]
    by_cases hut : u = t
    · simp [wokenAfter, hut]
    · have hne : t ≠ u := fun h => hut h.symm
      simp [wokenAfter, hut, hne, Woken]
  · rw [hmem u]
    exact fun hw => hI.queued u hu hw.2
  · have hle := hI.enough hq
    have hlen : woken.length - 1 ≤ (woken.erase t).length := by
      rw [List.length_erase]
      split <;> omega
    rw [hvalue]
    omega
  · have hut : u ≠ t := by
      rcases hu with hu | hu
      · rintro rfl
        exact ho.current_queue s u ht hu
      · exact ((hmem u).mp hu).1
    rw [goOn_code, Function.update_of_ne hut]
    exact hI.atP u (hu.imp_right fun hu => ((hmem u).mp hu).2)
  · exact hI.awake u ((hmem u).mp hu).2

/-- A `V`. -/
theorem SemInv.raise (hI : SemInv tr k s value₀ woken) (ho : OnePlace k)
    (ht : k.currentThread = some t) (hc : k.code t = i :: rest) (hv : vOf i = some s)
    (instrs : List Instr) :
    ∃ woken', SemInv (tr ++ [.raised s (k.queue s).head?]) (k.semaphoreV t s instrs) s value₀
      woken' := by
  -- the thread that does the `V` is not at a `P`
  have hnot : ∀ u, u ∈ k.queue s ∨ u ∈ woken → u ≠ t := by
    rintro u hu rfl
    obtain ⟨j, rest', hj, hp⟩ := hI.atP u hu
    rw [hc, List.cons.injEq] at hj
    rw [← hj.1] at hp
    exact pOf_ne_vOf hp hv
  have hvalue : (k.semaphoreV t s instrs).value s = k.value s + 1 := Function.update_self ..
  have hvalueEq : k.value s + 1 = value₀ + (vsDone s (tr ++ [.raised s (k.queue s).head?]) : ℤ) -
      psCompleted s (tr ++ [.raised s (k.queue s).head?]) := by
    have := hI.value_eq
    rw [vsDone_append, psCompleted_append]
    simp only [vsDone, psCompleted, List.countP_singleton, decide_true, if_true,
      Bool.false_eq_true, if_false] at this ⊢
    push_cast
    omega
  have hnonneg := hI.nonneg
  have hcode : (k.semaphoreV t s instrs).code = Function.update k.code t instrs := by
    unfold semaphoreV
    rcases wake_eq k s with ⟨-, hw⟩ | ⟨u, q, r, -, hw, -⟩ <;> rw [hw] <;> rfl
  rcases wake_moves k s with ⟨hq, hw⟩ | ⟨u, q, hq, hqueue, hcur, hready⟩
  · refine ⟨woken, ⟨hvalue.trans hvalueEq, by omega, hI.nodup, fun v => ?_, ?_, ?_, ?_, ?_⟩⟩
    · rw [hI.woken_iff v, woken_append_singleton, hq]
      simp [wokenAfter, Woken]
    all_goals simp only [semaphoreV, hw, goOn_queue, goOn_value, goOn_code, hq] at hnot ⊢
    · exact fun v hv => absurd hv List.not_mem_nil
    · exact fun h => absurd rfl h
    · intro v hv
      rw [Function.update_of_ne (hnot v hv)]
      exact hI.atP v (Or.inr (hv.resolve_left List.not_mem_nil))
    · exact hI.awake
  · -- the first thread of the queue has been woken
    have hu : u ∈ k.queue s := hq ▸ List.mem_cons_self
    have hnodup := ho.queue_nodup s
    rw [hq, List.nodup_cons] at hnodup
    have hqueue' : (k.semaphoreV t s instrs).queue s = q := by
      show (k.wake s).queue s = q
      rw [hqueue, Function.update_self]
    have hready' : (k.semaphoreV t s instrs).ready.Perm (u :: k.ready) := hready
    have hcur' : (k.semaphoreV t s instrs).currentThread = k.currentThread := hcur
    refine ⟨u :: woken, ⟨hvalue.trans hvalueEq, by omega,
      List.nodup_cons.mpr ⟨hI.queued u hu, hI.nodup⟩, fun v => ?_, ?_, ?_, ?_, ?_⟩⟩
    · rw [List.mem_cons, hI.woken_iff v, woken_append_singleton, hq]
      by_cases hvu : v = u
      · simp [wokenAfter, hvu]
      · have hne : u ≠ v := fun h => hvu h.symm
        simp [wokenAfter, hvu, hne, Woken]
    · intro v hv
      rw [hqueue'] at hv
      rw [List.mem_cons]
      rintro (rfl | hw)
      · exact hnodup.1 hv
      · exact hI.queued v (hq ▸ List.mem_cons_of_mem _ hv) hw
    · intro _
      have := hI.enough (hq ▸ List.cons_ne_nil _ _)
      rw [hvalue, List.length_cons]
      push_cast
      omega
    · intro v hv
      rw [hqueue', List.mem_cons] at hv
      have hv' : v ∈ k.queue s ∨ v ∈ woken := by
        rcases hv with hv | rfl | hv
        · exact Or.inl (hq ▸ List.mem_cons_of_mem _ hv)
        · exact Or.inl hu
        · exact Or.inr hv
      rw [hcode, Function.update_of_ne (hnot v hv')]
      exact hI.atP v hv'
    · intro v hv
      rw [hcur', hready'.mem_iff, List.mem_cons]
      rcases List.mem_cons.mp hv with rfl | hv
      · exact Or.inl (Or.inl rfl)
      · exact (hI.awake v hv).imp_left Or.inr

theorem SemInv.exec (hI : SemInv tr k s value₀ woken) (ho : OnePlace k) (hs : ∀ n, s ≠ .waiter n)
    (ht : k.currentThread = some t) (hc : k.code t = i :: rest) (he : k.exec t rest i = some k') :
    ∃ woken', SemInv (tr ++ k.semEvents t i) k' s value₀ woken' := by
  by_cases hp : pOf i = some s
  · obtain ⟨instrs, rfl⟩ := exec_p he hp
    rw [semEvents_p hp]
    split
    · rename_i h0
      exact ⟨_, hI.sleep ht hc hp h0 instrs⟩
    · rename_i h0
      exact ⟨_, hI.pass ho ht h0 instrs⟩
  · by_cases hv : vOf i = some s
    · obtain ⟨instrs, rfl⟩ := exec_v he hv
      rw [semEvents_v hv]
      exact hI.raise ho ht hc hv instrs
    · obtain ⟨hvalue, hqueue⟩ := exec_sem_still he hp hv hs
      have hne : ∀ u, u ∈ k.queue s ∨ u ∈ woken → u ≠ t := by
        rintro u hu rfl
        obtain ⟨j, rest', hj, hpj⟩ := hI.atP u hu
        rw [hc, List.cons.injEq] at hj
        exact hp (hj.1 ▸ hpj)
      refine ⟨woken, hI.quiet (notAbout_semEvents hp hv) hvalue hqueue
        (fun u hu => code_exec_of_ne he (hne u hu)) fun u hu => ?_⟩
      rcases hI.awake u hu with hr | hcur
      · exact Or.inl (mem_ready_exec he hr)
      · rw [ht] at hcur
        exact absurd (Option.some.inj hcur).symm (hne u (Or.inr hu))

theorem SemInv.step {a : Action T} (hI : SemInv tr k s value₀ woken) (ho : OnePlace k)
    (hs : ∀ n, s ≠ .waiter n) (h : k.step a = some k') :
    ∃ woken', SemInv (tr ++ k.semEmit a) k' s value₀ woken' := by
  rcases step_cases h with ⟨c, t, rfl, ht, hc, rfl⟩ | ⟨t, i, rest, rfl, ht, hc, he⟩ |
    ⟨t, rfl, ht, -, rfl⟩ | ⟨t, rfl, hnone, hhas, rfl⟩
  · -- a thread that calls a routine is at no `P`
    refine ⟨woken, hI.quiet notAbout_nil rfl rfl (fun u hu => ?_) hI.awake⟩
    have hut : u ≠ t := by
      rintro rfl
      obtain ⟨j, rest', hj, -⟩ := hI.atP u hu
      rw [hc] at hj
      cases hj
    exact Function.update_of_ne hut ..
  · have hemit : k.semEmit .run = k.semEvents t i := by
      simp only [semEmit, ht, hc]
    rw [hemit]
    exact hI.exec ho hs ht hc he
  · have hr : (k.readyToRun t).ready.Perm (t :: k.ready) := ready_readyToRun ..
    refine ⟨woken, hI.quiet notAbout_nil rfl rfl (fun u hu => rfl) fun u hu => Or.inl ?_⟩
    refine hr.mem_iff.mpr ?_
    rcases hI.awake u hu with hmem | hcur
    · exact List.mem_cons_of_mem _ hmem
    · rw [ht] at hcur
      exact (Option.some.inj hcur) ▸ List.mem_cons_self
  · have hr := LinkedList.remove_perm (LinkedList.has_iff.mp hhas)
    refine ⟨woken, hI.quiet notAbout_nil rfl rfl (fun u hu => rfl) fun u hu => ?_⟩
    rcases hI.awake u hu with hmem | hcur
    · rcases List.mem_cons.mp (hr.mem_iff.mp hmem) with rfl | hmem
      · exact Or.inr rfl
      · exact Or.inl hmem
    · rw [hnone] at hcur
      cases hcur

end Inv

section Runs
variable {multilevel : Bool} {value : ℕ → ℤ} {priority : T → ℕ} {ready : List T}
  {tr : List (SemEvent T)} {k : Kernel T}

end Runs

end Kernel
end PaldOs
