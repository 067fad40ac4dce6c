import PaldOs.Kernel
import Mathlib.Data.Set.Card

/-! # Mutual exclusion of `Lock`

A lock is held from the end of the `P` in `Acquire` to the `V` in `Release`.
`lockOwner` is set one step after that `P`, with a possible context switch in
between, and cleared one step before that `V`: so the thread inside is the owner,
or about to become it, or has just ceased to be it (`Inside`).  `LockInv` says
that there is at most one such thread and that the semaphore's value counts the
missing one; each instruction of each thread keeps it, whatever the threads do
with other locks, semaphores, conditions and channels in the meantime.
-/
namespace PaldOs

/-- The instructions that are executed right after the one that made them. -/
def Instr.firstOnly : Instr → Bool
  | .acquireP _ => true
  | .setOwner _ => true
  | .releaseV _ => true
  | _ => false

/-- `P` or `V` on the semaphore inside a lock, done from outside the lock. -/
def Instr.onLock : Instr → Bool
  | .p (.lock _) => true
  | .v (.lock _) => true
  | _ => false

/-- What the code of every thread looks like. -/
def Shaped (code : List Instr) : Prop :=
  (∀ i ∈ code, i.onLock = false) ∧ ∀ i ∈ code.tail, i.firstOnly = false

/-- Putting instructions in front of a thread's remaining code. -/
theorem Shaped.push {i j : Instr} {rest : List Instr} (h : Shaped (i :: rest)) (is : List Instr)
    (hj : j.onLock = false) (his : ∀ a ∈ is, a.onLock = false ∧ a.firstOnly = false) :
    Shaped (j :: (is ++ rest)) := by
  refine ⟨?_, ?_⟩
  · intro a ha
    rcases List.mem_cons.mp ha with rfl | ha
    · exact hj
    · rcases List.mem_append.mp ha with ha | ha
      · exact (his a ha).1
      · exact h.1 a (List.mem_cons_of_mem _ ha)
  · intro a ha
    rcases List.mem_append.mp ha with ha | ha
    · exact (his a ha).2
    · exact h.2 a ha

theorem Shaped.tail {i : Instr} {rest : List Instr} (h : Shaped (i :: rest)) : Shaped rest :=
  ⟨fun a ha => h.1 a (List.mem_cons_of_mem _ ha),
    fun a ha => h.2 a (List.mem_of_mem_tail ha)⟩

theorem Shaped.head_tail {i j : Instr} {rest : List Instr} (h : Shaped (i :: rest))
    (hj : j.firstOnly = true) : rest.head? ≠ some j := by
  intro hr
  have := h.2 j (List.mem_of_mem_head? (by rw [List.tail_cons, hr]; rfl))
  rw [hj] at this
  cases this

namespace Kernel
variable {T : Type} [DecidableEq T]

/-! ## The shape of the code -/

theorem Call.instr_plain (c : Call) : c.instr.onLock = false ∧ c.instr.firstOnly = false := by
  cases c <;> exact ⟨rfl, rfl⟩

/-- The code of a thread keeps its shape. -/
theorem exec_code {k k' : Kernel T} {t : T} {i : Instr} {rest : List Instr}
    (h : k.exec t rest i = some k') (hs : Shaped (i :: rest)) :
    k'.code = k.code ∨ ∃ is, k'.code = Function.update k.code t is ∧ Shaped is := by
  rcases exec_becomes h with hcode | ⟨is, hb, hcode⟩
  · exact Or.inl hcode
  · refine Or.inr ⟨_, hcode, ?_⟩
    cases hb with
    | p | v | setOwner | releaseV | signalNobody | broadcastNobody => exact hs.tail
    | acquire | acquireP | release | signal | sendHead | sendDone | receiveDone =>
      exact hs.push [] rfl (by simp)
    | broadcast | send | sendAppend | sendWait | receive | receiveWait | receivePop =>
      exact hs.push [_] rfl (by simp [Instr.onLock, Instr.firstOnly])
    | wait => exact hs.push [_, _] rfl (by simp [Instr.onLock, Instr.firstOnly])

theorem shaped_step {k k' : Kernel T} {a : Action T} (h : k.step a = some k')
    (hs : ∀ t, Shaped (k.code t)) : ∀ t, Shaped (k'.code t) := by
  rcases step_cases h with ⟨c, t, rfl, -, -, rfl⟩ | ⟨t, i, rest, rfl, -, hc, he⟩ |
    ⟨t, rfl, -, -, rfl⟩ | ⟨t, rfl, -, -, rfl⟩
  · intro u
    by_cases hu : u = t
    · subst hu
      rw [goOn_code, Function.update_self]
      refine ⟨fun i hi => ?_, fun i hi => absurd hi List.not_mem_nil⟩
      rw [List.mem_singleton.mp hi]
      exact c.instr_plain.1
    · rw [goOn_code, Function.update_of_ne hu]
      exact hs u
  · intro u
    rcases exec_code he (hc ▸ hs t) with hcode | ⟨is, hcode, his⟩
    · rw [hcode]
      exact hs u
    · rw [hcode]
      by_cases hu : u = t
      · subst hu
        rwa [Function.update_self]
      · rw [Function.update_of_ne hu]
        exact hs u
  · exact hs
  · exact hs

/-! ## The invariant -/

/-- Whether `t` is inside lock `l` after a recorded event. -/
def holdsAfter (l : LockId) (t : T) (held : Bool) : Event T → Bool
  | .acquired l' t' => if l' = l ∧ t' = t then true else held
  | .released l' t' => if l' = l ∧ t' = t then false else held
  | _ => held

/-- **`t` has returned from the `P` of `Acquire` on `l` and has not yet executed the
`V` of `Release`**, by the record of the run. -/
def Holds (tr : List (Event T)) (l : LockId) (t : T) : Prop :=
  tr.foldl (holdsAfter l t) false = true

/-- The same, by the state: `t` owns the lock, or is about to be set as its owner,
or has ceased to be it and has the `V` still to do. -/
def Inside (k : Kernel T) (l : LockId) (t : T) : Prop :=
  k.lockOwner l = some t ∨ (k.code t).head? = some (.setOwner l) ∨
    (k.code t).head? = some (.releaseV l)

/-- The invariant of lock `l`, with `holder` the thread inside it. -/
structure LockInv (tr : List (Event T)) (k : Kernel T) (l : LockId) (holder : Option T) :
    Prop where
  value_eq : k.value (.lock l) = if holder = none then 1 else 0
  inside_iff : ∀ t, k.Inside l t ↔ holder = some t
  holds_iff : ∀ t, Holds tr l t ↔ holder = some t
  owner_done : ∀ t, k.lockOwner l = some t → (k.code t).head? ≠ some (.acquireP l) ∧
    (k.code t).head? ≠ some (.setOwner l) ∧ (k.code t).head? ≠ some (.releaseV l)

theorem holds_append (tr es : List (Event T)) (l : LockId) (t : T) :
    Holds (tr ++ es) l t ↔ es.foldl (holdsAfter l t) (tr.foldl (holdsAfter l t) false) = true := by
  rw [Holds, List.foldl_append]

/-- Events that are not about `l` do not change who holds it. -/
theorem holds_append_of_other {tr es : List (Event T)} {l : LockId} {t : T}
    (h : ∀ e ∈ es, ∀ b, holdsAfter l t b e = b) : Holds (tr ++ es) l t ↔ Holds tr l t := by
  rw [holds_append, Holds]
  generalize tr.foldl (holdsAfter l t) false = b
  induction es generalizing b with
  | nil => exact Iff.rfl
  | cons e es ih =>
    obtain ⟨he, hes⟩ := List.forall_mem_cons.mp h
    rw [List.foldl_cons, he b]
    exact ih hes b

theorem lockInv_initial (multilevel : Bool) (value : ℕ → ℤ) (priority : T → ℕ) (ready : List T)
    (l : LockId) : LockInv [] (initial multilevel value priority ready) l none where
  value_eq := rfl
  inside_iff t := by simp [Inside, initial]
  holds_iff t := by simp [Holds]
  owner_done t h := by simp [initial] at h

/-- A step that does not move `l`'s semaphore or owner, and that neither starts nor
ends at one of `l`'s own instructions, keeps the invariant. -/
theorem LockInv.quiet {tr es : List (Event T)} {k k' : Kernel T} {l : LockId} {holder : Option T}
    {t : T} (h : LockInv tr k l holder)
    (hvalue : k'.value (.lock l) = k.value (.lock l)) (howner : k'.lockOwner l = k.lockOwner l)
    (hcode : ∀ u, u ≠ t → k'.code u = k.code u)
    (hold : (k.code t).head? ≠ some (.setOwner l) ∧ (k.code t).head? ≠ some (.releaseV l))
    (hnew : (k'.code t).head? ≠ some (.setOwner l) ∧ (k'.code t).head? ≠ some (.releaseV l))
    (hacq : k.lockOwner l = some t → (k'.code t).head? ≠ some (.acquireP l))
    (hes : ∀ u, ∀ e ∈ es, ∀ b, holdsAfter l u b e = b) :
    LockInv (tr ++ es) k' l holder where
  value_eq := hvalue.trans h.value_eq
  inside_iff u := by
    rw [← h.inside_iff u, Inside, Inside, howner]
    by_cases hu : u = t
    · subst hu
      simp only [hold, hnew, or_false]
    · rw [hcode u hu]
  holds_iff u := (holds_append_of_other (hes u)).trans (h.holds_iff u)
  owner_done u hu := by
    rw [howner] at hu
    by_cases hut : u = t
    · subst hut
      exact ⟨hacq hu, hnew⟩
    · rw [hcode u hut]
      exact h.owner_done u hu

/-! ## The instructions that leave a lock alone -/

/-- The instructions that move `l`'s semaphore or owner. -/
def moves (l : LockId) : Instr → Bool
  | .acquireP l' => l' = l
  | .setOwner l' => l' = l
  | .release l' => l' = l
  | .releaseV l' => l' = l
  | _ => false

/-- What an instruction that does not move `l` leaves of it. -/
theorem exec_still {k k' : Kernel T} {t : T} {i : Instr} {rest : List Instr} {l : LockId}
    (h : k.exec t rest i = some k') (hs : Shaped (i :: rest)) (hm : moves l i = false) :
    k'.value (.lock l) = k.value (.lock l) ∧ k'.lockOwner l = k.lockOwner l := by
  cases i with
  | p s | v s =>
    have hne : SemId.lock l ≠ s := by
      rintro rfl
      simpa [Instr.onLock] using hs.1 _ List.mem_cons_self
    rw [← Option.some.inj h]
    first
    | unfold semaphoreP
      split
      · exact ⟨rfl, rfl⟩
      · exact ⟨Function.update_of_ne hne _ _, rfl⟩
    | unfold semaphoreV
      rcases wake_eq k s with ⟨-, hw⟩ | ⟨u, q, r, -, hw, -⟩ <;> rw [hw] <;>
        exact ⟨Function.update_of_ne hne _ _, rfl⟩
  | acquireP l' | releaseV l' =>
    have hne : SemId.lock l ≠ SemId.lock l' := by
      rintro ⟨⟩
      simp [moves] at hm
    rw [← Option.some.inj h]
    first
    | unfold semaphoreP
      split
      · exact ⟨rfl, rfl⟩
      · exact ⟨Function.update_of_ne hne _ _, rfl⟩
    | unfold semaphoreV
      rcases wake_eq k (.lock l') with ⟨-, hw⟩ | ⟨u, q, r, -, hw, -⟩ <;> rw [hw] <;>
        exact ⟨Function.update_of_ne hne _ _, rfl⟩
  | acquire l' =>
    simp only [exec] at h
    split at h
    · cases h
    · obtain ⟨o, p, r, he, -⟩ := k.inherit_eq t l'
      rw [he] at h
      rw [← Option.some.inj h]
      exact ⟨rfl, rfl⟩
  | setOwner l' =>
    have hne : l ≠ l' := by rintro rfl; simp [moves] at hm
    rw [← Option.some.inj h]
    exact ⟨rfl, Function.update_of_ne hne _ _⟩
  | release l' =>
    have hne : l ≠ l' := by rintro rfl; simp [moves] at hm
    simp only [exec] at h
    split at h
    · obtain ⟨p, r, he, -⟩ := disinherit_eq
        { k with lockOwner := Function.update k.lockOwner l' none } t l'
      rw [he] at h
      rw [← Option.some.inj h]
      exact ⟨rfl, Function.update_of_ne hne _ _⟩
    · cases h
  | wait c =>
    simp only [exec] at h
    split at h
    · rw [← Option.some.inj h]
      simp only [goOn_value, goOn_lockOwner, and_true]
      exact Function.update_of_ne (by simp) _ _
    · cases h
  | signal c =>
    simp only [exec] at h
    split at h
    · split at h <;> rw [← Option.some.inj h] <;> exact ⟨rfl, rfl⟩
    · cases h
  | send c m | sendAppend c m | receive c | receivePop c =>
    rw [← Option.some.inj h]
    exact ⟨rfl, rfl⟩
  | broadcast c | sendLoop c m | receiveLoop c =>
    simp only [exec] at h
    split at h <;> rw [← Option.some.inj h] <;> exact ⟨rfl, rfl⟩
  | sendHead c =>
    simp only [exec] at h
    split at h
    · cases h
    · rw [← Option.some.inj h]
      exact ⟨rfl, rfl⟩

/-- The first instruction after one that does not move `l`. -/
theorem exec_head {k k' : Kernel T} {t : T} {i : Instr} {rest : List Instr} {l : LockId}
    (hc : k.code t = i :: rest) (h : k.exec t rest i = some k') (hs : Shaped (i :: rest))
    (hm : moves l i = false) :
    ((k'.code t).head? ≠ some (.setOwner l) ∧ (k'.code t).head? ≠ some (.releaseV l)) ∧
      (k.lockOwner l = some t → (k'.code t).head? ≠ some (.acquireP l)) := by
  have hrest : (rest.head? ≠ some (.setOwner l) ∧ rest.head? ≠ some (.releaseV l)) ∧
      (k.lockOwner l = some t → rest.head? ≠ some (.acquireP l)) :=
    ⟨⟨hs.head_tail rfl, hs.head_tail rfl⟩, fun _ => hs.head_tail rfl⟩
  cases i with
  | p s | acquireP l' =>
    rw [← Option.some.inj h]
    unfold semaphoreP
    split
    · simp only [hc, List.head?_cons]
      simp_all [moves]
    · simp only [goOn_code, Function.update_self]
      first
      | exact hrest
      | simp_all [moves]
  | v s | releaseV l' =>
    rw [← Option.some.inj h]
    unfold semaphoreV
    simp only [goOn_code, Function.update_self]
    exact hrest
  | acquire l' =>
    simp only [exec] at h
    split at h
    · cases h
    · rename_i hno
      rw [← Option.some.inj h]
      simp only [goOn_code, Function.update_self, List.head?_cons]
      refine ⟨by simp, fun ho he => hno ?_⟩
      cases he
      exact ho
  | setOwner l' =>
    rw [← Option.some.inj h]
    simpa only [goOn_code, Function.update_self] using hrest
  | release l' =>
    simp only [exec] at h
    split at h
    · rw [← Option.some.inj h]
      simp only [goOn_code, Function.update_self, List.head?_cons]
      simp_all [moves]
    · cases h
  | wait c =>
    simp only [exec] at h
    split at h
    · rw [← Option.some.inj h]
      simp only [goOn_code, Function.update_self, List.head?_cons]
      simp
    · cases h
  | signal c =>
    simp only [exec] at h
    split at h
    · split at h <;> rw [← Option.some.inj h] <;>
        simp only [goOn_code, Function.update_self, List.head?_cons]
      · exact hrest
      · simp
    · cases h
  | broadcast c =>
    simp only [exec] at h
    split at h <;> rw [← Option.some.inj h] <;>
      simp only [goOn_code, Function.update_self, List.head?_cons]
    · exact hrest
    · simp
  | send c m | sendAppend c m | receive c | receivePop c =>
    rw [← Option.some.inj h]
    simp
  | sendLoop c m | receiveLoop c =>
    simp only [exec] at h
    split at h <;> rw [← Option.some.inj h] <;> simp
  | sendHead c =>
    simp only [exec] at h
    split at h
    · cases h
    · rw [← Option.some.inj h]
      simp

/-- The events of an instruction that does not move `l` are not about `l`. -/
theorem instrEvents_still {k : Kernel T} {t u : T} {i : Instr} {rest : List Instr} {l : LockId}
    (hm : moves l i = false) : ∀ e ∈ k.instrEvents t rest i, ∀ b, holdsAfter l u b e = b := by
  cases i with
  | acquireP l' =>
    have hne : l' ≠ l := by simpa [moves] using hm
    simp only [instrEvents]
    split
    · simp
    · split <;> simp [holdsAfter, hne]
  | releaseV l' =>
    have hne : l' ≠ l := by simpa [moves] using hm
    simp [instrEvents, holdsAfter, hne]
  | _ => simp [instrEvents, holdsAfter]

/-! ## The instructions that move a lock -/

section Moves
variable {tr : List (Event T)} {k k' : Kernel T} {l : LockId} {holder : Option T} {t : T}
  {rest : List Instr}

/-- The `P` of `Acquire`: a thread that gets past it finds nobody inside. -/
theorem LockInv.acquireP (h : LockInv tr k l holder) (hc : k.code t = .acquireP l :: rest)
    (he : k.exec t rest (.acquireP l) = some k') :
    ∃ holder', LockInv (tr ++ k.instrEvents t rest (.acquireP l)) k' l holder' := by
  have hout : k.lockOwner l ≠ some t := fun ho => (h.owner_done t ho).1 (by rw [hc]; rfl)
  rw [← Option.some.inj he]
  unfold semaphoreP
  split
  · rename_i hv
    simp only [instrEvents, if_pos hv, List.append_nil]
    exact ⟨holder, h.value_eq, h.inside_iff, h.holds_iff, h.owner_done⟩
  · rename_i hv
    have hnone : holder = none := by
      have := h.value_eq
      by_contra hn
      rw [if_neg hn] at this
      exact hv this
    subst hnone
    have hev : ∀ u, Holds (tr ++ k.instrEvents t rest (.acquireP l)) l u ↔ t = u := by
      intro u
      have hno : tr.foldl (holdsAfter l u) false = false := by
        rw [← Bool.not_eq_true]
        exact fun hu => absurd ((h.holds_iff u).mp hu) (by simp)
      rw [holds_append, hno]
      simp only [instrEvents, if_neg hv]
      split <;> simp [holdsAfter]
    refine ⟨some t, ?_, fun u => ?_, fun u => ?_, fun u hu => ?_⟩
    · simp only [goOn_value, Function.update_self, h.value_eq]
      simp
    · simp only [Inside, goOn_lockOwner, goOn_code]
      by_cases hu : u = t
      · subst hu
        simp
      · rw [Function.update_of_ne hu]
        refine ⟨fun hi => absurd ((h.inside_iff u).mp hi) (by simp), fun hi => ?_⟩
        exact absurd (Option.some.inj hi).symm hu
    · rw [hev u, Option.some.injEq]
    · exact absurd ((h.inside_iff u).mp (Or.inl hu)) (by simp)

/-- Setting the owner: the thread inside becomes the owner. -/
theorem LockInv.setOwner (h : LockInv tr k l holder) (hs : Shaped (k.code t))
    (hc : k.code t = .setOwner l :: rest) (he : k.exec t rest (.setOwner l) = some k') :
    LockInv (tr ++ k.instrEvents t rest (.setOwner l)) k' l holder := by
  have hin : holder = some t := (h.inside_iff t).mp (Or.inr (Or.inl (by rw [hc]; rfl)))
  rw [hc] at hs
  rw [← Option.some.inj he]
  simp only [instrEvents, List.append_nil]
  refine ⟨h.value_eq, fun u => ?_, h.holds_iff, fun u hu => ?_⟩
  · simp only [Inside, goOn_lockOwner, goOn_code, Function.update_self, hin]
    refine ⟨fun hi => ?_, fun hi => Or.inl hi⟩
    rcases hi with hi | hi
    · exact hi
    · by_cases hu : u = t
      · rw [hu]
      · rw [Function.update_of_ne hu] at hi
        rw [← hin]
        exact (h.inside_iff u).mp (Or.inr hi)
  · simp only [goOn_lockOwner, Function.update_self, Option.some.injEq] at hu
    subst hu
    simp only [goOn_code, Function.update_self]
    exact ⟨hs.head_tail rfl, hs.head_tail rfl, hs.head_tail rfl⟩

/-- `Release` before its `V`: the owner stays inside without being the owner. -/
theorem LockInv.release (h : LockInv tr k l holder) (he : k.exec t rest (.release l) = some k') :
    LockInv (tr ++ k.instrEvents t rest (.release l)) k' l holder := by
  simp only [exec] at he
  split at he
  · rename_i howner
    have hin : holder = some t := (h.inside_iff t).mp (Or.inl howner)
    obtain ⟨p, r, hd, -⟩ := disinherit_eq
      { k with lockOwner := Function.update k.lockOwner l none } t l
    rw [hd] at he
    rw [← Option.some.inj he]
    simp only [instrEvents, List.append_nil]
    refine ⟨h.value_eq, fun u => ?_, h.holds_iff, fun u hu => ?_⟩
    · simp only [Inside, goOn_lockOwner, goOn_code, Function.update_self]
      by_cases hu : u = t
      · subst hu
        simp [hin]
      · rw [Function.update_of_ne hu, hin]
        refine ⟨fun hi => ?_, fun hi => absurd (Option.some.inj hi).symm hu⟩
        rcases hi with hi | hi
        · cases hi
        · rw [← hin]
          exact (h.inside_iff u).mp (Or.inr hi)
    · simp at hu
  · cases he

/-- The `V` of `Release`: nobody is left inside. -/
theorem LockInv.releaseV (h : LockInv tr k l holder) (hs : Shaped (k.code t))
    (hc : k.code t = .releaseV l :: rest) (he : k.exec t rest (.releaseV l) = some k') :
    LockInv (tr ++ k.instrEvents t rest (.releaseV l)) k' l none := by
  have hin : holder = some t := (h.inside_iff t).mp (Or.inr (Or.inr (by rw [hc]; rfl)))
  have hno : k.lockOwner l = none := by
    cases ho : k.lockOwner l with
    | none => rfl
    | some u =>
      have hu := (h.inside_iff u).mp (Or.inl ho)
      rw [hin, Option.some.injEq] at hu
      subst hu
      exact absurd (by rw [hc]; rfl) (h.owner_done _ ho).2.2
  rw [hc] at hs
  have hstate : k'.value (.lock l) = k.value (.lock l) + 1 ∧ k'.lockOwner = k.lockOwner ∧
      k'.code = Function.update k.code t rest := by
    rw [← Option.some.inj he]
    unfold semaphoreV
    rcases wake_eq k (.lock l) with ⟨-, hw⟩ | ⟨u, q, r, -, hw, -⟩ <;> rw [hw] <;>
      exact ⟨Function.update_self _ _ _, rfl, rfl⟩
  obtain ⟨hvalue, howner, hcode⟩ := hstate
  refine ⟨?_, fun u => ?_, fun u => ?_, fun u hu => ?_⟩
  · rw [hvalue, h.value_eq, hin]
    simp
  · rw [Inside, howner, hno, hcode]
    refine ⟨fun hi => ?_, fun hi => by cases hi⟩
    by_cases hu : u = t
    · subst hu
      rw [Function.update_self] at hi
      rcases hi with hi | hi | hi
      · cases hi
      · exact absurd hi (hs.head_tail rfl)
      · exact absurd hi (hs.head_tail rfl)
    · rw [Function.update_of_ne hu] at hi
      have hui := (h.inside_iff u).mp (Or.inr (hi.resolve_left (by simp)))
      rw [hin, Option.some.injEq] at hui
      exact absurd hui.symm hu
  · rw [holds_append]
    simp only [instrEvents, List.foldl_cons, List.foldl_nil, holdsAfter, true_and]
    split
    · simp
    · rename_i hne
      have : ¬ Holds tr l u := by
        rw [h.holds_iff u, hin, Option.some.injEq]
        exact hne
      simpa [Holds] using this
  · rw [howner, hno] at hu
    cases hu

end Moves

/-! ## Runs -/

/-- **Every step keeps the invariant of every lock.** -/
theorem lockInv_step {tr : List (Event T)} {k k' : Kernel T} {a : Action T} {l : LockId}
    {holder : Option T} (h : k.step a = some k') (hs : ∀ t, Shaped (k.code t))
    (hl : LockInv tr k l holder) : ∃ holder', LockInv (tr ++ k.emit a) k' l holder' := by
  rcases step_cases h with ⟨c, t, rfl, ht, hc, rfl⟩ | ⟨t, i, rest, rfl, ht, hc, he⟩ |
    ⟨t, rfl, ht, hsw, rfl⟩ | ⟨t, rfl, ht, hr, rfl⟩
  · refine ⟨holder, hl.quiet (t := t) rfl rfl (fun u hu => Function.update_of_ne hu _ _)
      (by simp [hc]) ?_ (fun _ => ?_) (by simp [emit])⟩
    · cases c <;> simp [Call.instr]
    · cases c <;> simp [Call.instr]
  · have hemit : k.emit .run = k.instrEvents t rest i := by simp only [emit, ht, hc]
    have hst := hs t
    rw [hemit]
    cases hm : moves l i with
    | false =>
      rw [hc] at hst
      obtain ⟨hvalue, howner⟩ := exec_still he hst hm
      obtain ⟨hnew, hacq⟩ := exec_head hc he hst hm
      refine ⟨holder, hl.quiet hvalue howner (fun u hu => ?_) ?_ hnew hacq
        (fun u => instrEvents_still hm)⟩
      · rcases exec_code he hst with hcode | ⟨is, hcode, -⟩
        · rw [hcode]
        · rw [hcode, Function.update_of_ne hu]
      · rw [hc, List.head?_cons]
        constructor
        · rintro ⟨⟩
          simp [moves] at hm
        · rintro ⟨⟩
          simp [moves] at hm
    | true =>
      cases i with
      | acquireP l' =>
        obtain rfl : l' = l := by simpa [moves] using hm
        exact hl.acquireP hc he
      | setOwner l' =>
        obtain rfl : l' = l := by simpa [moves] using hm
        exact ⟨holder, hl.setOwner hst hc he⟩
      | release l' =>
        obtain rfl : l' = l := by simpa [moves] using hm
        exact ⟨holder, hl.release he⟩
      | releaseV l' =>
        obtain rfl : l' = l := by simpa [moves] using hm
        exact ⟨none, hl.releaseV hst hc he⟩
      | _ => simp [moves] at hm
  · obtain ⟨r, hr, -⟩ := k.readyToRun_eq t
    rw [hr]
    simp only [emit, List.append_nil]
    exact ⟨holder, hl.value_eq, hl.inside_iff, hl.holds_iff, hl.owner_done⟩
  · simp only [emit, List.append_nil]
    exact ⟨holder, hl.value_eq, hl.inside_iff, hl.holds_iff, hl.owner_done⟩

section Runs
variable {multilevel : Bool} {value : ℕ → ℤ} {priority : T → ℕ} {ready : List T}
  {tr : List (Event T)} {k : Kernel T}

/-- The shape of the code and the invariant of every lock hold along every run. -/
theorem Runs.lockInv (h : Runs (initial multilevel value priority ready) tr k) :
    (∀ t, Shaped (k.code t)) ∧ ∀ l, ∃ holder, LockInv tr k l holder := by
  refine Run.invariant (I := fun tr k => (∀ t, Shaped (k.code t)) ∧ ∀ l, ∃ holder,
    LockInv tr k l holder) ?_ ?_ h
  · exact ⟨fun t => ⟨by simp [initial], by simp [initial]⟩,
      fun l => ⟨none, lockInv_initial multilevel value priority ready l⟩⟩
  · intro tr k a k' ⟨hs, hl⟩ _ hstep
    exact ⟨shaped_step hstep hs, fun l => (hl l).elim fun _ h => lockInv_step hstep hs h⟩

/-- **Mutual exclusion.**  In every run of any threads, at most one of them is
between the `P` of `Acquire` and the `V` of `Release` of a lock; whenever
`lockOwner` is a thread, it is that thread; and the value of the lock's semaphore
and the number of such threads add up to 1. -/
theorem lock_mutual_exclusion (l : LockId)
    (h : Runs (initial multilevel value priority ready) tr k) :
    (∀ t u, Holds tr l t → Holds tr l u → t = u) ∧
      (∀ t, k.lockOwner l = some t → Holds tr l t) ∧
      k.value (.lock l) + {t | Holds tr l t}.ncard = 1 := by
  obtain ⟨holder, hl⟩ := h.lockInv.2 l
  refine ⟨fun t u ht hu => ?_, fun t ht => ?_, ?_⟩
  · have ht := (hl.holds_iff t).mp ht
    rw [(hl.holds_iff u).mp hu] at ht
    exact (Option.some.inj ht).symm
  · exact (hl.holds_iff t).mpr ((hl.inside_iff t).mp (Or.inl ht))
  · cases holder with
    | none =>
      have : {t | Holds tr l t} = ∅ := by
        ext t
        simp [hl.holds_iff t]
      rw [hl.value_eq, this]
      simp
    | some o =>
      have : {t | Holds tr l t} = {o} := by
        ext t
        simp [hl.holds_iff t, eq_comm]
      rw [hl.value_eq, this]
      simp

end Runs

/-- Two threads: the first takes lock `0` and yields before it is set as the owner,
the second goes to sleep on the lock's semaphore. -/
def contendedRun : List (Action ℕ) :=
  [.dispatch 0, .call (.acquire 0), .run, .run, .yield, .dispatch 1, .call (.acquire 0), .run, .run]

theorem lock_mutual_exclusion_contended :
    ∃ tr k, Runs (initial true (fun _ => 0) (fun t => t) [0, 1]) tr k ∧
      Holds tr (.user 0) 0 ∧ k.queue (.lock (.user 0)) = [1] ∧
      k.value (.lock (.user 0)) + {t | Holds tr (.user 0) t}.ncard = 1 := by
  obtain ⟨r, hr⟩ : ∃ r, play step emit (initial true (fun _ => 0) (fun t => t) [0, 1])
      contendedRun = some r := ⟨_, rfl⟩
  have hrun : Runs (initial true (fun _ => 0) (fun t => t) [0, 1]) r.1 r.2 := Run.start.play hr
  refine ⟨r.1, r.2, hrun, ?_, ?_, (lock_mutual_exclusion (.user 0) hrun).2.2⟩
  · cases hr
    rfl
  · cases hr
    rfl

end Kernel
end PaldOs
