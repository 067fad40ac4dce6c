import PaldOs.LockExclusion
import PaldOs.Semaphores

/-! # Priority inheritance

A thread that asks for a lock and has a higher priority than its owner lends the owner
its priority: `Lock::Acquire` saves the owner's priority in the lock and raises it, and
`Lock::Release` gives the thread that releases whatever the lock has saved.

There is one saved priority for each lock, it is 0 before anyone has asked for the lock
while it was taken, and every further thread of higher priority overwrites it.  So what
`Release` puts back need not be what the thread started with, and it may be less than what a
thread blocked on another of its locks has lent it.  On the other side, a thread may go to
sleep on the lock, or be there already, without having lent its priority to the thread that
has the lock.  `Orderly` says when an instruction does none of this, and
`inheritance_undone` that nothing else goes wrong.
-/
namespace PaldOs
namespace Kernel
variable {T : Type} [DecidableEq T]

/-- `t` has got past the `P` of `Acquire` on `l` and has not called `Release`. -/
def Holding (k : Kernel T) (l : LockId) (t : T) : Prop :=
  k.lockOwner l = some t ∨ (k.code t).head? = some (.setOwner l)

/-- **Priority inheritance is undone, and done as long as it is needed.**  A thread without
locks has its base priority, and one with locks at least the priority of every thread that is
blocked on them. -/
structure Undone (base : T → ℕ) (k : Kernel T) : Prop where
  restored : ∀ t, (∀ l, ¬ k.Holding l t) → k.priority t = base t
  inherited : ∀ l t, k.Holding l t → ∀ u ∈ k.queue (.lock l), k.priority u ≤ k.priority t

/-- **Instruction `i` of `t` does not upset the priorities.** -/
def Orderly (base : T → ℕ) (k : Kernel T) (t : T) : Instr → Prop
  -- an owner that is raised is not itself blocked behind a thread of lower priority
  | .acquire l => ∀ o, k.lockOwner l = some o → k.priority o < k.priority t →
      ∀ l' h, o ∈ k.queue (.lock l') → k.Holding l' h → k.priority t ≤ k.priority h
  -- a thread goes to sleep behind one of its priority at least, and gets the lock before
  -- threads of at most its priority
  | .acquireP l =>
      if k.value (.lock l) = 0 then ∀ h, k.Holding l h → k.priority t ≤ k.priority h
      else ∀ u ∈ k.queue (.lock l), k.priority u ≤ k.priority t
  -- the priority saved is the base one, or enough for the locks the thread still has
  | .release l =>
      ((∀ l', l' ≠ l → ¬ k.Holding l' t) → k.oldPriority l = base t) ∧
        ∀ l', l' ≠ l → k.Holding l' t → ∀ u ∈ k.queue (.lock l'), k.priority u ≤ k.oldPriority l
  | _ => True

/-- The same of an action. -/
def OrderlyStep (base : T → ℕ) (k : Kernel T) : Action T → Prop
  | .run => ∀ t i rest, k.currentThread = some t → k.code t = i :: rest → k.Orderly base t i
  | _ => True

omit [DecidableEq T] in
theorem orderly_run {base : T → ℕ} {k : Kernel T} {t : T} {i : Instr} {rest : List Instr}
    (ht : k.currentThread = some t) (hc : k.code t = i :: rest) (h : k.Orderly base t i) :
    k.OrderlyStep base .run := by
  intro t' i' rest' ht' hc'
  obtain rfl := Option.some.inj (ht.symm.trans ht')
  obtain ⟨rfl, rfl⟩ := List.cons.inj (hc.symm.trans hc')
  exact h

/-! ## What instructions do to priorities -/

section Exec
variable {k k' : Kernel T} {t u : T} {i : Instr} {rest : List Instr} {l : LockId}

/-- The instructions that may change a priority. -/
def Instr.lends : Instr → Bool
  | .acquire _ => true
  | .release _ => true
  | _ => false

theorem exec_priority (h : k.exec t rest i = some k') :
    k'.multilevel = k.multilevel ∧ (Instr.lends i = false → k'.priority = k.priority) := by
  cases i with
  | p s | acquireP l =>
    rw [← Option.some.inj h]
    unfold semaphoreP
    split <;> exact ⟨rfl, fun _ => rfl⟩
  | v s | releaseV l =>
    rw [← Option.some.inj h]
    unfold semaphoreV
    rcases wake_eq k _ with ⟨-, hw⟩ | ⟨u, q, r, -, hw, -⟩ <;> rw [hw] <;>
      exact ⟨rfl, fun _ => rfl⟩
  | acquire l =>
    simp only [exec] at h
    split at h
    · cases h
    · obtain ⟨o, p, r, he, -⟩ := k.inherit_eq t l
      rw [← Option.some.inj h, he]
      refine ⟨rfl, fun hl => ?_⟩
      cases hl
  | release l =>
    simp only [exec] at h
    split at h
    · obtain ⟨p, r, he, -⟩ := disinherit_eq
        { k with lockOwner := Function.update k.lockOwner l none } t l
      rw [← Option.some.inj h, he]
      refine ⟨rfl, fun hl => ?_⟩
      cases hl
    · cases h
  | wait c =>
    simp only [exec] at h
    split at h
    · rw [← Option.some.inj h]
      exact ⟨rfl, fun _ => rfl⟩
    · cases h
  | setOwner l | send c m | sendAppend c m | receive c | receivePop c =>
    rw [← Option.some.inj h]
    exact ⟨rfl, fun _ => rfl⟩
  | broadcast c | sendLoop c m | receiveLoop c =>
    simp only [exec] at h
    split at h <;> rw [← Option.some.inj h] <;> exact ⟨rfl, fun _ => rfl⟩
  | sendHead c =>
    simp only [exec] at h
    split at h
    · cases h
    · rw [← Option.some.inj h]
      exact ⟨rfl, fun _ => rfl⟩
  | signal c =>
    simp only [exec] at h
    split at h
    · split at h <;> rw [← Option.some.inj h] <;> exact ⟨rfl, fun _ => rfl⟩
    · cases h

/-- `Acquire` raises the owner, if that is needed. -/
theorem acquire_priority (hm : k.multilevel = true)
    (h : k.exec t rest (.acquire l) = some k') :
    k.lockOwner l ≠ some t ∧
      ((∃ o, k.lockOwner l = some o ∧ k.priority o < k.priority t ∧
          k'.priority = Function.update k.priority o (k.priority t)) ∨
        (∀ o, k.lockOwner l = some o → k.priority t ≤ k.priority o) ∧
          k'.priority = k.priority) := by
  simp only [exec] at h
  split at h
  · cases h
  · rename_i hne
    refine ⟨hne, ?_⟩
    rw [← Option.some.inj h]
    show (∃ o, _ ∧ _ ∧ (k.inherit t l).priority = _) ∨ _ ∧ (k.inherit t l).priority = _
    unfold inherit
    split
    · rename_i hnone
      exact Or.inr ⟨fun o ho => absurd (hnone.symm.trans ho) (by simp), rfl⟩
    · rename_i o ho
      split
      · rename_i hlt
        obtain ⟨r, hr, -⟩ := setPriority_eq
          { k with oldPriority := Function.update k.oldPriority l (k.priority o) } o (k.priority t)
        rw [hr]
        exact Or.inl ⟨o, ho, hlt.2, rfl⟩
      · rename_i hge
        refine Or.inr ⟨fun o' ho' => ?_, rfl⟩
        obtain rfl := Option.some.inj (ho.symm.trans ho')
        exact Nat.le_of_not_lt fun hlt => hge ⟨hm, hlt⟩

/-- `Release` gives the thread the priority saved. -/
theorem release_eq (hm : k.multilevel = true) (h : k.exec t rest (.release l) = some k') :
    k.lockOwner l = some t ∧ k'.priority = Function.update k.priority t (k.oldPriority l) ∧
      k'.lockOwner = Function.update k.lockOwner l none ∧
      k'.code = Function.update k.code t (.releaseV l :: rest) ∧ k'.queue = k.queue := by
  simp only [exec] at h
  split at h
  · rename_i hown
    rw [← Option.some.inj h]
    unfold disinherit
    split
    · obtain ⟨r, hr, -⟩ := setPriority_eq
        { k with lockOwner := Function.update k.lockOwner l none } t (k.oldPriority l)
      rw [hr]
      exact ⟨hown, rfl, rfl, rfl, rfl⟩
    · rename_i hne
      have heq : k.priority t = k.oldPriority l := by
        by_contra hdiff
        exact hne ⟨hm, hdiff⟩
      refine ⟨hown, ?_, rfl, rfl, rfl⟩
      rw [← heq, Function.update_eq_self]
      rfl
  · cases h

end Exec

/-! ## What holds in every state -/

/-- What the locks and the queues keep to. -/
structure Regular (k : Kernel T) : Prop where
  multilevel : k.multilevel = true
  shaped : ∀ t, Shaped (k.code t)
  locks : ∀ l, ∃ tr holder, LockInv tr k l holder
  onePlace : OnePlace k
  queued : ∀ l, ∀ u ∈ k.queue (.lock l), (k.code u).head? = some (.acquireP l)

section Regular
variable {k k' : Kernel T} {t u : T} {i : Instr} {rest : List Instr} {l : LockId}

omit [DecidableEq T] in
/-- The `P` on a lock's semaphore is that of `Acquire`. -/
theorem eq_acquireP_of_shaped (hs : Shaped (i :: rest)) (hp : pOf i = some (.lock l)) :
    i = .acquireP l := by
  cases i with
  | p s =>
    obtain rfl := Option.some.inj hp
    exact absurd (hs.1 _ List.mem_cons_self) (by simp [Instr.onLock])
  | acquireP l' =>
    rw [SemId.lock.inj (Option.some.inj hp)]
  | _ => cases hp

theorem Regular.queued_exec (h : Regular k) (ht : k.currentThread = some t)
    (hc : k.code t = i :: rest) (he : k.exec t rest i = some k') :
    ∀ l, ∀ u ∈ k'.queue (.lock l), (k'.code u).head? = some (.acquireP l) := by
  intro l u hu
  -- a thread that was in the queue before is not the one that runs
  have hstay : u ∈ k.queue (.lock l) → (k'.code u).head? = some (.acquireP l) := by
    intro hq
    have hut : u ≠ t := fun heq => h.onePlace.current_queue _ t ht (heq ▸ hq)
    rw [code_exec_of_ne he hut]
    exact h.queued l u hq
  cases exec_moves he with
  | nobody hq _ _ => exact hstay (hq ▸ hu)
  | sleep s hp h0 hq _ _ =>
    rw [hq] at hu
    by_cases hs : SemId.lock l = s
    · subst hs
      rw [Function.update_self, List.mem_append, List.mem_singleton] at hu
      rcases hu with hu | rfl
      · exact hstay hu
      · obtain ⟨instrs, rfl⟩ := exec_p he hp
        have hi := eq_acquireP_of_shaped (hc ▸ h.shaped u) hp
        rw [semaphoreP, if_pos h0]
        show (k.code u).head? = _
        rw [hc, hi, List.head?_cons]
    · rw [Function.update_of_ne hs] at hu
      exact hstay hu
  | wake s v q _ hfirst hq _ _ =>
    rw [hq] at hu
    by_cases hs : SemId.lock l = s
    · subst hs
      rw [Function.update_self] at hu
      exact hstay (hfirst ▸ List.mem_cons_of_mem _ hu)
    · rw [Function.update_of_ne hs] at hu
      exact hstay hu
  | wait n hq _ _ =>
    rw [hq, Function.update_of_ne (by simp)] at hu
    exact hstay hu

theorem Regular.step {a : Action T} (h : Regular k) (hstep : k.step a = some k') :
    Regular k' := by
  have hshaped := shaped_step hstep h.shaped
  have hlocks : ∀ l, ∃ tr holder, LockInv tr k' l holder := by
    intro l
    obtain ⟨tr, holder, hl⟩ := h.locks l
    obtain ⟨holder', hl'⟩ := lockInv_step hstep h.shaped hl
    exact ⟨_, holder', hl'⟩
  have hplace := h.onePlace.step hstep
  rcases step_cases hstep with ⟨c, t, rfl, ht, hc, rfl⟩ | ⟨t, i, rest, rfl, ht, hc, he⟩ |
    ⟨t, rfl, ht, -, rfl⟩ | ⟨t, rfl, hnone, hhas, rfl⟩
  · refine ⟨h.multilevel, hshaped, hlocks, hplace, fun l u hu => ?_⟩
    have hut : u ≠ t := fun heq => h.onePlace.current_queue _ t ht (heq ▸ hu)
    rw [goOn_code, Function.update_of_ne hut]
    exact h.queued l u hu
  · exact ⟨(exec_priority he).1.trans h.multilevel, hshaped, hlocks, hplace,
      h.queued_exec ht hc he⟩
  · exact ⟨h.multilevel, hshaped, hlocks, hplace, h.queued⟩
  · exact ⟨h.multilevel, hshaped, hlocks, hplace, h.queued⟩

/-- A thread that has a lock is not blocked on it. -/
theorem Regular.holding_not_queued (h : Regular k) (hh : k.Holding l t) :
    t ∉ k.queue (.lock l) := by
  intro hq
  have hat := h.queued l t hq
  obtain ⟨tr, holder, hl⟩ := h.locks l
  rcases hh with hown | hset
  · exact (hl.owner_done t hown).1 hat
  · rw [hat] at hset
    cases hset

/-- Only one thread has a lock. -/
theorem Regular.holding_unique (h : Regular k) (ht : k.Holding l t) (hu : k.Holding l u) :
    t = u := by
  obtain ⟨tr, holder, hl⟩ := h.locks l
  have hin : ∀ v, k.Holding l v → holder = some v := by
    intro v hv
    exact (hl.inside_iff v).mp (hv.imp_right Or.inl)
  exact Option.some.inj ((hin t ht).symm.trans (hin u hu))

end Regular

/-! ## What instructions do to locks -/

section Holding
variable {k k' : Kernel T} {t u : T} {i : Instr} {rest : List Instr} {l : LockId}

/-- An instruction that does not move `l` leaves who has it. -/
theorem holding_still (hs : Shaped (k.code t)) (hc : k.code t = i :: rest)
    (he : k.exec t rest i = some k') (hm : moves l i = false) :
    k'.Holding l u ↔ k.Holding l u := by
  have hs' : Shaped (i :: rest) := hc ▸ hs
  unfold Holding
  rw [(exec_still he hs' hm).2]
  refine or_congr_right ?_
  by_cases hu : u = t
  · rw [hu, hc, List.head?_cons]
    refine iff_of_false (exec_head hc he hs' hm).1.1 fun hi => ?_
    rw [Option.some.inj hi] at hm
    simp [moves] at hm
  · rw [code_exec_of_ne he hu]

/-- Only a `P` adds to the queue of a lock. -/
theorem mem_queue_exec (he : k.exec t rest i = some k') (hp : pOf i ≠ some (.lock l))
    (hu : u ∈ k'.queue (.lock l)) : u ∈ k.queue (.lock l) := by
  cases exec_moves he with
  | nobody hq _ _ => exact hq ▸ hu
  | sleep s hp' _ hq _ _ =>
    have hne : SemId.lock l ≠ s := fun heq => hp (heq ▸ hp')
    rwa [hq, Function.update_of_ne hne] at hu
  | wake s v q _ hfirst hq _ _ =>
    rw [hq] at hu
    by_cases hs : SemId.lock l = s
    · subst hs
      rw [Function.update_self] at hu
      exact hfirst ▸ List.mem_cons_of_mem _ hu
    · rwa [Function.update_of_ne hs] at hu
  | wait n hq _ _ => rwa [hq, Function.update_of_ne (by simp)] at hu

end Holding

section Steps
variable {base : T → ℕ} {k k' : Kernel T} {t : T} {i : Instr} {rest : List Instr} {l : LockId}

omit [DecidableEq T] in
/-- A step that leaves priorities and who has which lock, and lets nobody queue. -/
theorem Undone.quiet (h : Undone base k) (hp : k'.priority = k.priority)
    (hh : ∀ l u, k'.Holding l u ↔ k.Holding l u)
    (hq : ∀ l, ∀ u ∈ k'.queue (.lock l), u ∈ k.queue (.lock l)) : Undone base k' where
  restored t ht := by
    rw [hp]
    exact h.restored t fun l hl => ht l ((hh l t).mpr hl)
  inherited l t ht u hu := by
    rw [hp]
    exact h.inherited l t ((hh l t).mp ht) u (hq l u hu)

/-- `Acquire`, up to its `P`. -/
theorem undone_acquire_iff (hR : Regular k) (h : Undone base k) (hc : k.code t = .acquire l :: rest)
    (he : k.exec t rest (.acquire l) = some k') :
    Undone base k' ↔ k.Orderly base t (.acquire l) := by
  have hh : ∀ l' u, k'.Holding l' u ↔ k.Holding l' u := fun l' u =>
    holding_still (hR.shaped t) hc he rfl
  have hq : ∀ l', k'.queue (.lock l') = k.queue (.lock l') := fun l' =>
    (exec_sem_still he (by simp [pOf]) (by simp [vOf]) (by simp)).2
  obtain ⟨-, ⟨o, ho, hlt, hp⟩ | ⟨hle, hp⟩⟩ := acquire_priority hR.multilevel he
  · have hother : ∀ u, u ≠ o → k'.priority u = k.priority u := fun u hu => by
      rw [hp, Function.update_of_ne hu]
    have hself : k'.priority o = k.priority t := by rw [hp, Function.update_self]
    have hmono : ∀ u, k.priority u ≤ k'.priority u := by
      intro u
      by_cases hu : u = o
      · rw [hu, hself]
        exact hlt.le
      · rw [hother u hu]
    constructor
    · intro h' o' ho' _ l' g hog hg
      obtain rfl := Option.some.inj (ho.symm.trans ho')
      have hne : g ≠ o := fun heq => hR.holding_not_queued hg (heq ▸ hog)
      have := h'.inherited l' g ((hh l' g).mpr hg) o (hq l' ▸ hog)
      rwa [hself, hother g hne] at this
    · intro hord
      refine ⟨fun u hu => ?_, fun l' g hg u hu => ?_⟩
      · have hne : u ≠ o := by
          rintro rfl
          exact hu l ((hh l u).mpr (Or.inl ho))
        rw [hother u hne]
        exact h.restored u fun l' hl' => hu l' ((hh l' u).mpr hl')
      · rw [hq l'] at hu
        rw [hh l' g] at hg
        by_cases huo : u = o
        · subst huo
          have hne : g ≠ u := fun heq => hR.holding_not_queued hg (heq ▸ hu)
          rw [hself, hother g hne]
          exact hord u ho hlt l' g hu hg
        · rw [hother u huo]
          exact (h.inherited l' g hg u hu).trans (hmono g)
  · refine iff_of_true (h.quiet hp hh fun l' u hu => hq l' ▸ hu) ?_
    intro o ho hlt
    exact absurd hlt (Nat.not_lt.mpr (hle o ho))

/-- The `P` of `Acquire`. -/
theorem undone_acquireP_iff (h : Undone base k)
    (hc : k.code t = .acquireP l :: rest) (he : k.exec t rest (.acquireP l) = some k') :
    Undone base k' ↔ k.Orderly base t (.acquireP l) := by
  simp only [Orderly]
  rw [← Option.some.inj he]
  by_cases h0 : k.value (.lock l) = 0
  · rw [if_pos h0, semaphoreP, if_pos h0]
    constructor
    · intro h' g hg
      refine h'.inherited l g hg t ?_
      simp only [Function.update_self]
      exact List.mem_append_right _ (List.mem_singleton_self t)
    · intro hord
      refine ⟨h.restored, fun l' g hg u hu => ?_⟩
      by_cases hl : l' = l
      · subst hl
        simp only [Function.update_self, List.mem_append, List.mem_singleton] at hu
        rcases hu with hu | rfl
        · exact h.inherited l' g hg u hu
        · exact hord g hg
      · have hne : SemId.lock l' ≠ SemId.lock l := fun heq => hl (SemId.lock.inj heq)
        simp only [Function.update_of_ne hne] at hu
        exact h.inherited l' g hg u hu
  · rw [if_neg h0, semaphoreP, if_neg h0]
    have hset :
        (({ k with value := Function.update k.value (.lock l) (k.value (.lock l) - 1) }).goOn
        t (.setOwner l :: rest) true).Holding l t := by
      right
      rw [goOn_code, Function.update_self, List.head?_cons]
    have hold : ∀ l' u, k.Holding l' u → (({ k with
        value := Function.update k.value (.lock l) (k.value (.lock l) - 1) }).goOn
        t (.setOwner l :: rest) true).Holding l' u := by
      intro l' u hu
      refine hu.imp_right fun hu => ?_
      have hut : u ≠ t := by
        rintro rfl
        rw [hc] at hu
        cases hu
      rwa [goOn_code, Function.update_of_ne hut]
    constructor
    · intro h' u hu
      exact h'.inherited l t hset u hu
    · intro hord
      refine ⟨fun u hu => h.restored u fun l' hl' => hu l' (hold l' u hl'), fun l' g hg u hu => ?_⟩
      by_cases hgt : g = t
      · subst hgt
        rcases hg with hown | hcode
        · exact h.inherited l' g (Or.inl hown) u hu
        · rw [goOn_code, Function.update_self, List.head?_cons] at hcode
          cases hcode
          exact hord u hu
      · refine h.inherited l' g (hg.imp_right fun hcode => ?_) u hu
        rwa [goOn_code, Function.update_of_ne hgt] at hcode

/-- `Release`, up to its `V`. -/
theorem undone_release_iff (hR : Regular k) (h : Undone base k) (ht : k.currentThread = some t)
    (hc : k.code t = .release l :: rest) (he : k.exec t rest (.release l) = some k') :
    Undone base k' ↔ k.Orderly base t (.release l) := by
  obtain ⟨hown, hp, howner, hcode, hq⟩ := release_eq hR.multilevel he
  have hstill : ∀ l' u, l' ≠ l → (k'.Holding l' u ↔ k.Holding l' u) := fun l' u hne =>
    holding_still (hR.shaped t) hc he (by simp [moves, hne.symm])
  have hnone : ∀ u, ¬ k'.Holding l u := by
    rintro u (hu | hu)
    · rw [howner, Function.update_self] at hu
      cases hu
    · by_cases hut : u = t
      · rw [hut, hcode, Function.update_self] at hu
        cases hu
      · rw [code_exec_of_ne he hut] at hu
        exact hut (hR.holding_unique (Or.inr hu) (Or.inl hown))
  have hself : k'.priority t = k.oldPriority l := by rw [hp, Function.update_self]
  have hother : ∀ u, u ≠ t → k'.priority u = k.priority u := fun u hu => by
    rw [hp, Function.update_of_ne hu]
  have hqueued : ∀ l', ∀ u ∈ k.queue (.lock l'), u ≠ t := fun l' u hu heq =>
    hR.onePlace.current_queue _ t ht (heq ▸ hu)
  constructor
  · intro h'
    refine ⟨fun hno => ?_, fun l' hne hl' u hu => ?_⟩
    · rw [← hself]
      refine h'.restored t fun l' hl' => ?_
      by_cases hne : l' = l
      · exact hnone t (hne ▸ hl')
      · exact hno l' hne ((hstill l' t hne).mp hl')
    · have := h'.inherited l' t ((hstill l' t hne).mpr hl') u (hq ▸ hu)
      rwa [hself, hother u (hqueued l' u hu)] at this
  · rintro ⟨hbase, henough⟩
    refine ⟨fun u hu => ?_, fun l' g hg u hu => ?_⟩
    · by_cases hut : u = t
      · subst hut
        rw [hself]
        exact hbase fun l' hne hl' => hu l' ((hstill l' u hne).mpr hl')
      · rw [hother u hut]
        refine h.restored u fun l' hl' => ?_
        by_cases hne : l' = l
        · subst hne
          exact hut (hR.holding_unique hl' (Or.inl hown))
        · exact hu l' ((hstill l' u hne).mpr hl')
    · have hne : l' ≠ l := by
        rintro rfl
        exact hnone g hg
      rw [hq] at hu
      rw [hother u (hqueued l' u hu)]
      rw [hstill l' g hne] at hg
      by_cases hgt : g = t
      · subst hgt
        rw [hself]
        exact henough l' hne hg u hu
      · rw [hother g hgt]
        exact h.inherited l' g hg u hu

/-- Setting the owner leaves who has the lock. -/
theorem holding_setOwner {l' : LockId} {u : T} (hR : Regular k)
    (hc : k.code t = .setOwner l :: rest) (he : k.exec t rest (.setOwner l) = some k') :
    k'.Holding l' u ↔ k.Holding l' u := by
  by_cases hne : l' = l
  · subst hne
    have hin : k.Holding l' t := Or.inr (by rw [hc, List.head?_cons])
    have hin' : k'.Holding l' t := by
      rw [← Option.some.inj he]
      exact Or.inl (Function.update_self ..)
    by_cases hut : u = t
    · rw [hut]
      exact iff_of_true hin' hin
    · refine iff_of_false (fun hu => ?_) fun hu => hut (hR.holding_unique hu hin)
      rcases hu with hu | hu
      · have hown : k'.lockOwner l' = some t := by
          rw [← Option.some.inj he]
          exact Function.update_self ..
        exact hut (Option.some.inj (hown.symm.trans hu)).symm
      · rw [code_exec_of_ne he hut] at hu
        exact hut (hR.holding_unique (Or.inr hu) hin)
  · exact holding_still (hR.shaped t) hc he (by simp [moves, Ne.symm hne])

/-- So does the `V` of `Release`. -/
theorem holding_releaseV {l' : LockId} {u : T} (hR : Regular k)
    (hc : k.code t = .releaseV l :: rest) (he : k.exec t rest (.releaseV l) = some k') :
    k'.Holding l' u ↔ k.Holding l' u := by
  have hs : Shaped (.releaseV l :: rest) := hc ▸ hR.shaped t
  have hk : k'.lockOwner = k.lockOwner ∧ k'.code = Function.update k.code t rest := by
    rw [← Option.some.inj he]
    unfold semaphoreV
    rcases wake_eq k (.lock l) with ⟨-, hw⟩ | ⟨v, q, r, -, hw, -⟩ <;> rw [hw] <;>
      exact ⟨rfl, rfl⟩
  unfold Holding
  rw [hk.1, hk.2]
  refine or_congr_right ?_
  by_cases hut : u = t
  · rw [hut, Function.update_self, hc, List.head?_cons]
    exact iff_of_false (hs.head_tail rfl) fun hi => nomatch hi
  · rw [Function.update_of_ne hut]

/-- **When an instruction keeps the priorities.** -/
theorem undone_exec_iff (hR : Regular k) (h : Undone base k) (ht : k.currentThread = some t)
    (hc : k.code t = i :: rest) (he : k.exec t rest i = some k') :
    Undone base k' ↔ k.Orderly base t i := by
  have hs : Shaped (i :: rest) := hc ▸ hR.shaped t
  cases i with
  | acquire l => exact undone_acquire_iff hR h hc he
  | acquireP l => exact undone_acquireP_iff h hc he
  | release l => exact undone_release_iff hR h ht hc he
  | setOwner l =>
    refine iff_of_true (h.quiet ((exec_priority he).2 rfl) (fun l' u => holding_setOwner hR hc he)
      fun l' u hu => mem_queue_exec he (by simp [pOf]) hu) trivial
  | releaseV l =>
    refine iff_of_true (h.quiet ((exec_priority he).2 rfl) (fun l' u => holding_releaseV hR hc he)
      fun l' u hu => mem_queue_exec he (by simp [pOf]) hu) trivial
  | p s =>
    refine iff_of_true (h.quiet ((exec_priority he).2 rfl)
      (fun l' u => holding_still (hR.shaped t) hc he rfl) fun l' u hu => mem_queue_exec he ?_ hu)
      trivial
    intro hp
    cases eq_acquireP_of_shaped hs hp
  | v s | wait c | signal c | broadcast c | send c m | sendAppend c m | sendHead c | sendLoop c m
  | receive c | receiveLoop c | receivePop c =>
    exact iff_of_true (h.quiet ((exec_priority he).2 rfl)
      (fun l' u => holding_still (hR.shaped t) hc he rfl)
      fun l' u hu => mem_queue_exec he (by simp [pOf]) hu) trivial

/-- **When a step keeps the priorities.** -/
theorem undone_step_iff {a : Action T} (hR : Regular k) (h : Undone base k)
    (hstep : k.step a = some k') : Undone base k' ↔ k.OrderlyStep base a := by
  rcases step_cases hstep with ⟨c, t, rfl, ht, hc, rfl⟩ | ⟨t, i, rest, rfl, ht, hc, he⟩ |
    ⟨t, rfl, ht, -, rfl⟩ | ⟨t, rfl, hnone, hhas, rfl⟩
  · refine iff_of_true (h.quiet rfl (fun l u => or_congr_right ?_) fun l u hu => hu) trivial
    rw [goOn_code]
    by_cases hut : u = t
    · rw [hut, Function.update_self, hc, List.head?_cons]
      refine iff_of_false (fun hi => ?_) fun hi => nomatch hi
      have := (Call.instr_plain c).2
      rw [Option.some.inj hi] at this
      cases this
    · rw [Function.update_of_ne hut]
  · rw [undone_exec_iff hR h ht hc he]
    exact ⟨orderly_run ht hc, fun hord => hord t i rest ht hc⟩
  · exact iff_of_true (h.quiet rfl (fun l u => Iff.rfl) fun l u hu => hu) trivial
  · exact iff_of_true (h.quiet rfl (fun l u => Iff.rfl) fun l u hu => hu) trivial

end Steps

section Runs
variable {value : ℕ → ℤ} {base : T → ℕ} {ready : List T} {tr : List (Event T)} {k : Kernel T}

theorem regular_initial (hready : ready.Nodup) : Regular (initial true value base ready) where
  multilevel := rfl
  shaped t := ⟨by simp [initial], by simp [initial]⟩
  locks l := ⟨[], none, lockInv_initial true value base ready l⟩
  onePlace := onePlace_initial true value base hready
  queued l u hu := absurd hu List.not_mem_nil

/-- **When inheritance is undone.**  In every run all of whose steps are orderly, in every state:
a thread that holds no lock has its base priority, and one that holds locks at least the priority
of every thread blocked on them. -/
theorem inheritance_undone (hready : ready.Nodup)
    (h : Run step emit (fun _ k a => OrderlyStep base k a) (initial true value base ready) tr k) :
    Undone base k := by
  refine (Run.invariant (I := fun _ k => Regular k ∧ Undone base k) ?_ ?_ h).2
  · refine ⟨regular_initial hready, fun t _ => rfl, fun l t ht => ?_⟩
    rcases ht with ht | ht <;> cases ht
  · rintro tr k a k' ⟨hR, hU⟩ hord hstep
    exact ⟨hR.step hstep, (undone_step_iff hR hU hstep).mpr hord⟩

end Runs

/-- One thread takes a free lock and releases it. -/
def aloneRun : List (Action ℕ) :=
  [.dispatch 0, .call (.acquire 0), .run, .run, .run, .call (.release 0), .run, .run]

/-- A thread of base priority 1 that has held a lock nobody else asked for is left with
priority 0. -/
theorem release_lowers_base : ∃ tr k, Runs (initial true (fun _ => 0) (fun _ => 1) [0]) tr k ∧
    k.priority 0 = 0 ∧ (∀ l, ¬ k.Holding l 0) ∧ ¬ Undone (fun _ => 1) k := by
  obtain ⟨r, hr⟩ : ∃ r, play step emit (initial true (fun _ => 0) (fun _ => 1) [0])
      aloneRun = some r := ⟨_, rfl⟩
  have hrun : Runs (initial true (fun _ => 0) (fun _ => 1) [0]) r.1 r.2 := Run.start.play hr
  have hp : r.2.priority 0 = 0 := by
    cases hr
    rfl
  have hno : ∀ l, ¬ r.2.Holding l 0 := by
    have hown : r.2.lockOwner =
        Function.update (Function.update (fun _ => none) (.user 0) (some 0)) (.user 0) none := by
      cases hr
      rfl
    rintro l (hl | hl)
    · rw [hown, Function.update_idem, Function.update_apply] at hl
      split at hl <;> cases hl
    · cases hr
      cases hl
  refine ⟨r.1, r.2, hrun, hp, hno, fun hU => ?_⟩
  have := hU.restored 0 hno
  rw [hp] at this
  cases this

/-- Thread `false`, of base priority 0, takes a lock, inherits the priority of thread `true`, which
goes to sleep on it, and gives it back when it releases the lock. -/
theorem inheritance_undone_once : ∃ tr k,
    Run step emit (fun _ k a => OrderlyStep Bool.toNat k a)
      (initial true (fun _ => 0) Bool.toNat [false, true]) tr k ∧
    k.ready = [true] ∧ Undone Bool.toNat k := by
  have h : Run step emit (fun _ k a => OrderlyStep Bool.toNat k a)
    (initial true (fun _ => 0) Bool.toNat [false, true]) [] _ := Run.start
  have h := h.next (.dispatch false) (by trivial) rfl
  have h := h.next (.call (.acquire 0)) (by trivial) rfl
  have h := h.next .run (by
    refine orderly_run rfl rfl ?_
    exact fun o ho => nomatch ho) rfl
  have h := h.next .run (by
    refine orderly_run rfl rfl ?_
    simp only [Orderly]
    rw [if_neg (by decide)]
    exact fun u hu => nomatch hu) rfl
  have h := h.next .run (by exact orderly_run rfl rfl trivial) rfl
  have h := h.next .yield (by trivial) rfl
  have h := h.next (.dispatch true) (by trivial) rfl
  have h := h.next (.call (.acquire 0)) (by trivial) rfl
  have h := h.next .run (by
    refine orderly_run rfl rfl ?_
    exact fun o _ _ l' g hq => nomatch hq) rfl
  have h := h.next .run (by
    refine orderly_run rfl rfl ?_
    simp only [Orderly]
    rw [if_pos (by decide)]
    rintro (_ | _) (hg | hg)
    · decide
    · cases hg
    · cases hg
    · cases hg) rfl
  have h := h.next (.dispatch false) (by trivial) rfl
  have h := h.next (.call (.release 0)) (by trivial) rfl
  have h := h.next .run (by
    refine orderly_run rfl rfl ⟨fun _ => rfl, ?_⟩
    rintro l' hne (hl | hl)
    · change Function.update (fun _ => none) (LockId.user 0) (some false) l' = some false at hl
      rw [Function.update_of_ne hne] at hl
      cases hl
    · cases hl) rfl
  have h := h.next .run (by exact orderly_run rfl rfl trivial) rfl
  exact ⟨_, _, h, rfl, inheritance_undone (by decide) h⟩

end Kernel
end PaldOs
