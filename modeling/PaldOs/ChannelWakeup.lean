import PaldOs.ChannelOrder

/-! # Who is woken on a channel

`Condition::Wait` puts a private semaphore at the end of the condition's queue and
`Condition::Signal` does a `V` on the semaphore at the head of it.  Nothing is ever
taken out of the queue, so the head is the semaphore of the first `Wait` of all,
for ever: a signal reaches whoever waits on that one, and nobody else.  A second
`Wait` on the same condition of a channel is never signalled, and a receiver that
comes back to an empty mailbox sleeps on after the next message is sent
(`channel_strands_receiver`).

What remains true is told by `channel_strands_nobody`: as long as every signal
finds the thread it is for at the head of the queue, and no sender goes back to
sleep because a message equal to its own is at the head of the mailbox, nobody is
stranded.  The states that count are those in which another thread can run
(`switchPoint`): between its append and its signal a sender is not interrupted.
-/
namespace PaldOs
namespace Kernel
variable {T : Type} [DecidableEq T]

/-! ## What is promised -/

/-- The threads that appended a message to `c`, in order. -/
def appenders (c : ℕ) (tr : List (Event T)) : List T :=
  tr.filterMap fun
    | .appended c' t _ => if c' = c then some t else none
    | _ => none

/-- The senders of the messages in the mailbox of `c`: by the order of delivery, those
whose message comes after the ones popped. -/
def unreceived (c : ℕ) (tr : List (Event T)) : List T :=
  (appenders c tr).drop (pops c tr).length

/-- Thread `t`, in `Receive` on `c`, waits on the `n`th private semaphore. -/
def InReceive (k : Kernel T) (c : ℕ) (t : T) (n : ℕ) : Prop :=
  ∃ rest, k.code t = .p (.waiter n) :: .acquire (.channel c) :: .receiveLoop c :: rest

/-- Thread `t`, in `Send` on `c`, waits on the `n`th private semaphore. -/
def InSend (k : Kernel T) (c : ℕ) (t : T) (n : ℕ) : Prop :=
  ∃ msg rest, k.code t = .p (.waiter n) :: .acquire (.channel c) :: .sendLoop c msg :: rest

/-- `t`, which waits on the `n`th private semaphore, will go on. -/
def WakeUpPending (k : Kernel T) (t : T) (n : ℕ) : Prop :=
  0 < k.value (.waiter n) ∨ t ∈ k.readyList.map ListElement.item

/-- **Nobody is stranded on `c`**: if there is a message and a thread is blocked in
`Receive`, one that is blocked there has a wake-up pending; and so has every
thread blocked in `Send` whose own message has been received. -/
def NobodyStranded (tr : List (Event T)) (k : Kernel T) (c : ℕ) : Prop :=
  (k.buzon c ≠ [] → (∃ t n, k.InReceive c t n ∧ k.currentThread ≠ some t) →
    ∃ t n, k.InReceive c t n ∧ k.currentThread ≠ some t ∧ k.WakeUpPending t n) ∧
  ∀ t n, k.InSend c t n → k.currentThread ≠ some t → t ∉ unreceived c tr → k.WakeUpPending t n

/-- What must not go wrong in the next instruction: a signal to the receivers finds
nobody waiting on another semaphore than the one at the head of the queue; a
signal to the senders, no sender of a received message; and a sender does not go
back to sleep after its own message has been received. -/
def SignalsReach (tr : List (Event T)) (k : Kernel T) : Instr → T → Prop
  | .signal (.receivers c), _ =>
      ∀ u n, k.InReceive c u n → (k.waiters (.receivers c)).head? = some n
  | .signal (.senders c), _ =>
      ∀ u n, k.InSend c u n → u ∉ unreceived c tr → (k.waiters (.senders c)).head? = some n
  | .sendLoop c msg, t => (k.buzon c).head? = some msg → t ∈ unreceived c tr
  | _, _ => True

/-- The same of an action. -/
def Reaches (tr : List (Event T)) (k : Kernel T) (a : Action T) : Prop :=
  ∀ t i rest, a = .run → k.currentThread = some t → k.code t = i :: rest → SignalsReach tr k i t

/-! ## The code of a waiting thread -/

/-- The code of a thread in `Wait`, from its `Release` to its `P`, with `cont` to follow
the `Acquire` at its end. -/
inductive WaitCode (n : ℕ) (l : LockId) (cont : List Instr) : List Instr → Prop
  | releasing : WaitCode n l cont (.release l :: .p (.waiter n) :: .acquire l :: cont)
  | leaving : WaitCode n l cont (.releaseV l :: .p (.waiter n) :: .acquire l :: cont)
  | blocked : WaitCode n l cont (.p (.waiter n) :: .acquire l :: cont)

theorem WaitCode.mem {n : ℕ} {l : LockId} {cont code : List Instr} (h : WaitCode n l cont code) :
    .p (.waiter n) ∈ code := by
  cases h <;> simp

/-- There is a `P` on a private semaphore only in the code of a thread in `Wait`. -/
def Tidy (code : List Instr) : Prop :=
  (∀ n, .p (.waiter n) ∉ code) ∨
    ∃ n l cont, WaitCode n l cont code ∧ ∀ m, Instr.p (.waiter m) ∉ cont

theorem tidy_becomes {i : Instr} {is rest : List Instr} (h : Tidy (i :: rest)) (hb : Becomes i is) :
    Tidy (is ++ rest) := by
  rcases h with h | ⟨n, l, cont, hw, hcont⟩
  · have hrest : ∀ n, Instr.p (.waiter n) ∉ rest := fun n hn => h n (List.mem_cons_of_mem _ hn)
    cases hb with
    | wait d n => exact Or.inr ⟨n, d.lock, rest, .releasing, hrest⟩
    | _ => left; simpa using hrest
  · cases hw with
    | releasing =>
      cases hb
      exact Or.inr ⟨n, l, cont, .leaving, hcont⟩
    | leaving =>
      cases hb
      exact Or.inr ⟨n, l, cont, .blocked, hcont⟩
    | blocked =>
      cases hb
      left
      simpa using hcont

/-- Where a thread in `Wait` comes from. -/
theorem waitCode_becomes {i : Instr} {is rest cont : List Instr} {n : ℕ} {l : LockId}
    (h : Tidy (i :: rest)) (hb : Becomes i is) (hw : WaitCode n l cont (is ++ rest)) :
    (∃ d, i = .wait d ∧ rest = cont ∧ l = d.lock) ∨
      (i = .release l ∧ rest = .p (.waiter n) :: .acquire l :: cont) ∨
      (i = .releaseV l ∧ rest = .p (.waiter n) :: .acquire l :: cont) := by
  have hmem : Instr.p (.waiter n) ∈ is ++ rest := hw.mem
  have hnot : (∀ m, Instr.p (.waiter m) ∉ rest) → Instr.p (.waiter n) ∈ is := fun hr =>
    (List.mem_append.mp hmem).resolve_right (hr n)
  rcases h with h | ⟨m, l', cont', hw', hcont⟩
  · have his := hnot fun m hm => h m (List.mem_cons_of_mem _ hm)
    cases hb with
    | wait d m =>
      cases hw
      exact Or.inl ⟨d, rfl, rfl, rfl⟩
    | _ => simp at his
  · cases hw' with
    | releasing =>
      cases hb
      cases hw
      exact Or.inr (Or.inl ⟨rfl, rfl⟩)
    | leaving =>
      cases hb
      cases hw
      exact Or.inr (Or.inr ⟨rfl, rfl⟩)
    | blocked =>
      cases hb
      simp [hcont] at hmem

/-! ## What an instruction does to the private semaphores -/

section Exec
variable {tr : List (Event T)} {k k' : Kernel T} {c : ℕ} {t : T} {i : Instr} {rest : List Instr}

/-- The value of the `n`th private semaphore after an instruction. -/
def valueAfter (k : Kernel T) (n : ℕ) : Instr → ℤ
  | .p s =>
      if s = .waiter n ∧ k.value (.waiter n) ≠ 0 then k.value (.waiter n) - 1
      else k.value (.waiter n)
  | .v s => if s = .waiter n then k.value (.waiter n) + 1 else k.value (.waiter n)
  | .wait _ => if n = k.nextWaiter then 0 else k.value (.waiter n)
  | _ => k.value (.waiter n)

/-- The queue of condition `d` and the number of private semaphores after an
instruction. -/
def waitersAfter (k : Kernel T) (d : CondId) : Instr → List ℕ × ℕ
  | .wait e => (if e = d then k.waiters d ++ [k.nextWaiter] else k.waiters d, k.nextWaiter + 1)
  | _ => (k.waiters d, k.nextWaiter)

theorem exec_waiters (he : k.exec t rest i = some k') (d : CondId) (n : ℕ) :
    k'.value (.waiter n) = k.valueAfter n i ∧
      (k'.waiters d, k'.nextWaiter) = k.waitersAfter d i := by
  cases i with
  | p s =>
    rw [← Option.some.inj he]
    unfold semaphoreP
    split
    · rename_i hv
      refine ⟨?_, rfl⟩
      rw [valueAfter, if_neg]
      rintro ⟨rfl, hne⟩
      exact hne hv
    · rename_i hv
      refine ⟨?_, rfl⟩
      by_cases hs : s = .waiter n
      · subst hs
        simp [valueAfter, hv]
      · simp [valueAfter, hs, Ne.symm hs]
  | acquireP l =>
    rw [← Option.some.inj he]
    unfold semaphoreP
    split
    · exact ⟨rfl, rfl⟩
    · exact ⟨by simp [valueAfter], rfl⟩
  | v s =>
    rw [← Option.some.inj he]
    unfold semaphoreV
    rcases wake_eq k s with ⟨-, hw⟩ | ⟨u, q, r, -, hw, -⟩ <;> rw [hw] <;> refine ⟨?_, rfl⟩ <;>
      by_cases hs : s = .waiter n
    · subst hs; simp [valueAfter]
    · simp [valueAfter, hs, Ne.symm hs]
    · subst hs; simp [valueAfter]
    · simp [valueAfter, hs, Ne.symm hs]
  | releaseV l =>
    rw [← Option.some.inj he]
    unfold semaphoreV
    rcases wake_eq k (.lock l) with ⟨-, hw⟩ | ⟨u, q, r, -, hw, -⟩ <;> rw [hw] <;>
      exact ⟨by simp [valueAfter], rfl⟩
  | acquire l =>
    simp only [exec] at he
    split at he
    · cases he
    · obtain ⟨o, p, r, hi, -⟩ := k.inherit_eq t l
      rw [hi] at he
      rw [← Option.some.inj he]
      exact ⟨rfl, rfl⟩
  | release l =>
    simp only [exec] at he
    split at he
    · obtain ⟨p, r, hd, -⟩ := disinherit_eq
        { k with lockOwner := Function.update k.lockOwner l none } t l
      rw [hd] at he
      rw [← Option.some.inj he]
      exact ⟨rfl, rfl⟩
    · cases he
  | setOwner l | send c' m | receive c' | sendAppend c' m | receivePop c' =>
    rw [← Option.some.inj he]
    exact ⟨rfl, rfl⟩
  | wait e =>
    simp only [exec] at he
    split at he
    · rw [← Option.some.inj he]
      constructor
      · by_cases hn : n = k.nextWaiter
        · subst hn; simp [valueAfter]
        · simp [valueAfter, hn]
      · by_cases hd : e = d
        · subst hd; simp [waitersAfter]
        · simp [waitersAfter, hd, Ne.symm hd]
    · cases he
  | signal d =>
    simp only [exec] at he
    split at he
    · split at he <;> rw [← Option.some.inj he] <;> exact ⟨rfl, rfl⟩
    · cases he
  | broadcast d | sendLoop c' m | receiveLoop c' =>
    simp only [exec] at he
    split at he <;> rw [← Option.some.inj he] <;> exact ⟨rfl, rfl⟩
  | sendHead c' =>
    simp only [exec] at he
    split at he
    · cases he
    · rw [← Option.some.inj he]
      exact ⟨rfl, rfl⟩

/-- No semaphore leaves a queue. -/
theorem mem_waiters_exec (he : k.exec t rest i = some k') {d : CondId} {n : ℕ}
    (h : n ∈ k.waiters d) : n ∈ k'.waiters d := by
  have hw := (Prod.mk.inj (exec_waiters he d n).2).1
  rw [hw]
  cases i with
  | wait e =>
    simp only
    split
    · exact List.mem_append_left _ h
    · exact h
  | _ => exact h

theorem nextWaiter_exec_le (he : k.exec t rest i = some k') : k.nextWaiter ≤ k'.nextWaiter := by
  have hw := (Prod.mk.inj (exec_waiters he (.senders 0) 0).2).2
  rw [hw]
  cases i <;> simp

end Exec

/-! ## The invariant -/

/-- The running thread is about to signal `d`, or to do the `V` of such a signal on the
`n`th private semaphore, and cannot be interrupted before. -/
def Signalling (k : Kernel T) (d : CondId) (n : ℕ) : Prop :=
  k.switchPoint = false ∧ ∃ u, k.currentThread = some u ∧
    ((k.code u).head? = some (.signal d) ∨ (k.code u).head? = some (.v (.waiter n)))

/-- `t` has found that it must wait, at instruction `loop`, and has not yet released the
lock. -/
def AboutToWait (loop : Instr) (code : List Instr) : Prop :=
  (∃ d rest, code = .wait d :: loop :: rest) ∨
    ∃ n l rest, code = .release l :: .p (.waiter n) :: .acquire l :: loop :: rest ∨
      code = .releaseV l :: .p (.waiter n) :: .acquire l :: loop :: rest

/-- The waiting threads and their private semaphores. -/
structure WaitInv (k : Kernel T) : Prop where
  tidy : ∀ t, Tidy (k.code t)
  nonneg : ∀ n, 0 ≤ k.value (.waiter n)
  fresh : ∀ t n l cont, WaitCode n l cont (k.code t) → n < k.nextWaiter
  alone : ∀ t u n l l' cont cont', WaitCode n l cont (k.code t) →
    WaitCode n l' cont' (k.code u) → t = u
  receiver : ∀ t n l c rest, WaitCode n l (.receiveLoop c :: rest) (k.code t) →
    n ∈ k.waiters (.receivers c)
  sender : ∀ t n l c m rest, WaitCode n l (.sendLoop c m :: rest) (k.code t) →
    n ∈ k.waiters (.senders c)

/-- What channel `c` owes to the threads that wait on it. -/
structure WakeInv (tr : List (Event T)) (k : Kernel T) (c : ℕ) : Prop where
  receiveWaits : ∀ t, AboutToWait (.receiveLoop c) (k.code t) → k.buzon c = []
  sendWaits : ∀ t m, AboutToWait (.sendLoop c m) (k.code t) → t ∈ unreceived c tr
  received : ∀ t n, k.InReceive c t n → k.buzon c ≠ [] → k.value (.waiter n) = 0 →
    k.Signalling (.receivers c) n
  sent : ∀ t n, k.InSend c t n → t ∉ unreceived c tr → k.value (.waiter n) = 0 →
    k.Signalling (.senders c) n

section Preserved
variable {tr : List (Event T)} {k k' : Kernel T} {c : ℕ} {t : T} {i : Instr} {rest : List Instr}

/-- Where a thread in `Wait` is after an instruction: it has just made its private
semaphore, or was in the same `Wait` before. -/
theorem waitCode_exec (hw : WaitInv k) (hc : k.code t = i :: rest)
    (he : k.exec t rest i = some k') {n : ℕ} {l : LockId} {cont : List Instr}
    (h : WaitCode n l cont (k'.code t)) :
    (∃ d, i = .wait d ∧ n = k.nextWaiter ∧ cont = rest) ∨ WaitCode n l cont (k.code t) := by
  rcases exec_becomes he with hcode | ⟨is, hb, hcode⟩
  · rw [hcode] at h
    exact Or.inr h
  · have htidy : Tidy (i :: rest) := hc ▸ hw.tidy t
    have h' := h
    rw [hcode, Function.update_self] at h
    rcases waitCode_becomes htidy hb h with ⟨d, rfl, rfl, rfl⟩ | ⟨rfl, rfl⟩ | ⟨rfl, rfl⟩
    · left
      refine ⟨d, rfl, ?_, rfl⟩
      simp only [exec] at he
      split at he
      · rw [← Option.some.inj he, goOn_code, Function.update_self] at h'
        cases h'
        rfl
      · cases he
    · rw [hc]
      exact Or.inr .releasing
    · rw [hc]
      exact Or.inr .leaving

/-- The same for any thread. -/
theorem waitCode_exec_any (hw : WaitInv k) (hc : k.code t = i :: rest)
    (he : k.exec t rest i = some k') {u : T} {n : ℕ} {l : LockId} {cont : List Instr}
    (h : WaitCode n l cont (k'.code u)) :
    (u = t ∧ ∃ d, i = .wait d ∧ n = k.nextWaiter ∧ cont = rest) ∨
      WaitCode n l cont (k.code u) := by
  by_cases hu : u = t
  · subst hu
    rcases waitCode_exec hw hc he h with hnew | hold
    · exact Or.inl ⟨rfl, hnew⟩
    · exact Or.inr hold
  · rw [code_exec_of_ne he hu] at h
    exact Or.inr h

/-- A thread that has its own loop to go back to after `Wait` is in the queue of its own
condition. -/
theorem waiting_queued {d : CondId} (he : k.exec t rest (.wait d) = some k') :
    k.nextWaiter ∈ k'.waiters d := by
  have hw := (Prod.mk.inj (exec_waiters he d 0).2).1
  rw [hw]
  simp

theorem WaitInv.exec (hw : WaitInv k) (hc : k.code t = i :: rest)
    (he : k.exec t rest i = some k') (hd : Led (i :: rest)) : WaitInv k' where
  tidy u := by
    by_cases hu : u = t
    · subst hu
      rcases exec_becomes he with hcode | ⟨is, hb, hcode⟩
      · rw [hcode]
        exact hw.tidy u
      · rw [hcode, Function.update_self]
        exact tidy_becomes (hc ▸ hw.tidy u) hb
    · rw [code_exec_of_ne he hu]
      exact hw.tidy u
  nonneg n := by
    rw [(exec_waiters he (.senders 0) n).1]
    have hn := hw.nonneg n
    cases i <;> simp only [valueAfter] <;> (try split) <;> omega
  fresh u n l cont h := by
    rcases waitCode_exec_any hw hc he h with ⟨-, d, rfl, rfl, -⟩ | hold
    · have := (Prod.mk.inj (exec_waiters he (.senders 0) 0).2).2
      rw [this]
      simp
    · exact lt_of_lt_of_le (hw.fresh u n l cont hold) (nextWaiter_exec_le he)
  alone u v n l l' cont cont' h h' := by
    rcases waitCode_exec_any hw hc he h with ⟨rfl, d, rfl, rfl, -⟩ | hold
    · rcases waitCode_exec_any hw hc he h' with ⟨rfl, -⟩ | hold'
      · rfl
      · exact absurd (hw.fresh _ _ _ _ hold') (lt_irrefl _)
    · rcases waitCode_exec_any hw hc he h' with ⟨rfl, d, rfl, rfl, -⟩ | hold'
      · exact absurd (hw.fresh _ _ _ _ hold) (lt_irrefl _)
      · exact hw.alone u v n l l' cont cont' hold hold'
  receiver u n l c rest' h := by
    rcases waitCode_exec_any hw hc he h with ⟨-, d, rfl, rfl, rfl⟩ | hold
    · obtain rfl : d = .receivers c := by
        simpa [Takes] using hd.1.receiveLoop c rfl
      exact waiting_queued he
    · exact mem_waiters_exec he (hw.receiver u n l c rest' hold)
  sender u n l c m rest' h := by
    rcases waitCode_exec_any hw hc he h with ⟨-, d, rfl, rfl, rfl⟩ | hold
    · obtain rfl : d = .senders c := by
        simpa [Takes] using hd.1.sendLoop c m rfl
      exact waiting_queued he
    · exact mem_waiters_exec he (hw.sender u n l c m rest' hold)

/-- A thread about to wait on a channel is inside its lock. -/
theorem inside_of_aboutToWait {loop : Instr} (hp : k.Placed) (hd : Led (k.code t))
    (hloop : loop = .receiveLoop c ∨ ∃ m, loop = .sendLoop c m)
    (h : AboutToWait loop (k.code t)) : k.Inside (.channel c) t := by
  have hf := hp c t
  rcases h with ⟨d, rest, hc⟩ | ⟨n, l, rest, hc | hc⟩
  · rw [hc] at hf hd
    have hlock : d.lock = .channel c := by
      rcases hloop with rfl | ⟨m, rfl⟩
      · obtain rfl : d = .receivers c := by simpa [Takes] using hd.1.receiveLoop c rfl
        rfl
      · obtain rfl : d = .senders c := by simpa [Takes] using hd.1.sendLoop c m rfl
        rfl
    obtain ⟨next, hn, -⟩ := hf
    rw [afterInstr, if_pos hlock] at hn
    exact Or.inl (place_eq_owner (goes_eq_some.mp hn).1)
  all_goals
    rw [hc] at hf hd
    have hlock : l = .channel c := by
      rcases hloop with rfl | ⟨m, rfl⟩
      · simpa [Takes] using hd.2.2.1.receiveLoop c rfl
      · simpa [Takes] using hd.2.2.1.sendLoop c m rfl
    subst hlock
  · obtain ⟨next, hn, -⟩ := hf
    rw [afterInstr, if_pos rfl] at hn
    exact Or.inl (place_eq_owner (goes_eq_some.mp hn).1)
  · exact Or.inr (Or.inr (by rw [hc]; rfl))

omit [DecidableEq T] in
@[simp] theorem appenders_append (tr es : List (Event T)) :
    appenders c (tr ++ es) = appenders c tr ++ appenders c es := List.filterMap_append

omit [DecidableEq T] in
theorem length_appenders (tr : List (Event T)) :
    (appenders c tr).length = (appends c tr).length := by
  induction tr with
  | nil => rfl
  | cons e tr ih =>
    cases e with
    | appended c' t m =>
      by_cases hcc : c' = c
      · simpa [appenders, appends, hcc] using ih
      · simpa [appenders, appends, hcc] using ih
    | _ => simpa [appenders, appends] using ih

/-- The senders of the messages in the mailbox of `c` after an instruction of `t`. -/
def unreceivedAfter (c : ℕ) (t : T) (q : List T) : Instr → List T
  | .sendAppend c' _ => if c' = c then q ++ [t] else q
  | .receivePop c' => if c' = c then q.tail else q
  | _ => q

/-- Who appends by an instruction of `t`. -/
def appendedBy (c : ℕ) (t : T) : Instr → List T
  | .sendAppend c' _ => if c' = c then [t] else []
  | _ => []

omit [DecidableEq T] in
theorem appenders_instrEvents :
    appenders c (k.instrEvents t rest i) = appendedBy c t i := by
  cases i with
  | acquireP l =>
    simp only [instrEvents]
    split
    · rfl
    · split <;> rfl
  | sendAppend c' m =>
    by_cases hcc : c' = c
    · simp [appenders, appendedBy, instrEvents, hcc]
    · simp [appenders, appendedBy, instrEvents, hcc]
  | _ => rfl

omit [DecidableEq T] in
theorem unreceived_exec (h : ChannelInv tr k c) :
    unreceived c (tr ++ k.instrEvents t rest i) = unreceivedAfter c t (unreceived c tr) i := by
  have hlen : (pops c tr).length ≤ (appenders c tr).length := by
    have := congrArg List.length h.contents
    rw [List.length_map, List.length_append] at this
    rw [length_appenders]
    omega
  rw [unreceived, appenders_append, pops_append, pops_instrEvents, appenders_instrEvents,
    unreceived]
  cases i with
  | sendAppend c' m =>
    by_cases hcc : c' = c
    · simp [unreceivedAfter, appendedBy, hcc, List.drop_append_of_le_length hlen]
    · simp [unreceivedAfter, appendedBy, hcc]
  | receivePop c' =>
    by_cases hcc : c' = c
    · simp [unreceivedAfter, appendedBy, hcc]
    · simp [unreceivedAfter, appendedBy, hcc]
  | _ => simp [unreceivedAfter, appendedBy]

omit [DecidableEq T] in
/-- A thread about to wait does not touch the mailbox. -/
theorem AboutToWait.still {loop : Instr} (h : AboutToWait loop (i :: rest)) (b : List ℤ)
    (q : List T) : buzonAfter c b i = b ∧ unreceivedAfter c t q i = q := by
  rcases h with ⟨d, r, hc⟩ | ⟨n, l, r, hc | hc⟩ <;> cases hc <;> exact ⟨rfl, rfl⟩

/-- How a thread gets to be about to wait: by its loop, or it was so before. -/
theorem aboutToWait_exec {loop : Instr} (hw : WaitInv k) (hc : k.code t = i :: rest)
    (he : k.exec t rest i = some k') (hd : Led (i :: rest))
    (h : AboutToWait loop (k'.code t)) :
    AboutToWait loop (i :: rest) ∨
      (∃ c, i = .receiveLoop c ∧ loop = .receiveLoop c ∧ k.buzon c = []) ∨
      ∃ c m, i = .sendLoop c m ∧ loop = .sendLoop c m ∧ (k.buzon c).head? = some m := by
  rcases exec_becomes he with hcode | ⟨is, hb, hcode⟩
  · rw [hcode, hc] at h
    exact Or.inl h
  · have htidy : Tidy (i :: rest) := hc ▸ hw.tidy t
    have hcode' := congrFun hcode t
    rw [Function.update_self] at hcode'
    rw [hcode'] at h
    rcases h with ⟨d, r, hr⟩ | ⟨n, l, r, hr⟩
    · cases hb with
      | sendWait c m =>
        obtain ⟨rfl, rfl, -⟩ : .senders c = d ∧ .sendLoop c m = loop ∧ rest = r := by
          simpa using hr
        refine Or.inr (Or.inr ⟨c, m, rfl, rfl, ?_⟩)
        simp only [exec] at he
        split at he
        · assumption
        · rw [← Option.some.inj he] at hcode'
          simp at hcode'
      | receiveWait c =>
        obtain ⟨rfl, rfl, -⟩ : .receivers c = d ∧ .receiveLoop c = loop ∧ rest = r := by
          simpa using hr
        refine Or.inr (Or.inl ⟨c, rfl, rfl, ?_⟩)
        simp only [exec] at he
        split at he
        · assumption
        · rw [← Option.some.inj he] at hcode'
          simp at hcode'
      | p | v | setOwner | releaseV | signalNobody | broadcastNobody =>
        rw [List.nil_append] at hr
        exact absurd (by rw [hr]; rfl) (hd.1.wait d)
      | _ => simp at hr
    · have hwait : WaitCode n l (loop :: r) (is ++ rest) := by
        rcases hr with hr | hr <;> rw [hr]
        · exact .releasing
        · exact .leaving
      left
      rcases waitCode_becomes htidy hb hwait with ⟨d, rfl, rfl, -⟩ | ⟨rfl, rfl⟩ | ⟨rfl, rfl⟩
      · exact Or.inl ⟨d, r, rfl⟩
      · exact Or.inr ⟨n, l, r, Or.inl rfl⟩
      · exact Or.inr ⟨n, l, r, Or.inr rfl⟩

/-- Another thread leaves the mailbox alone while one is inside the channel's lock. -/
theorem mailbox_still {u : T} (hi : Sound tr k) (hc : k.code t = i :: rest) (hu : u ≠ t)
    (hin : k.Inside (.channel c) u) (b : List ℤ) (q : List T) :
    buzonAfter c b i = b ∧ unreceivedAfter c t q i = q := by
  obtain ⟨holder, hl⟩ := hi.lock (.channel c)
  have hnot : ∀ next, afterInstr c i (k.place c t) = some next → k.place c t ≠ .owner := by
    intro next _ ho
    have h1 := (hl.inside_iff u).mp hin
    have h2 := (hl.inside_iff t).mp (Or.inl (place_eq_owner ho))
    rw [h1, Option.some.injEq] at h2
    exact hu h2
  have hf := hi.placed c t
  rw [hc] at hf
  obtain ⟨next, hn, -⟩ := hf
  have hne := hnot next hn
  cases i with
  | sendAppend c' m | receivePop c' =>
    by_cases hcc : c' = c
    · rw [afterInstr, if_pos hcc] at hn
      exact absurd (goes_eq_some.mp hn).1 hne
    · simp [buzonAfter, unreceivedAfter, hcc]
  | _ => exact ⟨rfl, rfl⟩

/-- A thread blocked on its private semaphore, without a wake-up, before and after an
instruction: if the signal for it was under way, it still is. -/
theorem Signalling.exec {d : CondId} {n : ℕ} (h : k.Signalling d n)
    (hcur : k.currentThread = some t) (hc : k.code t = i :: rest)
    (he : k.exec t rest i = some k') (hv : k.value (.waiter n) = 0)
    (hv' : k'.value (.waiter n) = 0) (hmem : n ∈ k.waiters d)
    (hhead : i = .signal d → (k.waiters d).head? = some n) : k'.Signalling d n := by
  obtain ⟨-, u, hu, hcase⟩ := h
  rw [hcur, Option.some.injEq] at hu
  subst hu
  rw [hc, List.head?_cons, Option.some.injEq, Option.some.injEq] at hcase
  rcases hcase with rfl | rfl
  · have hfirst := hhead rfl
    simp only [Kernel.exec] at he
    split at he
    · split at he
      · rename_i hnil
        rw [hnil] at hfirst
        cases hfirst
      · rename_i m q hq
        obtain rfl : m = n := by simpa [hq] using hfirst
        rw [← Option.some.inj he]
        exact ⟨rfl, t, hcur, Or.inr (by simp)⟩
    · cases he
  · rw [(exec_waiters he d n).1, valueAfter, if_pos rfl, hv] at hv'
    cases hv'

/-- The value of a blocked thread's private semaphore drops to 0 only if it was 0. -/
theorem blocked_value (hw : WaitInv k) (hc : k.code t = i :: rest)
    (he : k.exec t rest i = some k') {u : T} {n : ℕ} {l : LockId} {cont : List Instr}
    (hold : WaitCode n l cont (k.code u)) {cont' : List Instr}
    (hnew : k'.code u = .p (.waiter n) :: cont') (hv' : k'.value (.waiter n) = 0) :
    k.value (.waiter n) = 0 := by
  have hval := (exec_waiters he (.senders 0) n).1
  rw [hv'] at hval
  have hnn := hw.nonneg n
  have hlt := hw.fresh u n l cont hold
  cases i with
  | p s =>
    by_contra hne
    have hs : s = .waiter n := by
      by_contra hs
      simp [valueAfter, hs] at hval
      exact hne hval.symm
    subst hs
    -- only the thread itself does a `P` on its private semaphore, and then it goes on
    have hmem : Instr.p (.waiter n) ∈ k.code t := by rw [hc]; simp
    rcases hw.tidy t with hno | ⟨m, l', cont', hwt, hcont⟩
    · exact hno n hmem
    · have hmn : m = n := by
        rw [hc] at hwt
        cases hwt
        rfl
      subst hmn
      obtain rfl := hw.alone u t m l l' cont cont' hold hwt
      rw [hc] at hwt
      cases hwt
      have hcode : k'.code u = .acquire l' :: cont' := by
        rw [← Option.some.inj he, semaphoreP, if_neg hne, goOn_code, Function.update_self]
      rw [hcode] at hnew
      simp at hnew
  | v s =>
    simp only [valueAfter] at hval
    split at hval <;> omega
  | wait d =>
    rw [valueAfter, if_neg (by omega)] at hval
    exact hval.symm
  | _ => exact hval.symm

/-- How a thread gets to be blocked: it was about to wait, or it was blocked before. -/
theorem blocked_exec (hw : WaitInv k) (hc : k.code t = i :: rest)
    (he : k.exec t rest i = some k') {u : T} {n : ℕ} {l : LockId} {loop : Instr}
    {cont : List Instr} (h : k'.code u = .p (.waiter n) :: .acquire l :: loop :: cont) :
    k.code u = k'.code u ∨ (u = t ∧ AboutToWait loop (i :: rest)) := by
  by_cases hut : u = t
  · subst hut
    rcases exec_becomes he with hcode | ⟨is, hb, hcode⟩
    · exact Or.inl (congrFun hcode u).symm
    · rw [hcode, Function.update_self] at h
      have htidy : Tidy (i :: rest) := hc ▸ hw.tidy u
      have hwait : WaitCode n l (loop :: cont) (is ++ rest) := by
        rw [h]
        exact .blocked
      rcases waitCode_becomes htidy hb hwait with ⟨d, rfl, -, -⟩ | ⟨rfl, -⟩ | ⟨rfl, rfl⟩
      · cases hb
        cases h
      · cases hb
        cases h
      · exact Or.inr ⟨rfl, Or.inr ⟨n, l, cont, Or.inr rfl⟩⟩
  · exact Or.inl (code_exec_of_ne he hut).symm

/-- **An instruction that meets the condition keeps what a channel owes.** -/
theorem WakeInv.exec (h : WakeInv tr k c) (hi : Sound tr k) (hw : WaitInv k)
    (hcur : k.currentThread = some t) (hc : k.code t = i :: rest)
    (he : k.exec t rest i = some k') (hg : SignalsReach tr k i t) :
    WakeInv (tr ++ k.instrEvents t rest i) k' c := by
  have hd : Led (i :: rest) := hc ▸ hi.led t
  have hbuz := exec_buzon (c := c) he
  have hunr : unreceived c (tr ++ k.instrEvents t rest i) =
      unreceivedAfter c t (unreceived c tr) i := unreceived_exec (hi.channel c)
  refine ⟨fun u hu => ?_, fun u m hu => ?_, fun u n hu hb hv => ?_, fun u n hu hr hv => ?_⟩
  · by_cases hut : u = t
    · subst hut
      rcases aboutToWait_exec hw hc he hd hu with hold | ⟨c', rfl, hloop, hb⟩ | ⟨c', m, -, hloop, -⟩
      · rw [hbuz, (hold.still (t := u) _ []).1]
        exact h.receiveWaits u (hc ▸ hold)
      · cases hloop
        rw [hbuz]
        exact hb
      · cases hloop
    · rw [code_exec_of_ne he hut] at hu
      have hin := inside_of_aboutToWait (c := c) hi.placed (hi.led u) (Or.inl rfl) hu
      rw [hbuz, (mailbox_still hi hc hut hin _ []).1]
      exact h.receiveWaits u hu
  · by_cases hut : u = t
    · subst hut
      rcases aboutToWait_exec hw hc he hd hu with hold | ⟨c', -, hloop, -⟩ | ⟨c', m', rfl, hloop,
        hb⟩
      · rw [hunr, (hold.still (t := u) [] _).2]
        exact h.sendWaits u m (hc ▸ hold)
      · cases hloop
      · cases hloop
        rw [hunr]
        exact hg hb
    · rw [code_exec_of_ne he hut] at hu
      have hin := inside_of_aboutToWait (c := c) hi.placed (hi.led u) (Or.inr ⟨m, rfl⟩) hu
      rw [hunr, (mailbox_still hi hc hut hin [] _).2]
      exact h.sendWaits u m hu
  · obtain ⟨cont, hcode⟩ := hu
    rcases blocked_exec hw hc he hcode with hsame | ⟨rfl, habout⟩
    · have hold : k.InReceive c u n := ⟨cont, hsame.trans hcode⟩
      have hwait : WaitCode n (.channel c) (.receiveLoop c :: cont) (k.code u) := by
        rw [hsame, hcode]
        exact .blocked
      have hv0 := blocked_value hw hc he hwait hcode hv
      by_cases hb0 : k.buzon c = []
      · -- the message has just been appended
        rw [hbuz] at hb
        cases i with
        | sendAppend c' m =>
          obtain rfl : c' = c := by
            by_contra hcc
            simp [buzonAfter, hcc, hb0] at hb
          rw [← Option.some.inj he]
          exact ⟨rfl, t, hcur, Or.inl (by simp)⟩
        | receivePop c' => by_cases hcc : c' = c <;> simp [buzonAfter, hcc, hb0] at hb
        | _ => exact absurd hb0 hb
      · refine (h.received u n hold hb0 hv0).exec hcur hc he hv0 hv
          (hw.receiver u n _ c cont hwait) ?_
        rintro rfl
        exact hg u n hold
    · rw [hbuz, (habout.still (t := u) _ []).1] at hb
      exact absurd (h.receiveWaits u (hc ▸ habout)) hb
  · obtain ⟨msg, cont, hcode⟩ := hu
    rcases blocked_exec hw hc he hcode with hsame | ⟨rfl, habout⟩
    · have hold : k.InSend c u n := ⟨msg, cont, hsame.trans hcode⟩
      have hwait : WaitCode n (.channel c) (.sendLoop c msg :: cont) (k.code u) := by
        rw [hsame, hcode]
        exact .blocked
      have hv0 := blocked_value hw hc he hwait hcode hv
      by_cases hr0 : u ∈ unreceived c tr
      · -- its message has just been popped
        rw [hunr] at hr
        cases i with
        | receivePop c' =>
          obtain rfl : c' = c := by
            by_contra hcc
            simp [unreceivedAfter, hcc, hr0] at hr
          rw [← Option.some.inj he]
          exact ⟨rfl, t, hcur, Or.inl (by simp)⟩
        | sendAppend c' m => by_cases hcc : c' = c <;> simp [unreceivedAfter, hcc, hr0] at hr
        | _ => exact absurd hr0 hr
      · refine (h.sent u n hold hr0 hv0).exec hcur hc he hv0 hv
          (hw.sender u n _ c msg cont hwait) ?_
        rintro rfl
        exact hg u n hold hr0
    · rw [hunr, (habout.still (t := u) [] _).2] at hr
      exact absurd (h.sendWaits u msg (hc ▸ habout)) hr

end Preserved

/-! ## Runs -/

/-- A signal under way is not interrupted. -/
theorem Signalling.only_run {k k' : Kernel T} {a : Action T} {d : CondId} {n : ℕ}
    (h : k.Signalling d n) (hstep : k.step a = some k') : a = .run := by
  obtain ⟨hsw, u, hu, hhead⟩ := h
  have hne : k.code u ≠ [] := by
    intro hnil
    simp [hnil] at hhead
  rcases step_cases hstep with ⟨c, t, rfl, ht, hc, -⟩ | ⟨t, i, rest, rfl, -, -, -⟩ |
    ⟨t, rfl, ht, hs, -⟩ | ⟨t, rfl, ht, -, -⟩
  · rw [ht, Option.some.injEq] at hu
    subst hu
    exact absurd hc hne
  · rfl
  · rw [ht, Option.some.injEq] at hu
    subst hu
    rcases hs with hs | hs
    · rw [hs] at hsw
      cases hsw
    · exact absurd hs hne
  · rw [ht] at hu
    cases hu

/-- Waiting threads after a call: the caller is not one of them. -/
theorem code_call {k : Kernel T} {t u : T} {call : Call} {i j : Instr} {rest : List Instr}
    (h : (k.goOn t [call.instr] true).code u = i :: j :: rest) : k.code u = i :: j :: rest := by
  by_cases hu : u = t
  · subst hu
    simp at h
  · simpa [hu] using h

theorem WaitInv.step {tr : List (Event T)} {k k' : Kernel T} {a : Action T}
    (h : k.step a = some k') (hi : Sound tr k) (hw : WaitInv k) : WaitInv k' := by
  rcases step_cases h with ⟨d, t, rfl, -, hc, rfl⟩ | ⟨t, i, rest, rfl, -, hc, he⟩ |
    ⟨t, rfl, -, -, rfl⟩ | ⟨t, rfl, -, -, rfl⟩
  · have hback : ∀ u n l cont, WaitCode n l cont ((k.goOn t [d.instr] true).code u) →
        WaitCode n l cont (k.code u) := by
      intro u n l cont hwait
      by_cases hu : u = t
      · subst hu
        rw [goOn_code, Function.update_self] at hwait
        cases d <;> cases hwait
      · simpa [hu] using hwait
    refine ⟨fun u => ?_, hw.nonneg, fun u n l cont hu => hw.fresh u n l cont (hback _ _ _ _ hu),
      fun u v n l l' cont cont' hu hv => hw.alone u v n l l' cont cont' (hback _ _ _ _ hu)
        (hback _ _ _ _ hv),
      fun u n l c rest hu => hw.receiver u n l c rest (hback _ _ _ _ hu),
      fun u n l c m rest hu => hw.sender u n l c m rest (hback _ _ _ _ hu)⟩
    by_cases hu : u = t
    · subst hu
      left
      rw [goOn_code, Function.update_self]
      cases d <;> simp [Call.instr]
    · simpa [hu] using hw.tidy u
  · exact hw.exec hc he (hc ▸ hi.led t)
  · exact ⟨hw.tidy, hw.nonneg, hw.fresh, hw.alone, hw.receiver, hw.sender⟩
  · exact ⟨hw.tidy, hw.nonneg, hw.fresh, hw.alone, hw.receiver, hw.sender⟩

theorem WakeInv.step {tr : List (Event T)} {k k' : Kernel T} {a : Action T} {c : ℕ}
    (h : k.step a = some k') (hi : Sound tr k) (hw : WaitInv k) (hk : WakeInv tr k c)
    (hg : Reaches tr k a) : WakeInv (tr ++ k.emit a) k' c := by
  rcases step_cases h with ⟨d, t, rfl, -, hc, rfl⟩ | ⟨t, i, rest, rfl, ht, hc, he⟩ |
    ⟨t, rfl, -, -, rfl⟩ | ⟨t, rfl, -, -, rfl⟩
  · have habout : ∀ u loop, AboutToWait loop ((k.goOn t [d.instr] true).code u) →
        AboutToWait loop (k.code u) := by
      rintro u loop (⟨d, rest, hcode⟩ | ⟨n, l, rest, hcode | hcode⟩)
      · exact Or.inl ⟨d, rest, code_call hcode⟩
      · exact Or.inr ⟨n, l, rest, Or.inl (code_call hcode)⟩
      · exact Or.inr ⟨n, l, rest, Or.inr (code_call hcode)⟩
    simp only [emit, List.append_nil]
    refine ⟨fun u hu => hk.receiveWaits u (habout u _ hu),
      fun u m hu => hk.sendWaits u m (habout u _ hu), ?_, ?_⟩
    · rintro u n ⟨rest, hcode⟩ hb hv
      cases (hk.received u n ⟨rest, code_call hcode⟩ hb hv).only_run h
    · rintro u n ⟨msg, rest, hcode⟩ hr hv
      cases (hk.sent u n ⟨msg, rest, code_call hcode⟩ hr hv).only_run h
  · have hemit : k.emit .run = k.instrEvents t rest i := by simp only [emit, ht, hc]
    rw [hemit]
    exact hk.exec hi hw ht hc he (hg t i rest rfl ht hc)
  · simp only [emit, List.append_nil]
    refine ⟨hk.receiveWaits, hk.sendWaits, fun u n hu hb hv => ?_, fun u n hu hr hv => ?_⟩
    · cases (hk.received u n hu hb hv).only_run h
    · cases (hk.sent u n hu hr hv).only_run h
  · simp only [emit, List.append_nil]
    refine ⟨hk.receiveWaits, hk.sendWaits, fun u n hu hb hv => ?_, fun u n hu hr hv => ?_⟩
    · cases (hk.received u n hu hb hv).only_run h
    · cases (hk.sent u n hu hr hv).only_run h

section Runs
variable {multilevel : Bool} {value : ℕ → ℤ} {priority : T → ℕ} {ready : List T}
  {tr : List (Event T)} {k : Kernel T}

theorem RunWhere.wakeInv (h : RunWhere Reaches (initial multilevel value priority ready) tr k) :
    Sound tr k ∧ WaitInv k ∧ ∀ c, WakeInv tr k c := by
  refine Run.invariant (I := fun tr k => Sound tr k ∧ WaitInv k ∧ ∀ c, WakeInv tr k c) ?_ ?_ h
  · have hno : ∀ (t : T) n l cont,
        ¬ WaitCode n l cont ((initial multilevel value priority ready).code t) := by
      intro t n l cont hw
      cases hw
    refine ⟨sound_initial multilevel value priority ready, ⟨fun t => Or.inl (by simp [initial]),
      fun n => le_rfl, fun t n l cont hw => absurd hw (hno _ _ _ _),
      fun t u n l l' cont cont' hw => absurd hw (hno _ _ _ _),
      fun t n l c rest hw => absurd hw (hno _ _ _ _),
      fun t n l c m rest hw => absurd hw (hno _ _ _ _)⟩, fun c => ⟨?_, ?_, ?_, ?_⟩⟩
    · exact fun _ _ => rfl
    · rintro t m (⟨d, rest, hc⟩ | ⟨n, l, rest, hc | hc⟩) <;> cases hc
    · rintro t n ⟨rest, hc⟩
      cases hc
    · rintro t n ⟨msg, rest, hc⟩
      cases hc
  · intro tr k a k' hall hg hstep
    obtain ⟨hi, hw, hk⟩ := hall
    exact ⟨hi.step hstep, hw.step hstep hi, fun c => (hk c).step hstep hi hw hg⟩

/-- **Nobody is stranded while signals reach the thread they are for.**  In every run
of any threads in which every instruction meets `SignalsReach`, whenever another
thread can run, nobody is stranded on any channel. -/
theorem channel_strands_nobody (c : ℕ)
    (h : RunWhere Reaches (initial multilevel value priority ready) tr k)
    (hsw : k.switchPoint = true) : NobodyStranded tr k c := by
  obtain ⟨hi, hw, hk⟩ := h.wakeInv
  have hidle : ∀ d n, ¬ k.Signalling d n := fun d n hs => by
    rw [hs.1] at hsw
    cases hsw
  have hpos : ∀ n, k.value (.waiter n) ≠ 0 → 0 < k.value (.waiter n) := fun n hn =>
    lt_of_le_of_ne (hw.nonneg n) (Ne.symm hn)
  constructor
  · rintro hb ⟨t, n, hin, hcur⟩
    refine ⟨t, n, hin, hcur, Or.inl (hpos n fun hv => ?_)⟩
    exact hidle _ _ ((hk c).received t n hin hb hv)
  · intro t n hin _ hr
    exact Or.inl (hpos n fun hv => hidle _ _ ((hk c).sent t n hin hr hv))

end Runs

/-- A check of `Reaches` for two threads, before a `Send` has to wait. -/
def checkReaches (k : Kernel (Fin 2)) (a : Action (Fin 2)) : Bool :=
  match a, k.currentThread with
  | .run, some t =>
      match k.code t with
      | .signal (.receivers c) :: _ =>
          (List.finRange 2).all fun u =>
            match k.code u with
            | .p (.waiter n) :: _ => (k.waiters (.receivers c)).head? == some n
            | _ => true
      | .signal (.senders _) :: _ => false
      | .sendLoop _ _ :: _ => false
      | _ => true
  | _, _ => true

theorem reaches_of_check {tr : List (Event (Fin 2))} {k : Kernel (Fin 2)} {a : Action (Fin 2)}
    (h : checkReaches k a = true) : Reaches tr k a := by
  rintro t i rest rfl ht hc
  simp only [checkReaches, ht, hc] at h
  cases i with
  | signal d =>
    cases d with
    | receivers c =>
      rintro u n ⟨cont, hu⟩
      have := List.all_eq_true.mp h u (List.mem_finRange u)
      simpa [hu] using this
    | senders c => cases h
    | user n l => trivial
  | sendLoop c m => cases h
  | _ => trivial

/-- Thread `1` waits in `Receive`; thread `0` sends `5` and signals. -/
def wokenRun : List (Action (Fin 2)) :=
  [.dispatch 1, .call (.receive 0)] ++ List.replicate 9 .run ++
    [.dispatch 0, .call (.send 0 5)] ++ List.replicate 7 .run

theorem play_wokenRun :
    (play (fun k a => if checkReaches k a = true then step k a else none) emit
      (initial false (fun _ => 0) (fun _ => 0) [0, 1]) wokenRun).map (fun r =>
      decide (r.2.buzon 0 = [5] ∧
        r.2.code 1 = [.p (.waiter 0), .acquire (.channel 0), .receiveLoop 0] ∧
        r.2.switchPoint = true)) = some true := by
  decide +kernel

theorem channel_strands_nobody_woken :
    ∃ (tr : List (Event (Fin 2))) (k : Kernel (Fin 2)),
      RunWhere Reaches (initial false (fun _ => 0) (fun _ => 0) [0, 1]) tr k ∧
        k.switchPoint = true ∧ k.buzon 0 = [5] ∧ k.InReceive 0 1 0 ∧ NobodyStranded tr k 0 := by
  obtain ⟨r, hr, hstate⟩ := Option.map_eq_some_iff.mp play_wokenRun
  obtain ⟨hb, h1, hsw⟩ := of_decide_eq_true hstate
  have hrun : RunWhere Reaches (initial false (fun _ => 0) (fun _ => 0) [0, 1]) r.1 r.2 :=
    (Run.start.play hr).of_restrict.mono fun _ _ _ h => reaches_of_check h
  exact ⟨r.1, r.2, hrun, hsw, hb, ⟨[], h1⟩, channel_strands_nobody 0 hrun hsw⟩

/-- Thread `1` receives `1`, sent by thread `0`, and receives again: it waits a second
time on the channel's receivers.  Thread `0` sends `2` and signals. -/
def strandedRun : List (Action (Fin 2)) :=
  [.dispatch 1, .call (.receive 0)] ++ List.replicate 9 .run ++
    [.dispatch 0, .call (.send 0 1)] ++ List.replicate 13 .run ++
    [.dispatch 1] ++ List.replicate 10 .run ++ [.call (.receive 0)] ++ List.replicate 9 .run ++
    [.dispatch 0] ++ List.replicate 7 .run ++ [.call (.send 0 2)] ++ List.replicate 7 .run

/-- The end of that run: the signal has gone to the semaphore of the first `Wait`. -/
theorem play_strandedRun :
    (play step emit (initial false (fun _ => 0) (fun _ => 0) [0, 1]) strandedRun).map (fun r =>
      decide (r.2.buzon 0 = [2] ∧ r.2.code 0 = [.sendHead 0] ∧
        r.2.code 1 = [.p (.waiter 2), .acquire (.channel 0), .receiveLoop 0] ∧
        r.2.value (.waiter 2) = 0 ∧ r.2.readyList.map ListElement.item = [] ∧
        r.2.currentThread = some 0 ∧ r.2.switchPoint = true)) = some true := by
  decide +kernel

theorem channel_strands_receiver :
    ∃ (tr : List (Event (Fin 2))) (k : Kernel (Fin 2)),
      Runs (initial false (fun _ => 0) (fun _ => 0) [0, 1]) tr k ∧ k.switchPoint = true ∧
        ¬ NobodyStranded tr k 0 := by
  obtain ⟨r, hr, hstate⟩ := Option.map_eq_some_iff.mp play_strandedRun
  obtain ⟨hb, h0, h1, hv, hready, hcur, hsw⟩ := of_decide_eq_true hstate
  refine ⟨r.1, r.2, Run.start.play hr, hsw, fun h => ?_⟩
  obtain ⟨t, n, ⟨rest, hin⟩, -, hpend⟩ := h.1 (by simp [hb]) ⟨1, 2, ⟨[], h1⟩, by simp [hcur]⟩
  have htwo : ∀ t : Fin 2, t = 0 ∨ t = 1 := by decide
  rcases htwo t with rfl | rfl
  · simp [h0] at hin
  · obtain ⟨rfl, -⟩ : 2 = n ∧ rest = [] := by simpa [h1, eq_comm] using hin
    simp [WakeUpPending, hv, hready] at hpend

end Kernel
end PaldOs
