import PaldOs.LockExclusion

/-! # A channel delivers once and in order

`Channel::Send` and `Channel::Receive` touch the mailbox only while they hold the
channel's lock.  To know that at each of their instructions, the code of a thread
is read as a path through the lock: `afterInstr` says how an instruction moves a
thread between being outside, past the `P`, owner, and before the `V`, and
`Follows` that a thread's whole code is such a path, from where the thread is now
back to the outside.  Every instruction keeps this, whatever it is replaced by.

With mutual exclusion the rest is bookkeeping along the run (`ChannelInv`): the
messages appended are the messages popped and then the mailbox, in order; the
`Send`s that got the lock are those that have appended, and then the one that
holds the lock and is about to; and a thread that is about to pop has seen the
mailbox non-empty while holding the lock.
-/
namespace PaldOs
namespace Kernel
variable {T : Type} [DecidableEq T]

/-! ## The lock along a thread's code -/

/-- Where a thread is with respect to a channel's lock. -/
inductive Place where
  | outside
  | entered
  | owner
  | leaving
deriving DecidableEq

/-- Where thread `t` is with respect to channel `c`'s lock. -/
def place (k : Kernel T) (c : ℕ) (t : T) : Place :=
  if (k.code t).head? = some (.setOwner (.channel c)) then .entered
  else if (k.code t).head? = some (.releaseV (.channel c)) then .leaving
  else if k.lockOwner (.channel c) = some t then .owner
  else .outside

/-- Only from place `q`, to place `q'`. -/
def goes (q q' : Place) (now : Place) : Option Place := if now = q then some q' else none

/-- Where an instruction, with all it is replaced by, takes a thread; `none` where it
cannot be executed.  An instruction about another lock is executed outside. -/
def afterInstr (c : ℕ) : Instr → Place → Option Place
  | .p _ => goes .outside .outside
  | .v _ => fun now => if now = .outside ∨ now = .owner then some now else none
  | .acquire l => goes .outside (if l = .channel c then .owner else .outside)
  | .acquireP l => goes .outside (if l = .channel c then .owner else .outside)
  | .setOwner l => if l = .channel c then goes .entered .owner else goes .outside .outside
  | .release l => if l = .channel c then goes .owner .outside else goes .outside .outside
  | .releaseV l => if l = .channel c then goes .leaving .outside else goes .outside .outside
  | .wait d => if d.lock = .channel c then goes .owner .owner else goes .outside .outside
  | .signal d => if d.lock = .channel c then goes .owner .owner else goes .outside .outside
  | .broadcast d => if d.lock = .channel c then goes .owner .owner else goes .outside .outside
  | .send _ _ => goes .outside .outside
  | .receive _ => goes .outside .outside
  | .sendAppend c' _ => if c' = c then goes .owner .outside else goes .outside .outside
  | .sendHead c' => if c' = c then goes .owner .outside else goes .outside .outside
  | .sendLoop c' _ => if c' = c then goes .owner .outside else goes .outside .outside
  | .receiveLoop c' => if c' = c then goes .owner .outside else goes .outside .outside
  | .receivePop c' => if c' = c then goes .owner .outside else goes .outside .outside

/-- The code can be executed from a place, and ends outside. -/
def Follows (c : ℕ) : Place → List Instr → Prop
  | now, [] => now = .outside
  | now, i :: rest => ∃ next, afterInstr c i now = some next ∧ Follows c next rest

theorem goes_eq_some {q q' now next : Place} :
    goes q q' now = some next ↔ now = q ∧ q' = next := by
  unfold goes
  split <;> simp [*]

@[simp] theorem follows_cons {c : ℕ} {now : Place} {i : Instr} {rest : List Instr} :
    Follows c now (i :: rest) ↔ ∃ next, afterInstr c i now = some next ∧ Follows c next rest :=
  Iff.rfl

theorem place_eq_owner {k : Kernel T} {c : ℕ} {t : T} (h : k.place c t = .owner) :
    k.lockOwner (.channel c) = some t := by
  unfold place at h
  split at h
  · cases h
  · split at h
    · cases h
    · split at h
      · assumption
      · cases h

theorem place_eq_outside {k : Kernel T} {c : ℕ} {t : T} (h : k.place c t = .outside) :
    k.lockOwner (.channel c) ≠ some t := by
  unfold place at h
  split at h
  · cases h
  · split at h
    · cases h
    · split at h
      · cases h
      · assumption

/-- Where a thread is whose next instruction is not one of the lock's own. -/
theorem place_of_head {k : Kernel T} {c : ℕ} {t : T}
    (h1 : (k.code t).head? ≠ some (.setOwner (.channel c)))
    (h2 : (k.code t).head? ≠ some (.releaseV (.channel c))) :
    k.place c t = if k.lockOwner (.channel c) = some t then .owner else .outside := by
  rw [place, if_neg h1, if_neg h2]

/-- The places of the threads, along every channel's lock. -/
def Placed (k : Kernel T) : Prop := ∀ c t, Follows c (k.place c t) (k.code t)

/-- The place of a thread after a step, from its next instruction and the owner. -/
theorem follows_of_head {k : Kernel T} {c : ℕ} {t : T} {instrs : List Instr}
    (hcode : k.code t = instrs) (h1 : instrs.head? ≠ some (.setOwner (.channel c)))
    (h2 : instrs.head? ≠ some (.releaseV (.channel c))) {q : Place}
    (hq : q = if k.lockOwner (.channel c) = some t then .owner else .outside)
    (hf : Follows c q instrs) : Follows c (k.place c t) (k.code t) := by
  rw [place_of_head (hcode ▸ h1) (hcode ▸ h2), ← hq, hcode]
  exact hf

/-- A thread whose next instruction is `i`, not one of the lock's own, is the owner or
outside. -/
theorem place_of_code {k : Kernel T} {c : ℕ} {t : T} {i : Instr} {rest : List Instr}
    (hc : k.code t = i :: rest) (hi : i.firstOnly = false) :
    k.place c t = if k.lockOwner (.channel c) = some t then .owner else .outside := by
  apply place_of_head <;> rw [hc, List.head?_cons] <;> rintro ⟨⟩ <;> cases hi

section Exec
variable {tr : List (Event T)} {k k' : Kernel T} {c : ℕ} {t : T} {i : Instr} {rest : List Instr}

/-- An instruction replaced by `instrs`, with the owner unchanged. -/
theorem follows_replace (instrs : List Instr) (hc : k.code t = i :: rest)
    (hi : i.firstOnly = false) (hcode : k'.code t = instrs)
    (howner : k'.lockOwner (.channel c) = k.lockOwner (.channel c))
    (h1 : instrs.head? ≠ some (.setOwner (.channel c)))
    (h2 : instrs.head? ≠ some (.releaseV (.channel c)))
    (hf : Follows c (k.place c t) (i :: rest))
    (hsame : ∀ now, Follows c now (i :: rest) → Follows c now instrs) :
    Follows c (k'.place c t) (k'.code t) := by
  have hp := k.place_of_code (c := c) hc hi
  exact follows_of_head hcode h1 h2 (by rw [howner, ← hp]) (hsame _ hf)

/-- A thread that goes to sleep stays where it is. -/
theorem follows_sleep (hc : k.code t = i :: rest) (hcode : k'.code = k.code)
    (howner : k'.lockOwner = k.lockOwner) (hf : Follows c (k.place c t) (i :: rest)) :
    Follows c (k'.place c t) (k'.code t) := by
  have hp : k'.place c t = k.place c t := by rw [place, place, hcode, howner]
  rw [hp, hcode, hc]
  exact hf

/-- An instruction about another lock, executed outside. -/
theorem follows_outside (instrs : List Instr) (hcode : k'.code t = instrs)
    (howner : k'.lockOwner (.channel c) = k.lockOwner (.channel c))
    (h1 : instrs.head? ≠ some (.setOwner (.channel c)))
    (h2 : instrs.head? ≠ some (.releaseV (.channel c))) (hp : k.place c t = .outside)
    (hf : Follows c .outside instrs) : Follows c (k'.place c t) (k'.code t) :=
  follows_of_head hcode h1 h2 (by rw [howner, if_neg (place_eq_outside hp)]) hf

/-- A thread that has got past the `P`. -/
theorem follows_entered (hcode : k'.code t = .setOwner (.channel c) :: rest)
    (hrest : Follows c .owner rest) : Follows c (k'.place c t) (k'.code t) := by
  rw [place, hcode, List.head?_cons, if_pos rfl]
  exact ⟨.owner, by simp [afterInstr, goes], hrest⟩

/-- **An instruction keeps its thread's path through a channel's lock.** -/
theorem follows_exec (hc : k.code t = i :: rest) (he : k.exec t rest i = some k')
    (hs : Shaped (i :: rest)) {holder : Option T} (hl : LockInv tr k (.channel c) holder)
    (hf : Follows c (k.place c t) (i :: rest)) : Follows c (k'.place c t) (k'.code t) := by
  have hr1 : rest.head? ≠ some (.setOwner (.channel c)) := hs.head_tail rfl
  have hr2 : rest.head? ≠ some (.releaseV (.channel c)) := hs.head_tail rfl
  cases i with
  | p s =>
    rw [← Option.some.inj he]
    unfold semaphoreP
    split
    · exact follows_sleep hc rfl rfl hf
    · refine follows_replace rest hc rfl (by simp) rfl hr1 hr2 hf ?_
      rintro now ⟨next, hn, hrest⟩
      obtain ⟨rfl, rfl⟩ := goes_eq_some.mp hn
      exact hrest
  | v s =>
    refine follows_replace rest hc rfl ?_ (exec_still he hs rfl).2 hr1 hr2 hf ?_
    · rw [← Option.some.inj he, semaphoreV, goOn_code, Function.update_self]
    · rintro now ⟨next, hn, hrest⟩
      simp only [afterInstr] at hn
      split at hn
      · cases hn
        exact hrest
      · cases hn
  | acquire l =>
    have howner := (exec_still (l := .channel c) he hs rfl).2
    simp only [exec] at he
    split at he
    · cases he
    · refine follows_replace (.acquireP l :: rest) hc rfl ?_ howner (by simp) (by simp) hf
        (fun now h => h)
      rw [← Option.some.inj he, goOn_code, Function.update_self]
  | acquireP l =>
    obtain ⟨next, hn, hrest⟩ := hf
    obtain ⟨hp, rfl⟩ := goes_eq_some.mp hn
    rw [← Option.some.inj he]
    unfold semaphoreP
    split
    · exact follows_sleep hc rfl rfl ⟨_, hn, hrest⟩
    · by_cases hlc : l = .channel c
      · subst hlc
        rw [if_pos rfl] at hrest
        exact follows_entered (by simp) hrest
      · rw [if_neg hlc] at hrest
        refine follows_outside (k := k) (.setOwner l :: rest) (by simp) rfl ?_ (by simp) hp ?_
        · simpa using hlc
        · exact ⟨.outside, by simp [afterInstr, goes, hlc], hrest⟩
  | setOwner l =>
    obtain ⟨next, hn, hrest⟩ := hf
    rw [← Option.some.inj he]
    by_cases hlc : l = .channel c
    · subst hlc
      rw [afterInstr, if_pos rfl] at hn
      obtain ⟨-, rfl⟩ := goes_eq_some.mp hn
      exact follows_of_head (by simp) hr1 hr2 (by simp) hrest
    · rw [afterInstr, if_neg hlc] at hn
      obtain ⟨hp, rfl⟩ := goes_eq_some.mp hn
      refine follows_outside rest (by simp) ?_ hr1 hr2 hp hrest
      exact Function.update_of_ne (Ne.symm hlc) _ _
  | release l =>
    obtain ⟨next, hn, hrest⟩ := hf
    by_cases hlc : l = .channel c
    · subst hlc
      simp only [exec] at he
      split at he
      · have hcode : k'.code t = .releaseV (.channel c) :: rest := by
          rw [← Option.some.inj he, goOn_code, Function.update_self]
        rw [afterInstr, if_pos rfl] at hn
        obtain ⟨-, rfl⟩ := goes_eq_some.mp hn
        rw [hcode, place, hcode, List.head?_cons, if_neg (by simp), if_pos rfl]
        exact ⟨.outside, by simp [afterInstr, goes], hrest⟩
      · cases he
    · have howner := (exec_still (l := .channel c) he hs (by simp [moves, hlc])).2
      rw [afterInstr, if_neg hlc] at hn
      obtain ⟨hp, rfl⟩ := goes_eq_some.mp hn
      simp only [exec] at he
      split at he
      · refine follows_outside (.releaseV l :: rest) ?_ howner (by simp) (by simpa using hlc) hp ?_
        · rw [← Option.some.inj he, goOn_code, Function.update_self]
        · exact ⟨.outside, by simp [afterInstr, goes, hlc], hrest⟩
      · cases he
  | releaseV l =>
    obtain ⟨next, hn, hrest⟩ := hf
    have hcode : k'.code t = rest := by
      rw [← Option.some.inj he, semaphoreV, goOn_code, Function.update_self]
    have howner : k'.lockOwner = k.lockOwner := by
      rw [← Option.some.inj he, semaphoreV]
      rcases wake_eq k (.lock l) with ⟨-, hw⟩ | ⟨u, q, r, -, hw, -⟩ <;> rw [hw] <;> rfl
    by_cases hlc : l = .channel c
    · subst hlc
      rw [afterInstr, if_pos rfl] at hn
      obtain ⟨-, rfl⟩ := goes_eq_some.mp hn
      refine follows_of_head hcode hr1 hr2 ?_ hrest
      rw [howner, if_neg]
      exact fun ho => (hl.owner_done t ho).2.2 (by rw [hc]; rfl)
    · rw [afterInstr, if_neg hlc] at hn
      obtain ⟨hp, rfl⟩ := goes_eq_some.mp hn
      exact follows_outside rest hcode (by rw [howner]) hr1 hr2 hp hrest
  | wait d =>
    simp only [exec] at he
    split at he
    · rw [← Option.some.inj he]
      refine follows_replace _ hc rfl (by simp; rfl) rfl (by simp) (by simp) hf ?_
      rintro now ⟨next, hn, hrest⟩
      simp only [afterInstr] at hn
      split at hn
      · rename_i hd
        obtain ⟨rfl, rfl⟩ := goes_eq_some.mp hn
        exact ⟨.outside, by simp [afterInstr, goes, hd], .outside, by simp [afterInstr, goes],
          .owner, by simp [afterInstr, goes, hd], hrest⟩
      · rename_i hd
        obtain ⟨rfl, rfl⟩ := goes_eq_some.mp hn
        exact ⟨.outside, by simp [afterInstr, goes, hd], .outside, by simp [afterInstr, goes],
          .outside, by simp [afterInstr, goes, hd], hrest⟩
    · cases he
  | signal d =>
    simp only [exec] at he
    split at he
    · split at he
      · rw [← Option.some.inj he]
        refine follows_replace rest hc rfl (by simp) rfl hr1 hr2 hf ?_
        rintro now ⟨next, hn, hrest⟩
        simp only [afterInstr] at hn
        split at hn <;> obtain ⟨rfl, rfl⟩ := goes_eq_some.mp hn <;> exact hrest
      · rw [← Option.some.inj he]
        refine follows_replace _ hc rfl (by simp; rfl) rfl (by simp) (by simp) hf ?_
        rintro now ⟨next, hn, hrest⟩
        simp only [afterInstr] at hn
        split at hn <;> obtain ⟨rfl, rfl⟩ := goes_eq_some.mp hn <;>
          exact ⟨_, by simp [afterInstr], hrest⟩
    · cases he
  | broadcast d =>
    simp only [exec] at he
    split at he
    · rw [← Option.some.inj he]
      refine follows_replace rest hc rfl (by simp) rfl hr1 hr2 hf ?_
      rintro now ⟨next, hn, hrest⟩
      simp only [afterInstr] at hn
      split at hn <;> obtain ⟨rfl, rfl⟩ := goes_eq_some.mp hn <;> exact hrest
    · rw [← Option.some.inj he]
      refine follows_replace _ hc rfl (by simp; rfl) rfl (by simp) (by simp) hf ?_
      rintro now ⟨next, hn, hrest⟩
      refine ⟨now, ?_, next, hn, hrest⟩
      simp only [afterInstr] at hn ⊢
      split at hn <;> obtain ⟨rfl, rfl⟩ := goes_eq_some.mp hn <;> simp [goes, *]
  | send c' m | receive c' =>
    rw [← Option.some.inj he]
    refine follows_replace _ hc rfl (by simp; rfl) rfl (by simp) (by simp) hf ?_
    rintro now ⟨next, hn, hrest⟩
    obtain ⟨rfl, rfl⟩ := goes_eq_some.mp hn
    refine ⟨_, by simp [afterInstr, goes]; rfl, .outside, ?_, hrest⟩
    by_cases hcc : c' = c <;> simp [afterInstr, goes, hcc]
  | sendAppend c' m | receivePop c' =>
    rw [← Option.some.inj he]
    refine follows_replace _ hc rfl (by simp; rfl) rfl (by simp) (by simp) hf ?_
    rintro now ⟨next, hn, hrest⟩
    refine ⟨now, ?_, next, ?_, hrest⟩ <;> simp only [afterInstr, CondId.lock] at hn ⊢ <;>
      by_cases hcc : c' = c <;> simp only [hcc, if_true, if_false] at hn <;>
      obtain ⟨rfl, rfl⟩ := goes_eq_some.mp hn <;> simp [goes, hcc]
  | sendHead c' =>
    simp only [exec] at he
    split at he
    · cases he
    · rename_i msg _ _
      rw [← Option.some.inj he]
      exact follows_replace (.sendLoop c' msg :: rest) hc rfl (by simp) rfl (by simp) (by simp) hf
        (fun now h => h)
  | sendLoop c' m | receiveLoop c' =>
    simp only [exec] at he
    split at he
    · rw [← Option.some.inj he]
      refine follows_replace _ hc rfl (by simp; rfl) rfl (by simp) (by simp) hf ?_
      rintro now ⟨next, hn, hrest⟩
      refine ⟨now, ?_, next, hn, hrest⟩
      simp only [afterInstr, CondId.lock] at hn ⊢
      by_cases hcc : c' = c <;> simp only [hcc, if_true, if_false] at hn <;>
        obtain ⟨rfl, rfl⟩ := goes_eq_some.mp hn <;> simp [goes, hcc]
    · rw [← Option.some.inj he]
      refine follows_replace _ hc rfl (by simp; rfl) rfl (by simp) (by simp) hf ?_
      rintro now ⟨next, hn, hrest⟩
      refine ⟨next, ?_, hrest⟩
      simp only [afterInstr] at hn ⊢
      by_cases hcc : c' = c <;> simp only [hcc, if_true, if_false] at hn <;>
        obtain ⟨rfl, rfl⟩ := goes_eq_some.mp hn <;> simp [goes, hcc]

/-- The owner of a channel's lock is not changed by the others' instructions: only the
thread inside sets or clears it. -/
theorem place_exec_of_ne {u : T} (hu : u ≠ t) (hc : k.code t = i :: rest)
    (he : k.exec t rest i = some k') (hs : Shaped (i :: rest)) {holder : Option T}
    (hl : LockInv tr k (.channel c) holder) : k'.place c u = k.place c u := by
  have hcode : k'.code u = k.code u := by
    rcases exec_becomes he with h | ⟨is, -, h⟩ <;> rw [h]
    rw [Function.update_of_ne hu]
  have howner : k'.lockOwner (.channel c) = some u ↔ k.lockOwner (.channel c) = some u := by
    cases hm : moves (.channel c) i with
    | false => rw [(exec_still he hs hm).2]
    | true =>
      cases i with
      | acquireP l =>
        rw [← Option.some.inj he]
        unfold semaphoreP
        split <;> exact Iff.rfl
      | releaseV l =>
        rw [← Option.some.inj he]
        unfold semaphoreV
        rcases wake_eq k (.lock l) with ⟨-, hw⟩ | ⟨u, q, r, -, hw, -⟩ <;> rw [hw] <;> exact Iff.rfl
      | setOwner l =>
        obtain rfl : l = .channel c := by simpa [moves] using hm
        have hin : holder = some t := (hl.inside_iff t).mp (Or.inr (Or.inl (by rw [hc]; rfl)))
        rw [← Option.some.inj he, goOn_lockOwner]
        simp only [Function.update_self]
        refine ⟨fun h => absurd (Option.some.inj h).symm hu, fun h => ?_⟩
        have hin' := (hl.inside_iff u).mp (Or.inl h)
        rw [hin] at hin'
        exact hin'
      | release l =>
        obtain rfl : l = .channel c := by simpa [moves] using hm
        simp only [exec] at he
        split at he
        · rename_i ho
          obtain ⟨p, r, hd, -⟩ := disinherit_eq
            { k with lockOwner := Function.update k.lockOwner (.channel c) none } t (.channel c)
          rw [hd] at he
          rw [← Option.some.inj he, goOn_lockOwner, ho]
          simp [Ne.symm hu]
        · cases he
      | _ => simp [moves] at hm
  simp only [place, hcode, howner]

end Exec

/-- **Every step keeps every thread's path through every channel's lock.** -/
theorem placed_step {tr : List (Event T)} {k k' : Kernel T} {a : Action T}
    (h : k.step a = some k') (hs : ∀ t, Shaped (k.code t))
    (hl : ∀ l, ∃ holder, LockInv tr k l holder) (hp : k.Placed) : k'.Placed := by
  intro c u
  obtain ⟨holder, hl⟩ := hl (.channel c)
  rcases step_cases h with ⟨d, t, rfl, -, hc, rfl⟩ | ⟨t, i, rest, rfl, -, hc, he⟩ |
    ⟨t, rfl, -, -, rfl⟩ | ⟨t, rfl, -, -, rfl⟩
  · by_cases hu : u = t
    · subst hu
      have hout : k.place c u = .outside := by simpa [hc, Follows] using hp c u
      refine follows_outside (k := k) [d.instr] (by simp) rfl ?_ ?_ hout ?_
      · cases d <;> simp [Call.instr]
      · cases d <;> simp [Call.instr]
      · cases d <;> exact ⟨.outside, rfl, rfl⟩
    · have hcode : (k.goOn t [d.instr] true).code u = k.code u := by simp [hu]
      have hplace : (k.goOn t [d.instr] true).place c u = k.place c u := by
        rw [place, place, hcode]
        rfl
      rw [hplace, hcode]
      exact hp c u
  · by_cases hu : u = t
    · subst hu
      exact follows_exec hc he (hc ▸ hs u) hl (hc ▸ hp c u)
    · have hcode : k'.code u = k.code u := by
        rcases exec_becomes he with h | ⟨is, -, h⟩ <;> rw [h]
        rw [Function.update_of_ne hu]
      rw [place_exec_of_ne hu hc he (hc ▸ hs t) hl, hcode]
      exact hp c u
  · exact hp c u
  · exact hp c u

/-! ## The order of the statements of `Send` and `Receive` -/

/-- The instructions that end with their thread owning the lock of `c`. -/
def Takes (c : ℕ) (i : Instr) : Prop :=
  i = .acquire (.channel c) ∨ i = .acquireP (.channel c) ∨ i = .setOwner (.channel c)

/-- A `sendAppend` follows the acquiring of the lock at once, the loops follow it or
their own `Wait`, and a `receivePop` or a `wait` is always the next instruction. -/
structure LedBy (i : Instr) (rest : List Instr) : Prop where
  append : ∀ c m, rest.head? = some (.sendAppend c m) → Takes c i
  receiveLoop : ∀ c, rest.head? = some (.receiveLoop c) → Takes c i ∨ i = .wait (.receivers c)
  sendLoop : ∀ c m, rest.head? = some (.sendLoop c m) → Takes c i ∨ i = .wait (.senders c)
  pop : ∀ c, rest.head? ≠ some (.receivePop c)
  wait : ∀ d, rest.head? ≠ some (.wait d)

/-- Every instruction of a thread's code follows the right one. -/
def Led : List Instr → Prop
  | [] => True
  | i :: rest => LedBy i rest ∧ Led rest

theorem ledBy_iff {i : Instr} {rest : List Instr} : LedBy i rest ↔
    (∀ c m, rest.head? = some (.sendAppend c m) → Takes c i) ∧
    (∀ c, rest.head? = some (.receiveLoop c) → Takes c i ∨ i = .wait (.receivers c)) ∧
    (∀ c m, rest.head? = some (.sendLoop c m) → Takes c i ∨ i = .wait (.senders c)) ∧
    (∀ c, rest.head? ≠ some (.receivePop c)) ∧ ∀ d, rest.head? ≠ some (.wait d) :=
  ⟨fun h => ⟨h.append, h.receiveLoop, h.sendLoop, h.pop, h.wait⟩,
    fun ⟨h1, h2, h3, h4, h5⟩ => ⟨h1, h2, h3, h4, h5⟩⟩

theorem led_becomes {i : Instr} {is rest : List Instr} (h : Led (i :: rest)) (hb : Becomes i is) :
    Led (is ++ rest) := by
  obtain ⟨⟨h1, h2, h3, h4, h5⟩, h6⟩ := h
  cases hb <;> simp_all [Led, ledBy_iff, Takes, CondId.lock] <;> grind

theorem led_step {k k' : Kernel T} {a : Action T} (h : k.step a = some k')
    (hd : ∀ t, Led (k.code t)) : ∀ t, Led (k'.code t) := by
  intro u
  rcases step_cases h with ⟨d, t, rfl, -, -, rfl⟩ | ⟨t, i, rest, rfl, -, hc, he⟩ |
    ⟨t, rfl, -, -, rfl⟩ | ⟨t, rfl, -, -, rfl⟩
  · by_cases hu : u = t
    · subst hu
      simp [Led, ledBy_iff]
    · simpa [hu] using hd u
  · rcases exec_becomes he with hcode | ⟨is, hb, hcode⟩
    · rw [hcode]
      exact hd u
    · by_cases hu : u = t
      · subst hu
        rw [hcode, Function.update_self]
        exact led_becomes (hc ▸ hd u) hb
      · rw [hcode, Function.update_of_ne hu]
        exact hd u
  · exact hd u
  · exact hd u

/-! ## The messages -/

/-- The messages of the `Send`s on `c` that got the lock, in the order they got it. -/
def entries (c : ℕ) (tr : List (Event T)) : List ℤ :=
  tr.filterMap fun
    | .entered c' _ m => if c' = c then some m else none
    | _ => none

/-- The messages appended to the mailbox of `c`. -/
def appends (c : ℕ) (tr : List (Event T)) : List ℤ :=
  tr.filterMap fun
    | .appended c' _ m => if c' = c then some m else none
    | _ => none

/-- What the pops of `Receive` on `c` stored, `none` for one from an empty mailbox. -/
def pops (c : ℕ) (tr : List (Event T)) : List (Option ℤ) :=
  tr.filterMap fun
    | .popped c' _ m => if c' = c then some m else none
    | _ => none

/-- The message that a thread has got the lock of `c` for and has still to append. -/
def pendingSend (c : ℕ) : List Instr → List ℤ
  | .setOwner _ :: .sendAppend c' m :: _ => if c' = c then [m] else []
  | .sendAppend c' m :: _ => if c' = c then [m] else []
  | _ => []

/-- The messages of channel `c` along a run. -/
structure ChannelInv (tr : List (Event T)) (k : Kernel T) (c : ℕ) : Prop where
  contents : (appends c tr).map some = pops c tr ++ (k.buzon c).map some
  sending : (entries c tr = appends c tr ∧ ∀ t, pendingSend c (k.code t) = []) ∨
    ∃ t, entries c tr = appends c tr ++ pendingSend c (k.code t) ∧
      ∀ u, u ≠ t → pendingSend c (k.code u) = []
  popping : ∀ t, (k.code t).head? = some (.receivePop c) → k.buzon c ≠ []

section Messages
variable {tr : List (Event T)} {k k' : Kernel T} {c : ℕ} {t : T} {i : Instr} {rest : List Instr}

omit [DecidableEq T] in
@[simp] theorem entries_append (tr es : List (Event T)) :
    entries c (tr ++ es) = entries c tr ++ entries c es := List.filterMap_append

omit [DecidableEq T] in
@[simp] theorem appends_append (tr es : List (Event T)) :
    appends c (tr ++ es) = appends c tr ++ appends c es := List.filterMap_append

omit [DecidableEq T] in
@[simp] theorem pops_append (tr es : List (Event T)) :
    pops c (tr ++ es) = pops c tr ++ pops c es := List.filterMap_append

/-- What an instruction does to the mailbox of `c`. -/
def buzonAfter (c : ℕ) (b : List ℤ) : Instr → List ℤ
  | .sendAppend c' m => if c' = c then b ++ [m] else b
  | .receivePop c' => if c' = c then b.tail else b
  | _ => b

theorem exec_buzon (he : k.exec t rest i = some k') :
    k'.buzon c = buzonAfter c (k.buzon c) i := by
  cases i with
  | p s | acquireP l =>
    rw [← Option.some.inj he]
    unfold semaphoreP
    split <;> rfl
  | v s | releaseV l =>
    rw [← Option.some.inj he]
    unfold semaphoreV
    rcases wake_eq k _ with ⟨-, hw⟩ | ⟨u, q, r, -, hw, -⟩ <;> rw [hw] <;> rfl
  | acquire l =>
    simp only [exec] at he
    split at he
    · cases he
    · obtain ⟨o, p, r, hi, -⟩ := k.inherit_eq t l
      rw [hi] at he
      rw [← Option.some.inj he]
      rfl
  | release l =>
    simp only [exec] at he
    split at he
    · obtain ⟨p, r, hd, -⟩ := disinherit_eq
        { k with lockOwner := Function.update k.lockOwner l none } t l
      rw [hd] at he
      rw [← Option.some.inj he]
      rfl
    · cases he
  | setOwner l | send c' m | receive c' =>
    rw [← Option.some.inj he]
    rfl
  | wait d =>
    simp only [exec] at he
    split at he
    · rw [← Option.some.inj he]
      rfl
    · cases he
  | signal d =>
    simp only [exec] at he
    split at he
    · split at he <;> rw [← Option.some.inj he] <;> rfl
    · cases he
  | broadcast d | sendLoop c' m | receiveLoop c' =>
    simp only [exec] at he
    split at he <;> rw [← Option.some.inj he] <;> rfl
  | sendHead c' =>
    simp only [exec] at he
    split at he
    · cases he
    · rw [← Option.some.inj he]
      rfl
  | sendAppend c' m | receivePop c' =>
    rw [← Option.some.inj he]
    by_cases hcc : c' = c
    · subst hcc
      simp [buzonAfter]
    · simp [buzonAfter, hcc, Ne.symm hcc]

omit [DecidableEq T] in
theorem appends_instrEvents : appends c (k.instrEvents t rest i) =
    match i with
    | .sendAppend c' m => if c' = c then [m] else []
    | _ => [] := by
  cases i with
  | acquireP l =>
    simp only [instrEvents]
    split
    · rfl
    · split <;> rfl
  | sendAppend c' m => by_cases hcc : c' = c <;> simp [appends, instrEvents, hcc]
  | _ => rfl

omit [DecidableEq T] in
theorem pops_instrEvents : pops c (k.instrEvents t rest i) =
    match i with
    | .receivePop c' => if c' = c then [(k.buzon c).head?] else []
    | _ => [] := by
  cases i with
  | acquireP l =>
    simp only [instrEvents]
    split
    · rfl
    · split <;> rfl
  | receivePop c' => by_cases hcc : c' = c <;> simp [pops, instrEvents, hcc]
  | _ => rfl

omit [DecidableEq T] in
/-- The pending message of a thread that gets past the `P`. -/
theorem entries_instrEvents : entries c (k.instrEvents t rest i) =
    match i with
    | .acquireP l =>
        if k.value (.lock l) = 0 then [] else pendingSend c (.setOwner l :: rest)
    | _ => [] := by
  cases i with
  | acquireP l =>
    simp only [instrEvents]
    split
    · rfl
    · split
      · rename_i c' m rest'
        by_cases hcc : c' = c <;> simp [entries, pendingSend, hcc]
      · rename_i hno
        unfold pendingSend
        split
        · rename_i h
          simp only [List.cons.injEq] at h
          exact absurd h.2 (hno _ _ _)
        · rename_i h
          simp at h
        · rfl
  | _ => rfl

/-- A thread with a message to append is inside the channel's lock. -/
theorem inside_of_pendingSend (hp : k.Placed) (hd : Led (k.code t))
    (h : pendingSend c (k.code t) ≠ []) : k.Inside (.channel c) t := by
  have hf := hp c t
  unfold pendingSend at h
  split at h
  · rename_i l c' m rest hc
    obtain rfl : c' = c := by by_contra hcc; simp [hcc] at h
    rw [hc] at hd
    obtain rfl : l = .channel c' := by simpa [Takes] using hd.1.append c' m rfl
    exact Or.inr (Or.inl (by rw [hc]; rfl))
  · rename_i c' m rest hc
    obtain rfl : c' = c := by by_contra hcc; simp [hcc] at h
    rw [hc] at hf
    obtain ⟨next, hn, -⟩ := hf
    rw [afterInstr, if_pos rfl] at hn
    exact Or.inl (place_eq_owner (goes_eq_some.mp hn).1)
  · exact absurd rfl h

/-- A thread about to pop owns the channel's lock. -/
theorem owner_of_receivePop (hp : k.Placed) (h : (k.code t).head? = some (.receivePop c)) :
    k.lockOwner (.channel c) = some t := by
  have hf := hp c t
  cases hc : k.code t with
  | nil => simp [hc] at h
  | cons i rest =>
    obtain rfl : i = .receivePop c := by simpa [hc] using h
    rw [hc] at hf
    obtain ⟨next, hn, -⟩ := hf
    rw [afterInstr, if_pos rfl] at hn
    exact place_eq_owner (goes_eq_some.mp hn).1

/-- `Led` and `Shaped` say that what follows an instruction, if it is not the end of an
`Acquire`, is not an append. -/
theorem pendingSend_rest (hs : Shaped (i :: rest)) (hd : Led (i :: rest))
    (hi : ∀ l, i ≠ .acquire l ∧ i ≠ .acquireP l ∧ i ≠ .setOwner l) : pendingSend c rest = [] := by
  unfold pendingSend
  split
  · exact absurd rfl (hs.head_tail (j := .setOwner _) rfl)
  · rename_i c' m _
    rcases hd.1.append c' m rfl with rfl | rfl | rfl
    · exact absurd rfl (hi _).1
    · exact absurd rfl (hi _).2.1
    · exact absurd rfl (hi _).2.2
  · rfl

/-- **What an instruction does to its thread's pending message**: a message gets
pending with the lock and stops being so with the append. -/
theorem pendingSend_exec (hc : k.code t = i :: rest) (he : k.exec t rest i = some k')
    (hs : Shaped (i :: rest)) (hd : Led (i :: rest)) :
    pendingSend c (k.code t) ++ entries c (k.instrEvents t rest i) =
      appends c (k.instrEvents t rest i) ++ pendingSend c (k'.code t) := by
  rw [entries_instrEvents, appends_instrEvents, hc]
  cases i with
  | acquireP l =>
    rw [← Option.some.inj he, semaphoreP]
    by_cases hv : k.value (.lock l) = 0
    · simp only [if_pos hv, hc]
      rfl
    · simp only [if_neg hv, goOn_code, Function.update_self]
      rfl
  | setOwner l =>
    rw [← Option.some.inj he]
    simp only [goOn_code, Function.update_self, List.append_nil, List.nil_append]
    cases rest with
    | nil => rfl
    | cons j rest =>
      cases j with
      | setOwner l' => exact absurd rfl (hs.head_tail (j := .setOwner l') rfl)
      | _ => rfl
  | sendAppend c' m =>
    rw [← Option.some.inj he]
    simp [pendingSend]
  | acquire l =>
    rcases exec_becomes he with hcode | ⟨is, hb, hcode⟩
    · rw [hcode, hc]
      rfl
    · cases hb
      rw [hcode, Function.update_self]
      rfl
  | _ =>
    have hrest : pendingSend c rest = [] := pendingSend_rest hs hd (by simp)
    rcases exec_becomes he with hcode | ⟨is, hb, hcode⟩
    · rw [hcode, hc]
      rfl
    · rw [hcode, Function.update_self]
      cases hb <;> first | rfl | exact hrest.symm

/-- What an instruction does to the contents: an append adds at the end, a pop of a
mailbox that is not empty takes from the front. -/
theorem buzon_exec (hc : k.code t = i :: rest) (he : k.exec t rest i = some k')
    (hpop : (k.code t).head? = some (.receivePop c) → k.buzon c ≠ []) :
    (k.buzon c).map some ++ (appends c (k.instrEvents t rest i)).map some =
      pops c (k.instrEvents t rest i) ++ (k'.buzon c).map some := by
  rw [appends_instrEvents, pops_instrEvents, exec_buzon he]
  cases i with
  | sendAppend c' m => by_cases hcc : c' = c <;> simp [buzonAfter, hcc]
  | receivePop c' =>
    by_cases hcc : c' = c
    · subst hcc
      obtain ⟨m, b, hb⟩ := List.exists_cons_of_ne_nil (hpop (by rw [hc]; rfl))
      simp [buzonAfter, hb]
    · simp [buzonAfter, hcc]
  | _ => simp [buzonAfter]

/-- **An instruction keeps the invariant of every channel.** -/
theorem ChannelInv.exec (h : ChannelInv tr k c) (hc : k.code t = i :: rest)
    (he : k.exec t rest i = some k') (hs : Shaped (i :: rest)) (hd : ∀ u, Led (k.code u))
    (hp : k.Placed) {holder : Option T} (hl : LockInv tr k (.channel c) holder) :
    ChannelInv (tr ++ k.instrEvents t rest i) k' c := by
  have hdt : Led (i :: rest) := hc ▸ hd t
  have hcode : ∀ u, u ≠ t → k'.code u = k.code u := by
    intro u hu
    rcases exec_becomes he with h | ⟨is, -, h⟩ <;> rw [h]
    rw [Function.update_of_ne hu]
  have hpend := pendingSend_exec (c := c) hc he hs hdt
  have halone : entries c tr = appends c tr ++ pendingSend c (k.code t) →
      (∀ u, u ≠ t → pendingSend c (k.code u) = []) →
      entries c (tr ++ k.instrEvents t rest i) =
          appends c (tr ++ k.instrEvents t rest i) ++ pendingSend c (k'.code t) ∧
        ∀ u, u ≠ t → pendingSend c (k'.code u) = [] := by
    intro hsend hother
    refine ⟨?_, fun u hu => by rw [hcode u hu, hother u hu]⟩
    rw [entries_append, appends_append, hsend, List.append_assoc, hpend, List.append_assoc]
  refine ⟨?_, ?_, fun u hu => ?_⟩
  · rw [appends_append, pops_append, List.map_append, h.contents, List.append_assoc,
      buzon_exec hc he (h.popping t), List.append_assoc]
  · rcases h.sending with ⟨hsend, hnone⟩ | ⟨w, hsend, hother⟩
    · right
      refine ⟨t, halone ?_ (fun u _ => hnone u)⟩
      rw [hnone t, List.append_nil, hsend]
    · by_cases hwt : w = t
      · subst hwt
        exact Or.inr ⟨w, halone hsend hother⟩
      · by_cases hw : pendingSend c (k.code w) = []
        · right
          refine ⟨t, halone ?_ fun u _ => ?_⟩
          · rw [hother t (Ne.symm hwt), hsend, hw]
          · by_cases huw : u = w
            · rw [huw, hw]
            · exact hother u huw
        · -- `w` is inside the lock, so `t` neither gets it nor appends
          have hin : holder = some w := (hl.inside_iff w).mp (inside_of_pendingSend hp (hd w) hw)
          have hentry : entries c (k.instrEvents t rest i) = [] := by
            rw [entries_instrEvents]
            cases i with
            | acquireP l =>
              by_contra hne
              have hpl : pendingSend c (.setOwner l :: rest) ≠ [] := by
                intro hnil
                simp [hnil] at hne
              cases rest with
              | nil => exact hpl rfl
              | cons j rest =>
                cases j with
                | sendAppend c' m =>
                  obtain rfl : c' = c := by by_contra hcc; simp [pendingSend, hcc] at hpl
                  obtain rfl : l = .channel c' := by simpa [Takes] using hdt.1.append c' m rfl
                  have hv := hl.value_eq
                  rw [hin, if_neg (by simp)] at hv
                  simp [hv] at hne
                | _ => exact hpl rfl
            | _ => rfl
          rw [hother t (Ne.symm hwt), hentry, List.append_nil] at hpend
          obtain ⟨happ, hnew⟩ := List.append_eq_nil_iff.mp hpend.symm
          right
          refine ⟨w, ?_, fun u huw => ?_⟩
          · rw [entries_append, appends_append, hentry, happ, List.append_nil, List.append_nil,
              hcode w hwt, hsend]
          · by_cases hut : u = t
            · rw [hut, hnew]
            · rw [hcode u hut, hother u huw]
  · by_cases hut : u = t
    · subst hut
      rcases exec_becomes he with hsame | ⟨is, hb, hnew⟩
      · rw [hsame, hc, List.head?_cons, Option.some.injEq] at hu
        subst hu
        rw [← Option.some.inj he] at hsame
        have := congrFun hsame u
        simp [hc] at this
      · rw [hnew, Function.update_self] at hu
        have hrest := hdt.1.pop c
        rw [exec_buzon he]
        cases hb with
        | receiveDone c' =>
          obtain rfl : c' = c := by simpa using hu
          intro hempty
          simp only [Kernel.exec] at he
          split at he
          · rw [← Option.some.inj he] at hnew
            have := congrFun hnew u
            simp at this
          · rename_i hne
            exact hne hempty
        | _ => simp_all
    · rw [hcode u hut] at hu
      have hb := h.popping u hu
      rw [exec_buzon he]
      cases i with
      | sendAppend c' m => by_cases hcc : c' = c <;> simp [buzonAfter, hcc, hb]
      | receivePop c' =>
        by_cases hcc : c' = c
        · subst hcc
          have h1 := owner_of_receivePop hp hu
          have h2 := owner_of_receivePop (t := t) hp (by rw [hc]; rfl)
          rw [h1, Option.some.injEq] at h2
          exact absurd h2 hut
        · simpa [buzonAfter, hcc] using hb
      | _ => exact hb

end Messages

/-! ## Runs -/

/-- What holds along every run, whatever the threads do. -/
structure Sound (tr : List (Event T)) (k : Kernel T) : Prop where
  shaped : ∀ t, Shaped (k.code t)
  lock : ∀ l, ∃ holder, LockInv tr k l holder
  placed : k.Placed
  led : ∀ t, Led (k.code t)
  channel : ∀ c, ChannelInv tr k c

theorem channelInv_step {tr : List (Event T)} {k k' : Kernel T} {a : Action T}
    (h : k.step a = some k') (hi : Sound tr k) (c : ℕ) : ChannelInv (tr ++ k.emit a) k' c := by
  have hcinv := hi.channel c
  rcases step_cases h with ⟨d, t, rfl, -, hc, rfl⟩ | ⟨t, i, rest, rfl, ht, hc, he⟩ |
    ⟨t, rfl, -, -, rfl⟩ | ⟨t, rfl, -, -, rfl⟩
  · have hpend : ∀ u, pendingSend c ((k.goOn t [d.instr] true).code u) =
        pendingSend c (k.code u) := by
      intro u
      by_cases hu : u = t
      · subst hu
        rw [goOn_code, Function.update_self, hc]
        cases d <;> rfl
      · rw [goOn_code, Function.update_of_ne hu]
    simp only [emit, List.append_nil]
    refine ⟨hcinv.contents, ?_, fun u hu => hcinv.popping u ?_⟩
    · simpa only [hpend] using hcinv.sending
    · by_cases hut : u = t
      · subst hut
        rw [goOn_code, Function.update_self] at hu
        cases d <;> simp [Call.instr] at hu
      · simpa [hut] using hu
  · have hemit : k.emit .run = k.instrEvents t rest i := by simp only [emit, ht, hc]
    obtain ⟨holder, hl⟩ := hi.lock (.channel c)
    rw [hemit]
    exact hcinv.exec hc he (hc ▸ hi.shaped t) hi.led hi.placed hl
  · simp only [emit, List.append_nil]
    exact ⟨hcinv.contents, hcinv.sending, hcinv.popping⟩
  · simp only [emit, List.append_nil]
    exact ⟨hcinv.contents, hcinv.sending, hcinv.popping⟩

theorem Sound.step {tr : List (Event T)} {k k' : Kernel T} {a : Action T}
    (h : k.step a = some k') (hi : Sound tr k) : Sound (tr ++ k.emit a) k' where
  shaped := shaped_step h hi.shaped
  lock l := (hi.lock l).elim fun _ hl => lockInv_step h hi.shaped hl
  placed := placed_step h hi.shaped hi.lock hi.placed
  led := led_step h hi.led
  channel := channelInv_step h hi

theorem sound_initial (multilevel : Bool) (value : ℕ → ℤ) (priority : T → ℕ) (ready : List T) :
    Sound [] (initial multilevel value priority ready) where
  shaped t := ⟨by simp [initial], by simp [initial]⟩
  lock l := ⟨none, lockInv_initial multilevel value priority ready l⟩
  placed c t := rfl
  led t := trivial
  channel c := ⟨rfl, Or.inl ⟨rfl, fun _ => rfl⟩, by simp [initial]⟩

section Runs
variable {multilevel : Bool} {value : ℕ → ℤ} {priority : T → ℕ} {ready : List T}
  {tr : List (Event T)} {k : Kernel T}

theorem Runs.sound (h : Runs (initial multilevel value priority ready) tr k) : Sound tr k :=
  Run.invariant (sound_initial multilevel value priority ready)
    (fun _ _ _ _ hi _ hstep => hi.step hstep) h

/-- **A channel delivers exactly once, in order.**  In every run, what the pops of
`Receive` stored is a prefix of the messages of the `Send`s in the order in which
they got the channel's lock, so that no pop found the mailbox empty; the messages
appended are, in that order, all those but perhaps the last; and the mailbox holds
exactly the ones appended and not yet popped. -/
theorem channel_delivers_in_order (c : ℕ)
    (h : Runs (initial multilevel value priority ready) tr k) :
    pops c tr <+: (entries c tr).map some ∧ none ∉ pops c tr ∧
      appends c tr <+: entries c tr ∧
      (appends c tr).map some = pops c tr ++ (k.buzon c).map some := by
  have hi := h.sound.channel c
  have happ : appends c tr <+: entries c tr := by
    rcases hi.sending with ⟨hs, -⟩ | ⟨t, hs, -⟩
    · rw [hs]
    · exact ⟨_, hs.symm⟩
  have hpop : pops c tr <+: (appends c tr).map some := ⟨_, hi.contents.symm⟩
  refine ⟨hpop.trans (happ.map some), fun hnone => ?_, happ, hi.contents⟩
  simpa using hpop.subset hnone

end Runs

/-- Thread `0` sends `5` and thread `2` sends `6`, both wait; thread `1` receives twice. -/
def deliveredRun : List (Action ℕ) :=
  .dispatch 0 :: .call (.send 0 5) :: List.replicate 12 .run ++
    .dispatch 2 :: .call (.send 0 6) :: List.replicate 12 .run ++
    .dispatch 1 :: .call (.receive 0) :: List.replicate 10 .run ++
    .call (.receive 0) :: List.replicate 6 .run

theorem play_deliveredRun :
    (play step emit (initial false (fun _ => 0) (fun _ => 0) [0, 1, 2]) deliveredRun).map
      (fun r => decide (pops 0 r.1 = [some 5, some 6] ∧ entries 0 r.1 = [5, 6])) = some true := by
  decide +kernel

theorem channel_delivers_in_order_twice :
    ∃ tr k, Runs (initial false (fun _ => 0) (fun _ => 0) [0, 1, 2]) tr k ∧
      pops 0 tr = [some 5, some 6] ∧ entries 0 tr = [5, 6] ∧
      pops 0 tr <+: (entries 0 tr).map some ∧ none ∉ pops 0 tr ∧ appends 0 tr <+: entries 0 tr ∧
      (appends 0 tr).map some = pops 0 tr ++ (k.buzon 0).map some := by
  obtain ⟨r, hr, hlast⟩ := Option.map_eq_some_iff.mp play_deliveredRun
  obtain ⟨hpops, hentries⟩ := of_decide_eq_true hlast
  have hrun : Runs (initial false (fun _ => 0) (fun _ => 0) [0, 1, 2]) r.1 r.2 :=
    Run.start.play hr
  exact ⟨r.1, r.2, hrun, hpops, hentries, channel_delivers_in_order 0 hrun⟩

end Kernel
end PaldOs
