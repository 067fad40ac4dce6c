import PaldOs.LinkedList
import PaldOs.Runs

/-! # Pending interrupts and the tick counter

`machine/interrupt.cc` keeps the pending interrupts on a sorted list, each with the
tick it is to occur at.  The tick counter is an `unsigned long`, of 32 or 64 bits as
the host has it; a tick of the list is an `unsigned`; and the sort key of the list is
an `int`, so that the ticks from 2 ^ 31 on are negative keys and go **before** the
ticks below it.  With `DFS_TICKS_FIX`, `Schedule` calls `RestartTicks` when the tick
it needs is above `UINT_MAX`: the counter goes back to zero and is subtracted from
every pending tick, also from those that are already in the past.

`TimeOrdered` is what the list is for.  It fails in the runs above; `interrupts_timeOrdered`
shows that it fails in no other way: as long as the ticks on the list stay in the same
half of the range as the one that is scheduled, and nothing on the list is in the past
when the counter is restarted, it holds in every state, whatever is scheduled, checked
and fired in the meantime.
-/
namespace PaldOs

/-- `IntType`. -/
inductive IntType where
  | timer
  | disk
  | consoleWrite
  | consoleRead
  | networkSend
  | networkRecv
deriving DecidableEq

/-- `MachineStatus`. -/
inductive MachineStatus where
  | idle
  | system
  | user
deriving DecidableEq

/-- A `PendingInterrupt`: its handler with the argument, by a number, and its type. -/
structure PendingInterrupt where
  handler : ℕ
  type : IntType
deriving DecidableEq

/-- The hosts of `Makefile.env`. -/
inductive Host where
  | i386
  | x86_64

/-- One more than `ULONG_MAX`. -/
def Host.longModulus : Host → ℕ
  | .i386 => 2 ^ 32
  | .x86_64 => 2 ^ 64

/-- An `unsigned` as an `int`. -/
def toInt (n : ℕ) : ℤ := if n < 2 ^ 31 then n else n - 2 ^ 32

/-- An `int` as an `unsigned`. -/
def ofInt (k : ℤ) : ℕ := (k % 2 ^ 32).toNat

/-- `Interrupt`, with the tick counter. -/
structure Interrupt where
  totalTicks : ℕ
  pending : List (ListElement PendingInterrupt)
  status : MachineStatus

namespace Interrupt

/-- `SYSTEM_TICK` in the kernel, else `USER_TICK`. -/
def tickOf : MachineStatus → ℕ
  | .system => 10
  | _ => 1

/-- The advance of the simulated time in `OneTick`. -/
def oneTick (host : Host) (s : Interrupt) : Interrupt :=
  { s with totalTicks := (s.totalTicks + tickOf s.status) % host.longModulus }

/-- `RestartTicks`. -/
def restartTicks (host : Host) (s : Interrupt) : Interrupt :=
  { s with
    pending := s.pending.foldl (fun new e =>
      LinkedList.sortedInsert e.item
        (toInt ((ofInt e.key + host.longModulus - s.totalTicks) % host.longModulus % 2 ^ 32))
        new) []
    totalTicks := 0 }

/-- The test of `Schedule`: the tick needed is above `UINT_MAX`. -/
def restarts (host : Host) (s : Interrupt) (fromNow : ℕ) : Prop :=
  (2 ^ 32 - 1 + host.longModulus - s.totalTicks) % host.longModulus < fromNow

instance (host : Host) (s : Interrupt) (fromNow : ℕ) : Decidable (s.restarts host fromNow) :=
  inferInstanceAs (Decidable (_ < _))

/-- The insertion of `Schedule`. -/
def enter (host : Host) (s : Interrupt) (i : PendingInterrupt) (fromNow : ℕ) : Interrupt :=
  { s with
    pending := LinkedList.sortedInsert i
      (toInt ((s.totalTicks + fromNow) % host.longModulus % 2 ^ 32)) s.pending }

/-- `Schedule`, with `DFS_TICKS_FIX`. -/
def schedule (host : Host) (s : Interrupt) (i : PendingInterrupt) (fromNow : ℕ) : Interrupt :=
  if s.restarts host fromNow then (s.restartTicks host).enter host i fromNow
  else s.enter host i fromNow

/-- The end of `CheckIfDue`: the interrupt taken from the list is fired, unless it is the
timer, nothing else is pending and the machine is idle. -/
def fire (s : Interrupt) (toOccur : ListElement PendingInterrupt)
    (rest : List (ListElement PendingInterrupt)) : Option PendingInterrupt × Interrupt :=
  if s.status = .idle ∧ toOccur.item.type = .timer ∧ rest = [] then
    (none, { s with
      pending := LinkedList.sortedInsert toOccur.item (toInt (ofInt toOccur.key)) rest })
  else (some toOccur.item, { s with pending := rest })

/-- `CheckIfDue`: the interrupt fired, if any, and what is left.  The handler runs after
this, and may call `schedule`. -/
def checkIfDue (s : Interrupt) (advanceClock : Bool) : Option PendingInterrupt × Interrupt :=
  match LinkedList.sortedPop s.pending with
  | (none, _) => (none, s)
  | (some toOccur, rest) =>
      let when := ofInt toOccur.key
      if advanceClock = true ∧ s.totalTicks < when then
        fire { s with totalTicks := when } toOccur rest
      else if s.totalTicks < when then
        (none, { s with pending := LinkedList.sortedInsert toOccur.item (toInt when) rest })
      else fire s toOccur rest

/-! ## The machine -/

/-- What can happen next. -/
inductive Action where
  /-- A device, or a handler, schedules an interrupt. -/
  | schedule (i : PendingInterrupt) (fromNow : ℕ)
  | oneTick
  | checkIfDue (advanceClock : Bool)
  /-- The machine goes from one mode to another. -/
  | setStatus (st : MachineStatus)

/-- **One step**; `none` where `Schedule` fails its assertion or its argument is not an
`unsigned long`. -/
def step (host : Host) (s : Interrupt) : Action → Option Interrupt
  | .schedule i fromNow =>
      if 0 < fromNow ∧ fromNow < host.longModulus then some (s.schedule host i fromNow) else none
  | .oneTick => some (s.oneTick host)
  | .checkIfDue advanceClock => some (s.checkIfDue advanceClock).2
  | .setStatus st => some { s with status := st }

/-- The start. -/
def initial : Interrupt where
  totalTicks := 0
  pending := []
  status := .system

/-- The ticks until a pending interrupt is due, none if it is. -/
def remaining (s : Interrupt) (e : ListElement PendingInterrupt) : ℕ :=
  ofInt e.key - s.totalTicks

/-- The pending interrupts with the ticks that remain of each. -/
def remainingTimes (s : Interrupt) : List (PendingInterrupt × ℕ) :=
  s.pending.map fun e => (e.item, s.remaining e)

/-- What is recorded of a run: an interrupt fired; what remained of each pending one
before and after a `RestartTicks`. -/
inductive Event where
  | fired (i : PendingInterrupt)
  | restarted (before after : List (PendingInterrupt × ℕ))

/-- The events of an action. -/
def emit (host : Host) (s : Interrupt) : Action → List Event
  | .schedule _ fromNow =>
      if s.restarts host fromNow then
        [.restarted s.remainingTimes (s.restartTicks host).remainingTimes]
      else []
  | .checkIfDue advanceClock => ((s.checkIfDue advanceClock).1.map Event.fired).toList
  | _ => []

/-- The runs. -/
def Runs (host : Host) : List Event → Interrupt → Prop :=
  Run (step host) (emit host) (fun _ _ _ => True) initial

/-! ## What the list is for -/

/-- The timer is all there is to wait for. -/
def LoneTimer (s : Interrupt) : Prop :=
  s.status = .idle ∧ ∃ e, s.pending = [e] ∧ e.item.type = .timer

/-- **Interrupts fire in time order**: the pending ones are in the order of what remains of
each; `RestartTicks` has kept what remained; and `CheckIfDue` fires one if any is due. -/
structure TimeOrdered (tr : List Event) (s : Interrupt) : Prop where
  sorted : s.pending.Pairwise fun a b => s.remaining a ≤ s.remaining b
  kept : ∀ before after, .restarted before after ∈ tr → before.Perm after
  fires : (∃ e ∈ s.pending, ofInt e.key ≤ s.totalTicks) → ¬ s.LoneTimer →
    (s.checkIfDue false).1.isSome = true

/-- Two ticks are in the same half of the range. -/
def SameHalf (m n : ℕ) : Prop := m < 2 ^ 31 ↔ n < 2 ^ 31

instance (m n : ℕ) : Decidable (SameHalf m n) := inferInstanceAs (Decidable (_ ↔ _))

/-- **The steps that keep the order**: an interrupt is scheduled in the half of the range
where all the pending ones are; before a `RestartTicks` none of these is in the past, and
it is what remains of them that has to be in one half with the new one. -/
def InReach (host : Host) (s : Interrupt) : Action → Prop
  | .schedule _ fromNow =>
      if s.restarts host fromNow then
        ∀ e ∈ s.pending, s.totalTicks ≤ ofInt e.key ∧
          SameHalf (ofInt e.key - s.totalTicks) (fromNow % 2 ^ 32)
      else ∀ e ∈ s.pending, SameHalf (ofInt e.key) ((s.totalTicks + fromNow) % 2 ^ 32)
  | _ => True

instance (host : Host) (s : Interrupt) (a : Action) : Decidable (s.InReach host a) :=
  match a with
  | .schedule _ fromNow =>
      inferInstanceAs (Decidable (if s.restarts host fromNow then _ else _))
  | .oneTick | .checkIfDue _ | .setStatus _ => inferInstanceAs (Decidable True)

/-! ## Ticks and sort keys -/

theorem ofInt_lt (k : ℤ) : ofInt k < 2 ^ 32 := by
  unfold ofInt
  omega

theorem ofInt_toInt {n : ℕ} (h : n < 2 ^ 32) : ofInt (toInt n) = n := by
  unfold ofInt toInt
  split <;> omega

theorem toInt_nonneg {n : ℕ} (h : n < 2 ^ 32) : 0 ≤ toInt n ↔ n < 2 ^ 31 := by
  unfold toInt
  split <;> omega

/-- A sort key is that of an `int`. -/
def Fits (k : ℤ) : Prop := -2 ^ 31 ≤ k ∧ k < 2 ^ 31

theorem fits_toInt {n : ℕ} (h : n < 2 ^ 32) : Fits (toInt n) := by
  unfold Fits toInt
  split <;> omega

theorem toInt_ofInt {k : ℤ} (h : Fits k) : toInt (ofInt k) = k := by
  obtain ⟨hlow, hhigh⟩ := h
  unfold toInt ofInt
  split <;> omega

/-- Keys in one half are in the order of their ticks. -/
theorem ofInt_le_ofInt {k k' : ℤ} (hk : Fits k) (hk' : Fits k') (hle : k ≤ k')
    (hhalf : 0 ≤ k ↔ 0 ≤ k') : ofInt k ≤ ofInt k' := by
  obtain ⟨hlow, hhigh⟩ := hk
  obtain ⟨hlow', hhigh'⟩ := hk'
  unfold ofInt
  omega

/-! ## The invariant -/

/-- The keys of the list are `int`s, all in one half of the range, and not decreasing. -/
structure Sorted (l : List (ListElement PendingInterrupt)) : Prop where
  fits : ∀ e ∈ l, Fits e.key
  half : ∀ a ∈ l, ∀ b ∈ l, 0 ≤ a.key ↔ 0 ≤ b.key
  keys : l.Pairwise fun a b => a.key ≤ b.key

theorem Sorted.nil : Sorted [] := ⟨nofun, nofun, List.Pairwise.nil⟩

theorem Sorted.tail {e : ListElement PendingInterrupt} {l : List (ListElement PendingInterrupt)}
    (h : Sorted (e :: l)) : Sorted l :=
  ⟨fun a ha => h.fits a (List.mem_cons_of_mem _ ha),
    fun a ha b hb => h.half a (List.mem_cons_of_mem _ ha) b (List.mem_cons_of_mem _ hb),
    (List.pairwise_cons.mp h.keys).2⟩

/-- A tick in the same half as those of the list is inserted. -/
theorem Sorted.insert {l : List (ListElement PendingInterrupt)} (h : Sorted l)
    (i : PendingInterrupt) {n : ℕ} (hn : n < 2 ^ 32)
    (hhalf : ∀ e ∈ l, SameHalf (ofInt e.key) n) :
    Sorted (LinkedList.sortedInsert i (toInt n) l) := by
  have hsame : ∀ e ∈ l, 0 ≤ e.key ↔ 0 ≤ toInt n := by
    intro e he
    have hnew : ofInt e.key < 2 ^ 31 ↔ n < 2 ^ 31 := hhalf e he
    rw [toInt_nonneg hn, ← hnew, ← toInt_nonneg (ofInt_lt _), toInt_ofInt (h.fits e he)]
  have hiff : ∀ e ∈ LinkedList.sortedInsert i (toInt n) l, 0 ≤ e.key ↔ 0 ≤ toInt n :=
    LinkedList.forall_sortedInsert Iff.rfl hsame
  refine ⟨LinkedList.forall_sortedInsert (fits_toInt hn) h.fits, fun a ha b hb => ?_,
    LinkedList.sortedInsert_sorted h.keys⟩
  rw [hiff a ha, hiff b hb]

/-- The interrupt just taken from the list is put back. -/
theorem Sorted.putBack {e : ListElement PendingInterrupt}
    {l : List (ListElement PendingInterrupt)} (h : Sorted (e :: l)) :
    Sorted (LinkedList.sortedInsert e.item (toInt (ofInt e.key)) l) := by
  refine h.tail.insert e.item (ofInt_lt _) fun a ha => ?_
  have hiff := h.half a (List.mem_cons_of_mem _ ha) e List.mem_cons_self
  rw [← toInt_ofInt (h.fits a (List.mem_cons_of_mem _ ha)),
    ← toInt_ofInt (h.fits e List.mem_cons_self), toInt_nonneg (ofInt_lt _),
    toInt_nonneg (ofInt_lt _)] at hiff
  exact hiff

/-- The ticks of the list do not decrease. -/
theorem Sorted.ticks {l : List (ListElement PendingInterrupt)} (h : Sorted l) :
    l.Pairwise fun a b => ofInt a.key ≤ ofInt b.key := by
  refine h.keys.imp_of_mem fun {a b} ha hb hle => ?_
  exact ofInt_le_ofInt (h.fits a ha) (h.fits b hb) hle (h.half a ha b hb)

theorem fire_sorted {s : Interrupt} {e : ListElement PendingInterrupt}
    {rest : List (ListElement PendingInterrupt)} (h : Sorted (e :: rest)) :
    Sorted (s.fire e rest).2.pending := by
  unfold fire
  split
  · exact h.putBack
  · exact h.tail

theorem checkIfDue_sorted {s : Interrupt} (h : Sorted s.pending) (advanceClock : Bool) :
    Sorted (s.checkIfDue advanceClock).2.pending := by
  unfold checkIfDue
  cases hp : s.pending with
  | nil =>
    simp only [LinkedList.sortedPop]
    exact h
  | cons e rest =>
    rw [hp] at h
    simp only [LinkedList.sortedPop]
    split
    · exact fire_sorted h
    · split
      · exact h.putBack
      · exact fire_sorted h

/-- **`CheckIfDue` fires whenever an interrupt is due.** -/
theorem checkIfDue_fires {s : Interrupt} (h : Sorted s.pending)
    (hdue : ∃ e ∈ s.pending, ofInt e.key ≤ s.totalTicks) (hlone : ¬ s.LoneTimer) :
    (s.checkIfDue false).1.isSome = true := by
  obtain ⟨a, ha, hdue⟩ := hdue
  unfold checkIfDue
  cases hp : s.pending with
  | nil =>
    rw [hp] at ha
    cases ha
  | cons e rest =>
    -- the first is due, having no later tick than the one that is
    have hfirst : ofInt e.key ≤ s.totalTicks := by
      have hticks := h.ticks
      rw [hp] at hticks ha
      rcases List.mem_cons.mp ha with rfl | ha
      · exact hdue
      · exact Nat.le_trans ((List.pairwise_cons.mp hticks).1 a ha) hdue
    simp only [LinkedList.sortedPop, Bool.false_eq_true, false_and, if_false]
    rw [if_neg (Nat.not_lt.mpr hfirst), fire]
    split
    · rename_i hquit
      obtain ⟨hidle, htimer, rfl⟩ := hquit
      exact absurd ⟨hidle, e, hp, htimer⟩ hlone
    · rfl

/-! ## Restarting the ticks -/

/-- The tick of an interrupt that is not in the past, after a restart. -/
theorem restarted_tick (host : Host) {now tick : ℕ} (htick : tick < 2 ^ 32) (hle : now ≤ tick) :
    (tick + host.longModulus - now) % host.longModulus % 2 ^ 32 = tick - now := by
  have hlong : 2 ^ 32 ≤ host.longModulus := by
    cases host <;> decide
  have hsub : tick + host.longModulus - now = tick - now + host.longModulus := by omega
  have hlt : tick - now < 2 ^ 32 := by omega
  rw [hsub, Nat.add_mod_right, Nat.mod_eq_of_lt (Nat.lt_of_lt_of_le hlt hlong),
    Nat.mod_eq_of_lt hlt]

section Restart
variable {host : Host} {s : Interrupt}

/-- `RestartTicks` keeps what remains of each interrupt, when none is in the past. -/
theorem restartTicks_perm (h : ∀ e ∈ s.pending, s.totalTicks ≤ ofInt e.key) :
    s.remainingTimes.Perm (s.restartTicks host).remainingTimes := by
  obtain ⟨hperm, -⟩ := LinkedList.foldl_sortedInsert
    (fun e : ListElement PendingInterrupt =>
      toInt ((ofInt e.key + host.longModulus - s.totalTicks) % host.longModulus % 2 ^ 32))
    s.pending [] List.Pairwise.nil
  rw [List.append_nil] at hperm
  refine List.Perm.trans (List.Perm.of_eq ?_) (hperm.map _).symm
  rw [remainingTimes, List.map_map]
  refine List.map_congr_left fun e he => ?_
  have htick := restarted_tick host (ofInt_lt e.key) (h e he)
  simp only [Function.comp_apply, Prod.mk.injEq, true_and]
  rw [remaining, remaining, htick, ofInt_toInt (by have := ofInt_lt e.key; omega)]
  rfl

/-- The list after `RestartTicks`. -/
theorem restartTicks_sorted (h : ∀ e ∈ s.pending, s.totalTicks ≤ ofInt e.key) {n : ℕ}
    (hhalf : ∀ e ∈ s.pending, SameHalf (ofInt e.key - s.totalTicks) n) :
    Sorted (s.restartTicks host).pending ∧
      ∀ e ∈ (s.restartTicks host).pending, SameHalf (ofInt e.key) n := by
  obtain ⟨hperm, hkeys⟩ := LinkedList.foldl_sortedInsert
    (fun e : ListElement PendingInterrupt =>
      toInt ((ofInt e.key + host.longModulus - s.totalTicks) % host.longModulus % 2 ^ 32))
    s.pending [] List.Pairwise.nil
  rw [List.append_nil] at hperm
  have hmem : ∀ e ∈ (s.restartTicks host).pending,
      ∃ a ∈ s.pending, e.key = toInt (ofInt a.key - s.totalTicks) := by
    intro e he
    obtain ⟨a, ha, rfl⟩ := List.mem_map.mp (hperm.mem_iff.mp he)
    refine ⟨a, ha, ?_⟩
    rw [restarted_tick host (ofInt_lt a.key) (h a ha)]
  have hlt : ∀ a : ListElement PendingInterrupt, ofInt a.key - s.totalTicks < 2 ^ 32 := by
    intro a
    have := ofInt_lt a.key
    omega
  have hsame : ∀ e ∈ (s.restartTicks host).pending, SameHalf (ofInt e.key) n := by
    intro e he
    obtain ⟨a, ha, hkey⟩ := hmem e he
    rw [hkey, ofInt_toInt (hlt a)]
    exact hhalf a ha
  have hfits : ∀ e ∈ (s.restartTicks host).pending, Fits e.key := by
    intro e he
    obtain ⟨a, ha, hkey⟩ := hmem e he
    rw [hkey]
    exact fits_toInt (hlt a)
  refine ⟨⟨hfits, fun a ha b hb => ?_, hkeys⟩, hsame⟩
  rw [← toInt_ofInt (hfits a ha), ← toInt_ofInt (hfits b hb), toInt_nonneg (ofInt_lt _),
    toInt_nonneg (ofInt_lt _)]
  exact (hsame a ha).trans (hsame b hb).symm

end Restart

/-! ## Runs -/

theorem scheduled_tick (host : Host) (n : ℕ) : n % host.longModulus % 2 ^ 32 = n % 2 ^ 32 := by
  cases host
  · exact Nat.mod_mod_of_dvd _ (Nat.dvd_refl _)
  · exact Nat.mod_mod_of_dvd _ ⟨2 ^ 32, by decide⟩

/-- `Schedule` keeps the list sorted. -/
theorem schedule_sorted {host : Host} {s : Interrupt} (h : Sorted s.pending)
    (i : PendingInterrupt) {fromNow : ℕ} (hreach : s.InReach host (.schedule i fromNow)) :
    Sorted (s.schedule host i fromNow).pending := by
  have hlt : ∀ n, n % host.longModulus % 2 ^ 32 < 2 ^ 32 := fun n => Nat.mod_lt _ (by decide)
  simp only [InReach] at hreach
  unfold schedule
  split
  · rename_i hrestart
    rw [if_pos hrestart] at hreach
    obtain ⟨hsorted, hhalf⟩ : Sorted (s.restartTicks host).pending ∧ _ :=
      restartTicks_sorted (fun e he => (hreach e he).1) (fun e he => (hreach e he).2)
    refine hsorted.insert i (hlt _) fun e he => ?_
    rw [scheduled_tick]
    show SameHalf _ ((0 + fromNow) % 2 ^ 32)
    rw [Nat.zero_add]
    exact hhalf e he
  · rename_i hrestart
    rw [if_neg hrestart] at hreach
    refine h.insert i (hlt _) fun e he => ?_
    rw [scheduled_tick]
    exact hreach e he

/-- Every step within reach keeps the list sorted. -/
theorem step_sorted {host : Host} {s s' : Interrupt} {a : Action} (h : Sorted s.pending)
    (hreach : s.InReach host a) (hs : s.step host a = some s') : Sorted s'.pending := by
  cases a with
  | schedule i fromNow =>
    simp only [step] at hs
    split at hs
    · cases hs
      exact schedule_sorted h i hreach
    · cases hs
  | oneTick | setStatus st =>
    cases hs
    exact h
  | checkIfDue advanceClock =>
    cases hs
    exact checkIfDue_sorted h advanceClock

/-- Every restart within reach keeps what remains of each interrupt. -/
theorem emit_kept {host : Host} {s : Interrupt} {a : Action} (hreach : s.InReach host a)
    {before after : List (PendingInterrupt × ℕ)}
    (he : .restarted before after ∈ s.emit host a) : before.Perm after := by
  cases a with
  | schedule i fromNow =>
    simp only [emit] at he
    split at he
    · rename_i hrestart
      simp only [InReach, if_pos hrestart] at hreach
      cases List.mem_singleton.mp he
      exact restartTicks_perm fun e he => (hreach e he).1
    · cases he
  | checkIfDue advanceClock =>
    simp only [emit] at he
    cases hf : (s.checkIfDue advanceClock).1 with
    | none =>
      rw [hf] at he
      cases he
    | some i =>
      rw [hf] at he
      cases List.mem_singleton.mp he
  | oneTick | setStatus st => cases he

/-- **Interrupts fire in time order** in every state of every run whose steps are all
within reach. -/
theorem interrupts_timeOrdered {host : Host} {tr : List Event} {s : Interrupt}
    (h : Run (step host) (emit host) (fun _ s a => s.InReach host a) initial tr s) :
    TimeOrdered tr s := by
  obtain ⟨hsorted, hkept⟩ : Sorted s.pending ∧
      ∀ before after, .restarted before after ∈ tr → before.Perm after := by
    refine Run.invariant (I := fun tr s => Sorted s.pending ∧
      ∀ before after, .restarted before after ∈ tr → before.Perm after) ?_ ?_ h
    · exact ⟨Sorted.nil, nofun⟩
    · intro tr s a s' ⟨hsorted, hkept⟩ hreach hs
      refine ⟨step_sorted hsorted hreach hs, fun before after he => ?_⟩
      rcases List.mem_append.mp he with he | he
      · exact hkept before after he
      · exact emit_kept hreach he
  refine ⟨?_, hkept, checkIfDue_fires hsorted⟩
  refine hsorted.ticks.imp fun {a b} hle => ?_
  exact Nat.sub_le_sub_right hle _

/-- The counter is restarted while an interrupt is pending. -/
def restartedRun : List Action :=
  [.schedule ⟨0, .timer⟩ (2 ^ 32 - 10), .checkIfDue true, .schedule ⟨1, .disk⟩ 5,
    .schedule ⟨2, .consoleRead⟩ 20]

theorem interrupts_timeOrdered_restarted :
    ∃ tr s, Run (step .i386) (emit .i386) (fun _ s a => s.InReach .i386 a) initial tr s ∧
      s.remainingTimes = [(⟨1, .disk⟩, 5), (⟨2, .consoleRead⟩, 20)] ∧ s.totalTicks = 0 ∧
      TimeOrdered tr s := by
  obtain ⟨r, hr⟩ : ∃ r, play
      (fun s a => if decide (s.InReach .i386 a) = true then s.step .i386 a else none)
      (emit .i386) initial restartedRun = some r := ⟨_, rfl⟩
  have hrun : Run (step .i386) (emit .i386) (fun _ s a => s.InReach .i386 a) initial r.1 r.2 :=
    (Run.start.play hr).of_restrict.mono fun _ _ _ => of_decide_eq_true
  have hstate : r.2.remainingTimes = [(⟨1, .disk⟩, 5), (⟨2, .consoleRead⟩, 20)] ∧
      r.2.totalTicks = 0 := by
    cases hr
    decide +kernel
  exact ⟨r.1, r.2, hrun, hstate.1, hstate.2, interrupts_timeOrdered hrun⟩

/-- An interrupt is scheduled above 2 ^ 31 while one below it is pending. -/
def passingRun : List Action :=
  [.schedule ⟨0, .timer⟩ (2 ^ 31 - 50), .checkIfDue true, .schedule ⟨1, .disk⟩ 40,
    .schedule ⟨0, .timer⟩ 100, .oneTick, .oneTick, .oneTick, .oneTick, .oneTick]

/-- The interrupt due at 2 ^ 31 - 10 is behind the one due at 2 ^ 31 + 50, and does not fire. -/
theorem pending_out_of_order : ∃ tr s, Runs .x86_64 tr s ∧ s.totalTicks = 2 ^ 31 ∧
    s.remainingTimes = [(⟨0, .timer⟩, 50), (⟨1, .disk⟩, 0)] ∧ (s.checkIfDue false).1 = none ∧
    ¬ TimeOrdered tr s := by
  obtain ⟨r, hr⟩ : ∃ r, play (step .x86_64) (emit .x86_64) initial passingRun = some r := ⟨_, rfl⟩
  have hrun : Runs .x86_64 r.1 r.2 := Run.start.play hr
  have hstate : r.2.totalTicks = 2 ^ 31 ∧
      r.2.remainingTimes = [(⟨0, .timer⟩, 50), (⟨1, .disk⟩, 0)] ∧
      (r.2.checkIfDue false).1 = none := by
    cases hr
    decide +kernel
  refine ⟨r.1, r.2, hrun, hstate.1, hstate.2.1, hstate.2.2, fun h => ?_⟩
  have hsorted := (List.pairwise_map (f := fun e => (e.item, r.2.remaining e))
    (R := fun a b => a.2 ≤ b.2)).mpr h.sorted
  change r.2.remainingTimes.Pairwise _ at hsorted
  rw [hstate.2.1] at hsorted
  revert hsorted
  decide

end Interrupt
end PaldOs
