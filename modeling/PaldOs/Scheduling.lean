import PaldOs.Lifetimes
import PaldOs.ListNodes

/-! # The order of the ready list

With `MULTILEVEL_PRIORITY_QUEUE` the scheduler keeps the ready list in decreasing order of
priority.  `SortedInsertInverted` puts a thread behind those of its own priority, so the list is
the threads in the order of their insertion, sorted **stably**; `Queue` says this, and that it is
so is kept by every call.  The list is the one of `ListNodes`, with its pointers to the first and
the last node.

A thread's priority is a `size_t`, the key of a list is an `int`.
-/
namespace PaldOs

/-! ## Keys and the order of insertion -/

section Lists
variable {α : Type}

theorem mem_sortedInsertInverted_elements {item : α} {sortKey : ℤ} {l : List (ListElement α)}
    {e : ListElement α} :
    e ∈ LinkedList.sortedInsertInverted item sortKey l ↔ e = ⟨sortKey, item⟩ ∨ e ∈ l := by
  induction l with
  | nil => exact List.mem_cons
  | cons a l ih =>
    rw [LinkedList.sortedInsertInverted]
    split
    · exact List.mem_cons
    · rw [List.mem_cons, ih, List.mem_cons]
      exact or_left_comm

theorem sortedInsertInverted_sorted {item : α} {sortKey : ℤ} {l : List (ListElement α)}
    (h : l.Pairwise (fun a b => b.key ≤ a.key)) :
    (LinkedList.sortedInsertInverted item sortKey l).Pairwise (fun a b => b.key ≤ a.key) := by
  induction l with
  | nil => exact List.pairwise_singleton _ _
  | cons e l ih =>
    obtain ⟨he, hl⟩ := List.pairwise_cons.mp h
    rw [LinkedList.sortedInsertInverted]
    split
    · rename_i hlt
      refine List.pairwise_cons.mpr ⟨fun a ha => ?_, h⟩
      rcases List.mem_cons.mp ha with rfl | ha
      · exact le_of_lt hlt
      · exact le_trans (he a ha) (le_of_lt hlt)
    · rename_i hlt
      refine List.pairwise_cons.mpr ⟨fun a ha => ?_, ih hl⟩
      rcases mem_sortedInsertInverted_elements.mp ha with rfl | ha
      · exact not_lt.mp hlt
      · exact he a ha

/-- **Equal keys stay in the order of insertion.** -/
theorem filter_sortedInsertInverted {item : α} {sortKey : ℤ} {l : List (ListElement α)}
    (h : l.Pairwise (fun a b => b.key ≤ a.key)) (k : ℤ) :
    (LinkedList.sortedInsertInverted item sortKey l).filter (·.key = k) =
      l.filter (·.key = k) ++ if sortKey = k then [⟨sortKey, item⟩] else [] := by
  induction l with
  | nil =>
    rw [LinkedList.sortedInsertInverted, List.filter_nil, List.nil_append]
    by_cases hk : sortKey = k
    · rw [if_pos hk, List.filter_cons_of_pos (by simpa using hk), List.filter_nil]
    · rw [if_neg hk, List.filter_cons_of_neg (by simpa using hk), List.filter_nil]
  | cons e l ih =>
    obtain ⟨he, hl⟩ := List.pairwise_cons.mp h
    rw [LinkedList.sortedInsertInverted]
    split
    · rename_i hlt
      by_cases hk : sortKey = k
      · -- all keys behind it are smaller
        have hnil : (e :: l).filter (·.key = k) = [] := by
          rw [List.filter_eq_nil_iff]
          intro a ha
          have hle : a.key ≤ e.key := by
            rcases List.mem_cons.mp ha with rfl | ha
            · exact le_refl _
            · exact he a ha
          simp only [decide_eq_true_eq]
          omega
        rw [if_pos hk, List.filter_cons_of_pos (by simpa using hk), hnil, List.nil_append]
      · rw [if_neg hk, List.filter_cons_of_neg (by simpa using hk), List.append_nil]
    · by_cases hek : e.key = k
      · rw [List.filter_cons_of_pos (by simpa using hek),
          List.filter_cons_of_pos (by simpa using hek),
          ih hl, List.cons_append]
      · rw [List.filter_cons_of_neg (by simpa using hek),
          List.filter_cons_of_neg (by simpa using hek),
          ih hl]

/-- If no item is there twice, `Remove` takes out all elements with the item. -/
theorem remove_eq_filter [DecidableEq α] {item : α} {l : List (ListElement α)}
    (h : (l.map ListElement.item).Nodup) :
    LinkedList.remove item l = l.filter (fun e => e.item != item) := by
  induction l with
  | nil => rfl
  | cons e l ih =>
    obtain ⟨hnot, hl⟩ := List.nodup_cons.mp h
    rw [LinkedList.remove]
    split
    · rename_i hitem
      rw [List.filter_cons_of_neg (by simpa using hitem.symm), List.filter_eq_self.mpr]
      intro a ha
      refine bne_iff_ne.mpr fun hai => hnot ?_
      rw [← hitem, ← hai]
      exact List.mem_map_of_mem ha
    · rename_i hitem
      rw [List.filter_cons_of_pos (by simpa using Ne.symm hitem), ih hl]

end Lists

/-! ## The scheduler -/

/-- The scheduler, with what it reads and writes of the threads. -/
structure Scheduler (T : Type) where
  readyList : ListObject T
  priority : T → ℕ
  status : T → ThreadStatus

namespace Scheduler
variable {T : Type} [DecidableEq T]

/-- The conversion of a priority to `int`. -/
def sortKey (priority : ℕ) : ℤ := (priority : ℤ).bmod (2 ^ 32)

/-- `ReadyToRun`. -/
def readyToRun (s : Scheduler T) (thread : T) : Option (Scheduler T) := do
  let readyList ← s.readyList.sortedInsertInverted thread (sortKey (s.priority thread))
  return { s with readyList := readyList, status := Function.update s.status thread .ready }

/-- `FindNextToRun`. -/
def findNextToRun (s : Scheduler T) : Option (Option T × Scheduler T) := do
  let (element, readyList) ← s.readyList.sortedPop
  return (element.map ListElement.item, { s with readyList := readyList })

/-- `Thread::SetPriority`. -/
def setPriority (s : Scheduler T) (thread : T) (newPriority : ℕ) : Scheduler T :=
  { s with priority := Function.update s.priority thread newPriority }

/-- `ModifyPriority`. -/
def modifyPriority (s : Scheduler T) (thread : T) : Option (Scheduler T) := do
  if ← s.readyList.has thread then
    let readyList ← s.readyList.remove thread
    let readyList ← readyList.sortedInsertInverted thread (sortKey (s.priority thread))
    return { s with readyList := readyList }
  else return s

/-- A call. -/
inductive Action (T : Type) where
  | readyToRun (thread : T)
  | changePriority (thread : T) (newPriority : ℕ)
  | findNextToRun

/-- The scheduler, and the ready threads in the order in which they were last put into the list.
The order is no variable of the source. -/
structure Ordered (T : Type) where
  scheduler : Scheduler T
  order : List T

def step (s : Ordered T) : Action T → Option (Ordered T)
  | .readyToRun thread => do
      let scheduler ← s.scheduler.readyToRun thread
      return ⟨scheduler, s.order ++ [thread]⟩
  | .changePriority thread newPriority => do
      let scheduler ← (s.scheduler.setPriority thread newPriority).modifyPriority thread
      return ⟨scheduler, if thread ∈ s.order then s.order.erase thread ++ [thread] else s.order⟩
  | .findNextToRun => do
      let (thread, scheduler) ← s.scheduler.findNextToRun
      return ⟨scheduler, thread.elim s.order s.order.erase⟩

/-- A thread made ready is not in the ready list, and priorities are below `2 ^ 31`. -/
def Allowed (s : Ordered T) : Action T → Prop
  | .readyToRun thread => thread ∉ s.order
  | .changePriority _ newPriority => newPriority < 2 ^ 31
  | .findNextToRun => True

instance (s : Ordered T) (a : Action T) : Decidable (Allowed s a) :=
  match a with
  | .readyToRun thread => inferInstanceAs (Decidable (thread ∉ s.order))
  | .changePriority _ newPriority => inferInstanceAs (Decidable (newPriority < 2 ^ 31))
  | .findNextToRun => inferInstanceAs (Decidable True)

/-- **The states of the scheduler**, after any calls. -/
def Reached (s : Ordered T) : Prop :=
  ∃ priority status tr, (∀ t, priority t < 2 ^ 31) ∧
    Run step (fun _ _ => ([] : List Unit)) (fun _ s a => Allowed s a)
      ⟨⟨ListObject.empty, priority, status⟩, []⟩ tr s

/-! ## The invariant -/

/-- **The ready list is the order of insertion, sorted stably** by decreasing priority. -/
structure Queue (priority : T → ℕ) (order : List T) (l : List (ListElement T)) : Prop where
  nodup : order.Nodup
  perm : (l.map ListElement.item).Perm order
  keys : ∀ e ∈ l, e.key = priority e.item
  sorted : l.Pairwise (fun a b => b.key ≤ a.key)
  ties : ∀ k : ℤ, (l.filter (·.key = k)).map ListElement.item =
    order.filter (fun t => (priority t : ℤ) = k)

/-- The invariant of the scheduler. -/
structure Inv (s : Ordered T) : Prop where
  bounded : ∀ t, s.scheduler.priority t < 2 ^ 31
  list : ∃ l, s.scheduler.readyList.Represents l ∧ Queue s.scheduler.priority s.order l

theorem sortKey_eq {p : ℕ} (h : p < 2 ^ 31) : sortKey p = p := by
  exact Int.bmod_eq_of_le (by omega) (by omega)

section Queue
variable {priority : T → ℕ} {order : List T} {l : List (ListElement T)} {t : T}

omit [DecidableEq T] in
theorem queue_nil (priority : T → ℕ) : Queue priority [] [] :=
  ⟨List.nodup_nil, List.Perm.refl _, fun _ he => absurd he List.not_mem_nil, List.Pairwise.nil,
    fun _ => rfl⟩

omit [DecidableEq T] in
theorem Queue.insert (h : Queue priority order l) (ht : t ∉ order) :
    Queue priority (order ++ [t]) (LinkedList.sortedInsertInverted t (priority t) l) where
  nodup := by
    refine List.nodup_append.mpr ⟨h.nodup, List.nodup_singleton t, fun a ha b hb => ?_⟩
    rintro rfl
    rw [List.mem_singleton.mp hb] at ha
    exact ht ha
  perm := by
    refine (LinkedList.sortedInsertInverted_perm ..).trans ?_
    exact (h.perm.cons t).trans (List.perm_append_singleton t order).symm
  keys := by
    intro e he
    rcases mem_sortedInsertInverted_elements.mp he with rfl | he
    · rfl
    · exact h.keys e he
  sorted := sortedInsertInverted_sorted h.sorted
  ties := by
    intro k
    rw [filter_sortedInsertInverted h.sorted, List.map_append, h.ties, List.filter_append]
    by_cases hk : (priority t : ℤ) = k
    · rw [if_pos hk, List.filter_cons_of_pos (by simpa using hk)]
      rfl
    · rw [if_neg hk, List.filter_cons_of_neg (by simpa using hk)]
      rfl

/-- A thread is taken out, and its priority may change. -/
theorem Queue.remove (h : Queue priority order l) (p : ℕ) :
    Queue (Function.update priority t p) (order.erase t) (LinkedList.remove t l) := by
  have hnodup : (l.map ListElement.item).Nodup := h.perm.nodup_iff.mpr h.nodup
  have hsame : ∀ u, u ≠ t → Function.update priority t p u = priority u :=
    fun u hu => Function.update_of_ne hu ..
  rw [remove_eq_filter hnodup, h.nodup.erase_eq_filter]
  have hmap : ∀ l : List (ListElement T), (l.filter (fun e => e.item != t)).map ListElement.item =
      (l.map ListElement.item).filter (· != t) := by
    intro l
    rw [List.filter_map]
    rfl
  refine ⟨h.nodup.filter _, ?_, fun e he => ?_, h.sorted.filter _, fun k => ?_⟩
  · rw [hmap]
    exact h.perm.filter _
  · obtain ⟨he, hne⟩ := List.mem_filter.mp he
    rw [hsame _ (by simpa using hne)]
    exact h.keys e he
  · rw [List.filter_comm, hmap, h.ties, List.filter_comm, List.filter_filter, List.filter_filter]
    refine List.filter_congr fun u _ => ?_
    by_cases hu : u = t
    · rw [hu, bne_self_eq_false, Bool.and_false, Bool.and_false]
    · rw [hsame u hu]

/-- A thread that is not ready gets another priority. -/
theorem Queue.update (h : Queue priority order l) (ht : t ∉ order) (p : ℕ) :
    Queue (Function.update priority t p) order l := by
  have hsame : ∀ u, u ≠ t → Function.update priority t p u = priority u :=
    fun u hu => Function.update_of_ne hu ..
  have hne : ∀ u ∈ order, u ≠ t := by
    rintro u hu rfl
    exact ht hu
  refine ⟨h.nodup, h.perm, fun e he => ?_, h.sorted, fun k => ?_⟩
  · rw [hsame _ (hne _ (h.perm.mem_iff.mp (List.mem_map_of_mem he)))]
    exact h.keys e he
  · rw [h.ties]
    exact List.filter_congr fun u hu => by rw [hsame u (hne u hu)]

omit [DecidableEq T] in
/-- The first element has the greatest priority, and was put in before the others that have it. -/
theorem Queue.head {e : ListElement T} (h : Queue priority order (e :: l)) :
    (∀ u ∈ order, priority u ≤ priority e.item) ∧
    ∃ before after, order = before ++ e.item :: after ∧
      ∀ u ∈ before, priority u ≠ priority e.item := by
  have hkey := h.keys e List.mem_cons_self
  constructor
  · intro u hu
    obtain ⟨a, ha, rfl⟩ := List.mem_map.mp (h.perm.mem_iff.mpr hu)
    have hka := h.keys a ha
    rcases List.mem_cons.mp ha with rfl | ha'
    · exact le_refl _
    · have := (List.pairwise_cons.mp h.sorted).1 a ha'
      omega
  · have hties := h.ties (priority e.item)
    rw [List.filter_cons_of_pos (by simpa using hkey), List.map_cons] at hties
    obtain ⟨before, after, horder, hbefore, -, -⟩ := List.filter_eq_cons_iff.mp hties.symm
    refine ⟨before, after, horder, fun u hu heq => hbefore u hu ?_⟩
    rw [heq]
    exact decide_eq_true rfl

end Queue

/-! ## Every call keeps it -/

section Steps
variable {s s' : Ordered T}

theorem Inv.readyToRun (h : Inv s) {t : T} (ht : t ∉ s.order) :
    ∃ s', step s (.readyToRun t) = some s' ∧ Inv s' := by
  obtain ⟨l, hl, hq⟩ := h.list
  obtain ⟨readyList, hr, hl'⟩ := hl.sortedInsertInverted t (sortKey (s.scheduler.priority t))
  refine ⟨⟨{ s.scheduler with
      readyList := readyList, status := Function.update s.scheduler.status t .ready },
      s.order ++ [t]⟩,
    by rw [Scheduler.step, Scheduler.readyToRun, hr]; rfl, h.bounded, _, hl', ?_⟩
  rw [sortKey_eq (h.bounded t)]
  exact hq.insert ht

theorem Inv.changePriority (h : Inv s) (t : T) {p : ℕ} (hp : p < 2 ^ 31) :
    ∃ s', step s (.changePriority t p) = some s' ∧ Inv s' := by
  obtain ⟨l, hl, hq⟩ := h.list
  have hbounded : ∀ u, Function.update s.scheduler.priority t p u < 2 ^ 31 := by
    intro u
    rw [Function.update_apply]
    split
    · exact hp
    · exact h.bounded u
  have hhas : LinkedList.has t l = true ↔ t ∈ s.order := by
    rw [LinkedList.has_iff, hq.perm.mem_iff]
  rw [step, modifyPriority]
  show ∃ s', ((s.scheduler.readyList.has t).bind _).bind _ = some s' ∧ _
  rw [hl.has_eq, Option.bind_some]
  by_cases ht : t ∈ s.order
  · obtain ⟨readyList, hr, hl₁⟩ := hl.remove t
    obtain ⟨readyList', hr', hl'⟩ := hl₁.sortedInsertInverted t (sortKey p)
    have hnot : t ∉ s.order.erase t := hq.nodup.not_mem_erase
    have hq' := (hq.remove (t := t) p).insert hnot
    rw [Function.update_self] at hq'
    rw [if_pos (hhas.mpr ht), if_pos ht]
    show ∃ s', ((s.scheduler.readyList.remove t).bind _).bind _ = some s' ∧ _
    rw [hr, Option.bind_some]
    show ∃ s', ((readyList.sortedInsertInverted t
      (sortKey (Function.update s.scheduler.priority t p t))).bind _).bind _ = some s' ∧ _
    rw [Function.update_self, hr']
    refine ⟨_, rfl, hbounded, _, hl', ?_⟩
    rw [sortKey_eq hp]
    exact hq'
  · rw [if_neg fun hh => ht (hhas.mp hh), if_neg ht]
    exact ⟨_, rfl, hbounded, l, hl, hq.update ht p⟩

theorem Inv.findNextToRun (h : Inv s) :
    ∃ r scheduler, s.scheduler.findNextToRun = some (r, scheduler) ∧
    (r = none ↔ s.order = []) ∧
    (∀ t, r = some t → (∀ u ∈ s.order, s.scheduler.priority u ≤ s.scheduler.priority t) ∧
      ∃ before after, s.order = before ++ t :: after ∧
        ∀ u ∈ before, s.scheduler.priority u ≠ s.scheduler.priority t) ∧
    Inv ⟨scheduler, r.elim s.order s.order.erase⟩ := by
  obtain ⟨l, hl, hq⟩ := h.list
  obtain ⟨readyList, hr, hl'⟩ := hl.sortedPop
  cases l with
  | nil =>
    have horder : s.order = [] := hq.perm.symm.eq_nil
    refine ⟨none, { s.scheduler with readyList := readyList }, ?_, iff_of_true rfl horder, ?_,
      h.bounded, [], hl', hq⟩
    · rw [Scheduler.findNextToRun, hr]
      rfl
    · intro t ht
      cases ht
  | cons e l =>
    have hmem : e.item ∈ s.order := hq.perm.mem_iff.mp List.mem_cons_self
    refine ⟨some e.item, { s.scheduler with readyList := readyList }, ?_,
      iff_of_false (fun hn => by cases hn) (List.ne_nil_of_mem hmem), ?_, h.bounded, l, hl', ?_⟩
    · rw [Scheduler.findNextToRun, hr]
      rfl
    · intro t ht
      obtain rfl := Option.some.inj ht
      exact hq.head
    · have hq' := hq.remove (t := e.item) (s.scheduler.priority e.item)
      rw [Function.update_eq_self, LinkedList.remove, if_pos rfl] at hq'
      exact hq'

/-- **A call keeps the invariant**, and it comes back. -/
theorem Inv.step (h : Inv s) {a : Action T} (ha : Allowed s a) :
    ∃ s', step s a = some s' ∧ Inv s' := by
  cases a with
  | readyToRun t => exact h.readyToRun ha
  | changePriority t p => exact h.changePriority t ha
  | findNextToRun =>
    obtain ⟨r, scheduler, hr, -, -, hinv⟩ := h.findNextToRun
    exact ⟨_, by rw [Scheduler.step, hr]; rfl, hinv⟩

theorem Reached.inv (h : Reached s) : Inv s := by
  obtain ⟨priority, status, tr, hp, h⟩ := h
  refine Run.invariant (I := fun _ s => Inv s)
    ⟨hp, [], ListObject.represents_empty, queue_nil priority⟩ ?_ h
  intro tr s a s' hs ha hstep
  obtain ⟨s'', hs'', hinv⟩ := hs.step ha
  rw [hstep] at hs''
  obtain rfl := Option.some.inj hs''
  exact hinv

end Steps

/-- **The order of scheduling.**  After any calls, every further call comes back; the ready list has
each ready thread once and nothing else; `FindNextToRun` returns null exactly if no thread is ready,
and otherwise a thread of the greatest priority, the first of these that was put in. -/
theorem priority_order {s : Ordered T} (h : Reached s) :
    (∀ a, Allowed s a → ∃ s', step s a = some s') ∧
    (∃ l, s.scheduler.readyList.Represents l ∧
      ∀ t, (l.map ListElement.item).count t = if t ∈ s.order then 1 else 0) ∧
    ∃ r scheduler, s.scheduler.findNextToRun = some (r, scheduler) ∧ (r = none ↔ s.order = []) ∧
      ∀ t, r = some t → (∀ u ∈ s.order, s.scheduler.priority u ≤ s.scheduler.priority t) ∧
        ∃ before after, s.order = before ++ t :: after ∧
          ∀ u ∈ before, s.scheduler.priority u ≠ s.scheduler.priority t := by
  have hinv := h.inv
  refine ⟨fun a ha => ?_, ?_, ?_⟩
  · obtain ⟨s', hs', -⟩ := hinv.step ha
    exact ⟨s', hs'⟩
  · obtain ⟨l, hl, hq⟩ := hinv.list
    refine ⟨l, hl, fun t => ?_⟩
    rw [hq.perm.count_eq]
    exact hq.nodup.count
  · obtain ⟨r, scheduler, hr, hnone, hsome, -⟩ := hinv.findNextToRun
    exact ⟨r, scheduler, hr, hnone, hsome⟩

/-- Four threads of one priority, of which 3 and then 2 get a higher one; 1 is put in again. -/
def fourThreads : List (Action ℕ) :=
  [.readyToRun 1, .readyToRun 2, .readyToRun 3, .changePriority 3 7, .changePriority 2 7,
    .readyToRun 4, .changePriority 1 5]

/-- The threads are blocked at first. -/
def blockedThreads : Ordered ℕ := ⟨⟨ListObject.empty, fun _ => 5, fun _ => .blocked⟩, []⟩

theorem play_fourThreads :
    (playChecked step (fun _ _ => ([] : List Unit)) (fun _ s a => decide (Allowed s a)) []
      blockedThreads fourThreads).map (fun r => decide (r.2.order = [3, 2, 4, 1] ∧
        (∀ t ∈ r.2.order, r.2.scheduler.priority t = if t = 2 ∨ t = 3 then 7 else 5) ∧
        r.2.scheduler.findNextToRun.map Prod.fst = some (some 3))) = some true := by
  decide +kernel

/-- Thread 3 is the next: it was in the list before 2. -/
theorem priority_order_four : ∃ s : Ordered ℕ, Reached s ∧ s.order = [3, 2, 4, 1] ∧
    (∀ t ∈ s.order, s.scheduler.priority t = if t = 2 ∨ t = 3 then 7 else 5) ∧
    (∀ a, Allowed s a → ∃ s', step s a = some s') ∧
    (∃ l, s.scheduler.readyList.Represents l ∧
      ∀ t, (l.map ListElement.item).count t = if t ∈ s.order then 1 else 0) ∧
    ∃ scheduler, s.scheduler.findNextToRun = some (some 3, scheduler) ∧
      (∀ u ∈ s.order, s.scheduler.priority u ≤ s.scheduler.priority 3) ∧
      ∃ before after, s.order = before ++ 3 :: after ∧
        ∀ u ∈ before, s.scheduler.priority u ≠ s.scheduler.priority 3 := by
  obtain ⟨r, hr, hlast⟩ := Option.map_eq_some_iff.mp play_fourThreads
  obtain ⟨horder, hpriority, hnext⟩ := of_decide_eq_true hlast
  have hreached : Reached r.2 := by
    have hrun := Run.playChecked .start hr
    exact ⟨_, _, _, fun _ => by decide, hrun.mono fun _ _ _ h => of_decide_eq_true h⟩
  obtain ⟨hprogress, hlist, thread, scheduler, hfind, -, hfirst⟩ := priority_order hreached
  rw [hfind] at hnext
  obtain rfl : thread = some 3 := Option.some.inj hnext
  exact ⟨r.2, hreached, horder, hpriority, hprogress, hlist, scheduler, hfind, hfirst 3 rfl⟩

end Scheduler
end PaldOs
