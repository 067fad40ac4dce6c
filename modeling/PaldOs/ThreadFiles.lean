import Mathlib.Data.Nat.Find
import PaldOs.SystemCalls

/-! # The files of a thread

`SC_OPEN` adds the `OpenFile` it gets to the thread's table of open files, `SC_CLOSE` deletes it and
takes it off, and `Thread::~Thread` deletes what is left.  Its loop counts the descriptors up from
0 and stops at the first one that is not a key.  So a descriptor behind a closed one keeps its file
open, and the file can never be removed.  `closesAll_iff` says for which tables nothing is missed.

Deleting an object twice is undefined; it is no step here.  This does come about: the loop in
`Table::Remove` can make a closed descriptor show as a key again.
-/
namespace PaldOs

/-- An `OpenFile`: which object it is, and the sector of the file's header. -/
structure OpenedFile where
  id : ℕ
  sector : ℕ
deriving DecidableEq

/-- A thread's open files and the counts of `openFilesTable`.  The last three fields are no
variables of the source: the objects there are, the descriptors handed out and not closed since,
and how often the other threads hold each file open. -/
structure ThreadFiles where
  openedFilesTable : Table (Option OpenedFile)
  count : ℕ → ℕ
  nextId : ℕ
  live : List OpenedFile
  registered : ℤ → Option OpenedFile
  others : ℕ → ℕ

namespace ThreadFiles
open SystemCalls

/-! ## The thread's calls -/

/-- `OpenFile::OpenFile`. -/
def construct (s : ThreadFiles) (sector : ℕ) : OpenedFile × ThreadFiles :=
  (⟨s.nextId, sector⟩, { s with
    count := Function.update s.count sector (s.count sector + 1)
    nextId := s.nextId + 1
    live := ⟨s.nextId, sector⟩ :: s.live })

/-- `OpenFile::~OpenFile`: a count of zero stays. -/
def destroy (s : ThreadFiles) (f : OpenedFile) : Option ThreadFiles :=
  if f ∈ s.live then
    some { s with
      count := Function.update s.count f.sector (s.count f.sector - 1)
      live := s.live.erase f }
  else none

/-- `delete` on a pointer of the table. -/
def delete (s : ThreadFiles) : Option OpenedFile → Option ThreadFiles
  | none => some s
  | some f => s.destroy f

/-- `SC_OPEN`, when `FileSystem::Open` finds the file, with its header in the given sector, or does
not find it.  If the table is full, the object is not deleted. -/
def scOpen (s : ThreadFiles) : Option ℕ → ThreadFiles
  | none => s
  | some sector =>
      let (openedFile, s) := s.construct sector
      let (fileDescriptor, table) := s.openedFilesTable.add (some openedFile)
      { s with
        openedFilesTable := table
        registered :=
          if fileDescriptor < 0 then s.registered
          else Function.update s.registered fileDescriptor (some openedFile) }

/-- `SC_CLOSE`.  `none`: an assertion of the table fails, or the object is no more. -/
def scClose (s : ThreadFiles) (fid : ℤ) : Option ThreadFiles := do
  let present ← s.openedFilesTable.hasKey fid
  if present ∧ fid ≠ 0 ∧ fid ≠ 1 then
    let openedFile ← s.openedFilesTable.get fid
    let s ← s.delete openedFile
    let (_, table) ← s.openedFilesTable.remove fid
    return { s with
      openedFilesTable := table
      registered := Function.update s.registered fid none }
  else return s

/-- The loop of `Thread::~Thread` from descriptor `i` on, with the objects deleted; at most `n`
descriptors are looked at. -/
def deleteOpened : ℕ → ℤ → ThreadFiles → Option (List OpenedFile × ThreadFiles)
  | 0, _, s => some ([], s)
  | n + 1, i, s => do
      let present ← s.openedFilesTable.hasKey i
      if present then
        let openedFile ← s.openedFilesTable.get i
        let s ← s.delete openedFile
        let (deleted, s) ← deleteOpened n (i + 1) s
        return (openedFile.toList ++ deleted, s)
      else return ([], s)

/-- `Thread::~Thread`: no key is `current` or more. -/
def destroyThread (s : ThreadFiles) : Option (List OpenedFile × ThreadFiles) :=
  deleteOpened (s.openedFilesTable.current.toNat + 1) 0 s

/-- What happens to the counts: the thread's calls, and other threads that open and close. -/
inductive Action where
  | open (sector : Option ℕ)
  | close (fid : ℤ)
  | othersOpen (sector : ℕ)
  | othersClose (sector : ℕ)

def step (s : ThreadFiles) : Action → Option ThreadFiles
  | .open sector => some (s.scOpen sector)
  | .close fid => s.scClose fid
  | .othersOpen x => some { s with
      count := Function.update s.count x (s.count x + 1)
      others := Function.update s.others x (s.others x + 1) }
  | .othersClose x =>
      if 0 < s.others x then
        some { s with
          count := Function.update s.count x (s.count x - 1)
          others := Function.update s.others x (s.others x - 1) }
      else none

/-- A new thread; the other threads have files open. -/
def constructed (data : ℤ → Option OpenedFile) (others : ℕ → ℕ) : ThreadFiles where
  openedFilesTable := constructedFiles data
  count := others
  nextId := 0
  live := []
  registered := fun _ => none
  others := others

/-- **The states of a thread**, after any calls. -/
def Reached (s : ThreadFiles) : Prop :=
  ∃ data others tr, Run step (fun _ _ => ([] : List Unit)) (fun _ _ _ => True)
    (constructed data others) tr s

/-- **`~Thread` closes everything**: it comes to its end, each file that is registered is deleted
once and nothing else is, and then the counts are what the other threads hold, and the objects the
table had no room for. -/
def ClosesAll (s : ThreadFiles) : Prop :=
  ∃ deleted s', s.destroyThread = some (deleted, s') ∧
    (∀ f, (∃ i, s.registered i = some f) → deleted.count f = 1) ∧
    (∀ f ∈ deleted, ∃ i, s.registered i = some f) ∧
    (∀ f ∈ s'.live, ∀ i, s.registered i ≠ some f) ∧
    ∀ x, s'.count x = s.others x + s'.live.countP (·.sector = x)

/-- **There is no hole**: the descriptors of the thread are those from 2 up to the first index
that is not a key. -/
def Gapless (s : ThreadFiles) : Prop :=
  ∃ n : ℤ, s.openedFilesTable.occupied n = false ∧
    (∀ i, 0 ≤ i → i < n → s.openedFilesTable.occupied i = true) ∧
    ∀ i, (s.registered i).isSome = true ↔ 2 ≤ i ∧ i < n

/-! ## The invariant -/

/-- **The invariant.**  A registered file is an object, in the table at its descriptor; a key that
is not registered has an object that is deleted. -/
structure Inv (s : ThreadFiles) : Prop where
  table : Descriptors s.openedFilesTable
  nodup : s.live.Nodup
  fresh : ∀ f ∈ s.live, f.id < s.nextId
  registered : ∀ i f, s.registered i = some f →
    2 ≤ i ∧ s.openedFilesTable.data i = some f ∧ f ∈ s.live
  injective : ∀ i j f, s.registered i = some f → s.registered j = some f → i = j
  stale : ∀ i f, 2 ≤ i → i < s.openedFilesTable.current → s.openedFilesTable.data i = some f →
    f.id < s.nextId ∧ (s.registered i = none → f ∉ s.live)
  counts : ∀ x, s.count x = s.others x + s.live.countP (·.sector = x)

theorem inv_constructed (data : ℤ → Option OpenedFile) (others : ℕ → ℕ) :
    (constructed data others).Inv where
  table := descriptors_constructed data
  nodup := List.nodup_nil
  fresh := fun f hf => absurd hf List.not_mem_nil
  registered := fun i f h => by cases h
  injective := fun i j f h => by cases h
  stale := fun i f h1 h2 => by
    have h2' : i < 2 := h2
    omega
  counts := fun x => rfl

section Steps
variable {s s' : ThreadFiles} {f : OpenedFile}

/-- Where `Add` puts an object. -/
theorem add_spec {t : Table (Option OpenedFile)} (h : Descriptors t) (f : OpenedFile) :
    (t.add (some f) = (-1, t)) ∨ ∃ fd t', t.add (some f) = (fd, t') ∧ 2 ≤ fd ∧
      t'.data = Function.update t.data fd (some f) ∧
      ∀ i, i < t'.current → i < t.current ∨ i = fd := by
  rcases t.add_cases (some f) with ⟨e, rest, hf, ha⟩ | ⟨-, -, ha⟩ | ⟨-, -, ha⟩
  · refine Or.inr ⟨_, _, ha, h.freed e ?_, rfl, fun i hi => Or.inl hi⟩
    rw [hf]
    exact List.mem_cons_self
  · refine Or.inr ⟨_, _, ha, h.two_le, rfl, fun i hi => ?_⟩
    have hi' : i < t.current + 1 := hi
    omega
  · exact Or.inl ha

theorem shrink_current_le {freed freed' : List (ListElement ℤ)} {j current current' : ℤ}
    (h : Table.shrink j current freed = some (current', freed')) : current' ≤ current := by
  induction freed generalizing j current with
  | nil =>
    rw [Table.shrink] at h
    split at h
    · cases h
    · obtain ⟨rfl, -⟩ := Prod.mk.inj (Option.some.inj h)
      exact le_refl _
  | cons e freed ih =>
    rw [Table.shrink] at h
    split at h
    · split at h
      · have := ih h
        omega
      · cases h
    · obtain ⟨rfl, -⟩ := Prod.mk.inj (Option.some.inj h)
      exact le_refl _

/-- `Remove` leaves the objects where they are. -/
theorem remove_spec {t t' : Table (Option OpenedFile)} {i : ℤ} {x : Option OpenedFile}
    (h : t.remove i = some (x, t')) : t'.data = t.data ∧ t'.current ≤ t.current := by
  unfold Table.remove at h
  split at h
  · split at h
    · split at h
      · obtain ⟨⟨current', freed'⟩, hs, hr⟩ := Option.map_eq_some_iff.mp h
        obtain ⟨-, rfl⟩ := Prod.mk.inj hr
        have := shrink_current_le hs
        exact ⟨rfl, by dsimp only; omega⟩
      · obtain ⟨-, rfl⟩ := Prod.mk.inj (Option.some.inj h)
        exact ⟨rfl, le_refl _⟩
    · obtain ⟨-, rfl⟩ := Prod.mk.inj (Option.some.inj h)
      exact ⟨rfl, le_refl _⟩
  · cases h

/-- The counts after a new object. -/
theorem Inv.construct_counts (h : s.Inv) (sector x : ℕ) : (s.construct sector).2.count x =
    s.others x + (s.construct sector).2.live.countP (·.sector = x) := by
  have hcount := h.counts x
  show Function.update s.count sector (s.count sector + 1) x =
    s.others x + ((⟨s.nextId, sector⟩ : OpenedFile) :: s.live).countP (·.sector = x)
  rw [List.countP_cons, Function.update_apply]
  by_cases hx : x = sector
  · subst hx
    simp only [if_true, decide_true]
    omega
  · have hx' : ¬ sector = x := fun heq => hx heq.symm
    simp only [if_neg hx, hx', decide_false, Bool.false_eq_true, if_false]
    omega

/-- Deleting an object keeps the counts. -/
theorem destroy_spec (hn : s.live.Nodup)
    (hc : ∀ x, s.count x = s.others x + s.live.countP (·.sector = x))
    (h : s.destroy f = some s') : f ∈ s.live ∧ s'.openedFilesTable = s.openedFilesTable ∧
      s'.registered = s.registered ∧ s'.others = s.others ∧ s'.nextId = s.nextId ∧
      s'.live = s.live.erase f ∧ s'.live.Nodup ∧
      ∀ x, s'.count x = s'.others x + s'.live.countP (·.sector = x) := by
  unfold destroy at h
  split at h
  · rename_i hf
    obtain rfl := Option.some.inj h
    refine ⟨hf, rfl, rfl, rfl, rfl, rfl, hn.erase f, fun x => ?_⟩
    have hcount := hc x
    have hsplit : s.live.countP (·.sector = x) =
        (if f.sector = x then 1 else 0) + (s.live.erase f).countP (·.sector = x) := by
      rw [(List.perm_cons_erase hf).countP_eq, List.countP_cons, Nat.add_comm]
      simp only [decide_eq_true_eq]
    show Function.update s.count f.sector (s.count f.sector - 1) x =
      s.others x + (s.live.erase f).countP (·.sector = x)
    rw [Function.update_apply]
    by_cases hx : x = f.sector
    · subst hx
      rw [if_pos rfl] at hsplit ⊢
      omega
    · rw [if_neg fun heq => hx heq.symm] at hsplit
      rw [if_neg hx]
      omega
  · cases h

theorem scOpen_some (s : ThreadFiles) (sector : ℕ) : s.scOpen (some sector) =
    { (s.construct sector).2 with
      openedFilesTable := (s.openedFilesTable.add (some ⟨s.nextId, sector⟩)).2
      registered :=
        if (s.openedFilesTable.add (some ⟨s.nextId, sector⟩)).1 < 0 then s.registered
        else Function.update s.registered (s.openedFilesTable.add (some ⟨s.nextId, sector⟩)).1
          (some ⟨s.nextId, sector⟩) } := rfl

theorem Inv.scOpen (h : s.Inv) (sector : Option ℕ) : (s.scOpen sector).Inv := by
  cases sector with
  | none => exact h
  | some sector =>
    set f : OpenedFile := ⟨s.nextId, sector⟩ with hf
    have hnew : f ∉ s.live := fun hmem => absurd (h.fresh f hmem) (lt_irrefl _)
    have hnodup : (f :: s.live).Nodup := List.nodup_cons.mpr ⟨hnew, h.nodup⟩
    have hfresh : ∀ g ∈ f :: s.live, g.id < s.nextId + 1 := by
      intro g hg
      rcases List.mem_cons.mp hg with rfl | hg
      · exact Nat.lt_succ_self _
      · have := h.fresh g hg
        omega
    have hstale : ∀ i g, 2 ≤ i → i < s.openedFilesTable.current →
        s.openedFilesTable.data i = some g → g.id < s.nextId + 1 ∧
        (s.registered i = none → g ∉ f :: s.live) := by
      intro i g h2 hi hg
      obtain ⟨hid, hdead⟩ := h.stale i g h2 hi hg
      refine ⟨by omega, fun hr hmem => ?_⟩
      rcases List.mem_cons.mp hmem with rfl | hmem
      · exact absurd hid (lt_irrefl _)
      · exact hdead hr hmem
    rcases add_spec h.table f with ha | ⟨fd, t', ha, h2, hdata, hcur⟩
    · have hs : s.scOpen (some sector) = (s.construct sector).2 := by
        rw [scOpen_some, ha]
        rfl
      rw [hs]
      refine ⟨h.table, hnodup, hfresh, fun i g hg => ?_, h.injective, hstale,
        h.construct_counts sector⟩
      obtain ⟨hi, hd, hl⟩ := h.registered i g hg
      exact ⟨hi, hd, List.mem_cons_of_mem _ hl⟩
    · have hs : s.scOpen (some sector) = { (s.construct sector).2 with
          openedFilesTable := t', registered := Function.update s.registered fd (some f) } := by
        rw [scOpen_some, ha, if_neg (by dsimp only; omega)]
      have htable := h.table.add f
      rw [ha] at htable
      rw [hs]
      refine ⟨htable, hnodup, hfresh, fun i g hg => ?_, fun i j g hi hj => ?_,
        fun i g hi hlt hg => ?_,
        h.construct_counts sector⟩
      · dsimp only at hg ⊢
        rw [Function.update_apply] at hg
        rw [hdata, Function.update_apply]
        split at hg
        · rename_i heq
          subst heq
          rw [if_pos rfl]
          obtain rfl := Option.some.inj hg
          exact ⟨h2, rfl, List.mem_cons_self⟩
        · rename_i hne
          obtain ⟨hi, hd, hl⟩ := h.registered i g hg
          rw [if_neg hne]
          exact ⟨hi, hd, List.mem_cons_of_mem _ hl⟩
      · -- the new object is registered nowhere else
        have hnone : ∀ k, s.registered k ≠ some f := fun k hk => hnew (h.registered k f hk).2.2
        dsimp only at hi hj
        rw [Function.update_apply] at hi hj
        split at hi
        · rename_i hi'
          split at hj
          · rename_i hj'
            rw [hi', hj']
          · obtain rfl := Option.some.inj hi
            exact absurd hj (hnone j)
        · split at hj
          · obtain rfl := Option.some.inj hj
            exact absurd hi (hnone i)
          · exact h.injective i j g hi hj
      · dsimp only at hg hlt ⊢
        rw [hdata, Function.update_apply] at hg
        rw [Function.update_apply]
        split at hg
        · rename_i heq
          obtain rfl := Option.some.inj hg
          rw [if_pos heq]
          exact ⟨Nat.lt_succ_self _, fun hn => by cases hn⟩
        · rename_i hne
          rw [if_neg hne]
          exact hstale i g hi ((hcur i hlt).resolve_right hne) hg

/-- What a descriptor that is a key stands for. -/
theorem Inv.get_eq (h : s.Inv) {i : ℤ} (h2 : 2 ≤ i)
    (hocc : s.openedFilesTable.occupied i = true) :
    ∃ f, s.openedFilesTable.get i = some (some f) ∧ s.openedFilesTable.data i = some f ∧
      (f ∈ s.live → s.registered i = some f) := by
  have hlt := ((Table.occupied_iff _ _).mp hocc).1
  obtain ⟨f, hf⟩ := Option.isSome_iff_exists.mp (h.table.objects i h2 hlt)
  refine ⟨f, ?_, hf, fun hlive => ?_⟩
  · rw [Table.get, if_pos (by omega), if_pos hocc, hf]
  · cases hr : s.registered i with
    | none => exact absurd hlive ((h.stale i f h2 hlt hf).2 hr)
    | some g =>
      obtain ⟨-, hg, -⟩ := h.registered i g hr
      rw [← hg, hf]

theorem Inv.scClose (h : s.Inv) {fid : ℤ} (hs : s.scClose fid = some s') : s'.Inv := by
  simp only [ThreadFiles.scClose, Option.bind_eq_bind, Option.bind_eq_some_iff] at hs
  obtain ⟨present, hkey, hs⟩ := hs
  split at hs
  · rename_i hcond
    simp only [Option.bind_eq_some_iff] at hs
    obtain ⟨o, hget, s₁, hdel, ⟨x, t'⟩, hrem, heq⟩ := hs
    obtain ⟨hpresent, hn0, hn1⟩ := hcond
    have h0 : 0 ≤ fid := by
      by_contra hn
      rw [Table.hasKey, if_neg hn] at hkey
      cases hkey
    have hocc : s.openedFilesTable.occupied fid = true := by
      rw [Table.hasKey, if_pos h0] at hkey
      rw [Option.some.inj hkey]
      exact hpresent
    have h2 : 2 ≤ fid := by omega
    obtain ⟨f, hgot, -, hreg⟩ := h.get_eq h2 hocc
    rw [hgot] at hget
    obtain rfl := Option.some.inj hget
    obtain ⟨hlive, htable, hregs, hothers, hid, hl, hnodup, hcounts⟩ :=
      destroy_spec h.nodup h.counts hdel
    have hfid := hreg hlive
    obtain ⟨hdata, hcur⟩ := remove_spec hrem
    have hdesc : Descriptors t' := by
      obtain ⟨x', t'', hrem', hd⟩ := h.table.remove h2
      rw [htable, hrem'] at hrem
      obtain ⟨-, rfl⟩ := Prod.mk.inj (Option.some.inj hrem)
      exact hd
    rw [htable] at hdata hcur
    have hmem : ∀ g, g ∈ s₁.live → g ∈ s.live := fun g hg => by
      rw [hl] at hg
      exact List.mem_of_mem_erase hg
    obtain rfl := Option.some.inj heq
    refine ⟨hdesc, hnodup, fun g hg => ?_, fun i g hg => ?_, fun i j g hi hj => ?_,
      fun i g hi hlt hg => ?_, hcounts⟩
    · show g.id < s₁.nextId
      rw [hid]
      exact h.fresh g (hmem g hg)
    · dsimp only at hg ⊢
      rw [hregs, Function.update_apply] at hg
      split at hg
      · cases hg
      · rename_i hne
        obtain ⟨hi, hd, hlv⟩ := h.registered i g hg
        refine ⟨hi, by rw [hdata, hd], ?_⟩
        rw [hl]
        refine (List.mem_erase_of_ne fun heq => hne ?_).mpr hlv
        subst heq
        exact h.injective i fid g hg hfid
    · dsimp only at hi hj
      rw [hregs, Function.update_apply] at hi hj
      split at hi
      · cases hi
      · split at hj
        · cases hj
        · exact h.injective i j g hi hj
    · dsimp only at hlt hg ⊢
      rw [hdata] at hg
      rw [hregs, hid, Function.update_apply]
      obtain ⟨hgid, hdead⟩ := h.stale i g hi (by omega) hg
      refine ⟨hgid, fun hnone hmem' => ?_⟩
      split at hnone
      · rename_i heq
        subst heq
        have hfg : f = g := by
          have hdf := (h.registered i f hfid).2.1
          rw [hg] at hdf
          exact (Option.some.inj hdf).symm
        subst hfg
        rw [hl] at hmem'
        exact h.nodup.not_mem_erase hmem'
      · exact hdead hnone (hmem g hmem')
  · obtain rfl := Option.some.inj hs
    exact h

/-- **A step keeps the invariant.** -/
theorem Inv.step (h : s.Inv) {a : Action} (hs : s.step a = some s') : s'.Inv := by
  cases a with
  | «open» sector =>
    obtain rfl := Option.some.inj hs
    exact h.scOpen sector
  | close fid => exact h.scClose hs
  | othersOpen x =>
    obtain rfl := Option.some.inj hs
    refine ⟨h.table, h.nodup, h.fresh, h.registered, h.injective, h.stale, fun y => ?_⟩
    have hcount := h.counts y
    dsimp only
    rw [Function.update_apply, Function.update_apply]
    split
    · rename_i heq
      subst heq
      omega
    · exact hcount
  | othersClose x =>
    rw [ThreadFiles.step] at hs
    split at hs
    · rename_i hpos
      obtain rfl := Option.some.inj hs
      refine ⟨h.table, h.nodup, h.fresh, h.registered, h.injective, h.stale, fun y => ?_⟩
      have hcount := h.counts y
      dsimp only
      rw [Function.update_apply, Function.update_apply]
      split
      · rename_i heq
        subst heq
        omega
      · exact hcount
    · cases hs

theorem Reached.inv (h : Reached s) : s.Inv := by
  obtain ⟨data, others, tr, h⟩ := h
  refine Run.invariant (I := fun _ s => s.Inv) (inv_constructed data others) ?_ h
  intro tr s a s' hs _ hstep
  exact hs.step hstep

end Steps

/-! ## The destructor -/

section Destructor
variable {s s' : ThreadFiles}

/-- Deleting one object after another. -/
def deleteAll : ThreadFiles → List OpenedFile → Option ThreadFiles
  | s, [] => some s
  | s, f :: fs => (s.destroy f).bind (·.deleteAll fs)

/-- The objects at descriptors `i`, …, `i + n - 1`. -/
def objects (s : ThreadFiles) : ℕ → ℤ → List OpenedFile
  | 0, _ => []
  | n + 1, i => (s.openedFilesTable.data i).toList ++ s.objects n (i + 1)

theorem objects_congr (h : s'.openedFilesTable = s.openedFilesTable) (n : ℕ) (i : ℤ) :
    s'.objects n i = s.objects n i := by
  induction n generalizing i with
  | zero => rfl
  | succ n ih => rw [objects, objects, h, ih]

theorem mem_objects {n : ℕ} {i : ℤ} {f : OpenedFile} :
    f ∈ s.objects n i ↔ ∃ j, i ≤ j ∧ j < i + n ∧ s.openedFilesTable.data j = some f := by
  induction n generalizing i with
  | zero =>
    refine ⟨fun h => absurd h List.not_mem_nil, ?_⟩
    rintro ⟨j, h1, h2, -⟩
    push_cast at h2
    omega
  | succ n ih =>
    rw [objects, List.mem_append, ih, Option.mem_toList]
    constructor
    · rintro (h | ⟨j, h1, h2, hj⟩)
      · exact ⟨i, le_refl _, by push_cast; omega, h⟩
      · exact ⟨j, by omega, by push_cast; omega, hj⟩
    · rintro ⟨j, h1, h2, hj⟩
      push_cast at h2
      by_cases heq : j = i
      · rw [← heq]
        exact Or.inl hj
      · exact Or.inr ⟨j, by omega, by omega, hj⟩

theorem destroy_table {f : OpenedFile} (h : s.destroy f = some s') :
    s'.openedFilesTable = s.openedFilesTable := by
  unfold destroy at h
  split at h
  · obtain rfl := Option.some.inj h
    rfl
  · cases h

/-- **The loop of the destructor** deletes the objects at the descriptors before the first index
that is not a key. -/
theorem deleteOpened_eq {n m : ℕ} {i : ℤ} (hi : 0 ≤ i) (hnm : n < m)
    (hkeys : ∀ j, i ≤ j → j < i + n → s.openedFilesTable.occupied j = true)
    (hstop : s.openedFilesTable.occupied (i + n) = false) :
    deleteOpened m i s = (s.deleteAll (s.objects n i)).map (s.objects n i, ·) := by
  induction n generalizing m i s with
  | zero =>
    obtain ⟨m, rfl⟩ := Nat.exists_eq_succ_of_ne_zero (show m ≠ 0 by omega)
    rw [deleteOpened, Table.hasKey, if_pos hi]
    rw [Nat.cast_zero, add_zero] at hstop
    rw [hstop]
    rfl
  | succ n ih =>
    obtain ⟨m, rfl⟩ := Nat.exists_eq_succ_of_ne_zero (show m ≠ 0 by omega)
    have hocc := hkeys i (le_refl _) (by push_cast; omega)
    have hrest : ∀ s₁ : ThreadFiles, s₁.openedFilesTable = s.openedFilesTable →
        deleteOpened m (i + 1) s₁ =
          (s₁.deleteAll (s.objects n (i + 1))).map (s.objects n (i + 1), ·) := by
      intro s₁ ht
      rw [← objects_congr ht]
      refine ih (by omega) (by omega) (fun j h1 h2 => ?_) ?_
      · rw [ht]
        exact hkeys j (by omega) (by push_cast; omega)
      · rw [ht]
        convert hstop using 2
        push_cast
        omega
    rw [deleteOpened, Table.hasKey, if_pos hi, hocc, Table.get, if_pos hi, if_pos hocc, objects]
    cases hd : s.openedFilesTable.data i with
    | none =>
      rw [Option.toList_none, List.nil_append]
      show (deleteOpened m (i + 1) s).bind _ = _
      rw [hrest s rfl]
      cases s.deleteAll (s.objects n (i + 1)) <;> rfl
    | some f =>
      show (s.destroy f).bind _ =
        ((s.destroy f).bind (·.deleteAll (s.objects n (i + 1)))).map _
      cases hf : s.destroy f with
      | none => rfl
      | some s₁ =>
        show (deleteOpened m (i + 1) s₁).bind _ = _
        rw [hrest s₁ (destroy_table hf), Option.bind_some]
        cases s₁.deleteAll (s.objects n (i + 1)) <;> rfl

/-- Deleting objects that are there, each once. -/
theorem deleteAll_spec {fs : List OpenedFile} (hn : s.live.Nodup)
    (hc : ∀ x, s.count x = s.others x + s.live.countP (·.sector = x)) :
    (∃ s', s.deleteAll fs = some s') ↔ fs.Nodup ∧ ∀ f ∈ fs, f ∈ s.live := by
  induction fs generalizing s with
  | nil => exact iff_of_true ⟨s, rfl⟩ ⟨List.nodup_nil, fun f hf => absurd hf List.not_mem_nil⟩
  | cons f fs ih =>
    by_cases hf : f ∈ s.live
    · obtain ⟨s₁, hs₁⟩ : ∃ s₁, s.destroy f = some s₁ := ⟨_, if_pos hf⟩
      obtain ⟨-, -, -, -, -, hl, hn₁, hc₁⟩ := destroy_spec hn hc hs₁
      rw [deleteAll, hs₁, Option.bind_some, ih hn₁ hc₁, hl, List.nodup_cons]
      constructor
      · rintro ⟨hnd, hall⟩
        have hmem : ∀ g ∈ fs, g ≠ f ∧ g ∈ s.live := fun g hg => hn.mem_erase_iff.mp (hall g hg)
        refine ⟨⟨fun hin => (hmem f hin).1 rfl, hnd⟩, fun g hg => ?_⟩
        rcases List.mem_cons.mp hg with rfl | hg
        · exact hf
        · exact (hmem g hg).2
      · rintro ⟨⟨hnot, hnd⟩, hall⟩
        refine ⟨hnd, fun g hg => hn.mem_erase_iff.mpr ⟨?_, hall g (List.mem_cons_of_mem _ hg)⟩⟩
        rintro rfl
        exact hnot hg
    · refine iff_of_false ?_ fun h => hf (h.2 f List.mem_cons_self)
      rw [deleteAll, destroy, if_neg hf]
      rintro ⟨s', hs'⟩
      cases hs'

theorem deleteAll_live {fs : List OpenedFile} (hn : s.live.Nodup)
    (hc : ∀ x, s.count x = s.others x + s.live.countP (·.sector = x))
    (h : s.deleteAll fs = some s') : (∀ f, f ∈ s'.live ↔ f ∈ s.live ∧ f ∉ fs) ∧
      ∀ x, s'.count x = s.others x + s'.live.countP (·.sector = x) := by
  induction fs generalizing s with
  | nil =>
    obtain rfl := Option.some.inj h
    exact ⟨fun f => ⟨fun hf => ⟨hf, List.not_mem_nil⟩, fun hf => hf.1⟩, hc⟩
  | cons f fs ih =>
    rw [deleteAll, Option.bind_eq_some_iff] at h
    obtain ⟨s₁, hs₁, h⟩ := h
    obtain ⟨-, -, -, ho, -, hl, hn₁, hc₁⟩ := destroy_spec hn hc hs₁
    obtain ⟨hlive, hcounts⟩ := ih hn₁ hc₁ h
    refine ⟨fun g => ?_, ?_⟩
    · rw [hlive, hl, hn.mem_erase_iff, List.mem_cons]
      tauto
    · rw [ho] at hcounts
      exact hcounts

/-- The first index that is not a key, and what the destructor does with it. -/
theorem Inv.destroyThread_eq (h : s.Inv) : ∃ n : ℕ, s.openedFilesTable.occupied n = false ∧
    (∀ i : ℤ, 0 ≤ i → i < n → s.openedFilesTable.occupied i = true) ∧
    s.destroyThread = (s.deleteAll (s.objects n 0)).map (s.objects n 0, ·) := by
  have hcurrent : s.openedFilesTable.occupied s.openedFilesTable.current.toNat = false := by
    have := h.table.two_le
    rw [Bool.eq_false_iff]
    intro hocc
    have := ((Table.occupied_iff _ _).mp hocc).1
    omega
  have hex : ∃ n : ℕ, s.openedFilesTable.occupied n = false := ⟨_, hcurrent⟩
  have hkeys : ∀ i : ℤ, 0 ≤ i → i < Nat.find hex → s.openedFilesTable.occupied i = true := by
    intro i h0 hi
    have := Nat.find_min hex (m := i.toNat) (by omega)
    rw [Int.toNat_of_nonneg h0, Bool.not_eq_false] at this
    exact this
  have hle := Nat.find_min' hex hcurrent
  refine ⟨Nat.find hex, Nat.find_spec hex, hkeys, ?_⟩
  refine deleteOpened_eq (le_refl 0) (by omega) (fun j h0 hj => hkeys j h0 (by omega)) ?_
  rw [zero_add]
  exact Nat.find_spec hex

/-- The objects at the first descriptors, if these are keys. -/
theorem Inv.mem_objects_iff (h : s.Inv) {n : ℕ}
    (hkeys : ∀ i : ℤ, 0 ≤ i → i < n → s.openedFilesTable.occupied i = true) {f : OpenedFile} :
    f ∈ s.objects n 0 ↔
      ∃ i : ℤ, 2 ≤ i ∧ i < n ∧ s.openedFilesTable.occupied i = true ∧
        s.openedFilesTable.data i = some f := by
  rw [mem_objects]
  constructor
  · rintro ⟨i, h0, hn, hd⟩
    refine ⟨i, ?_, by omega, hkeys i h0 (by omega), hd⟩
    -- the console has no object
    by_contra hlt
    obtain rfl | rfl : i = 0 ∨ i = 1 := by omega
    · rw [h.table.console.1] at hd
      cases hd
    · rw [h.table.console.2] at hd
      cases hd
  · rintro ⟨i, h2, hn, -, hd⟩
    exact ⟨i, by omega, by omega, hd⟩

/-- If the objects at the first descriptors are all there and no two are the same, each is
registered at its descriptor. -/
theorem Inv.objects_nodup (h : s.Inv) {n : ℕ} {i : ℤ}
    (hreg : ∀ j, i ≤ j → j < i + n → ∀ f, s.openedFilesTable.data j = some f →
      s.registered j = some f) : (s.objects n i).Nodup := by
  induction n generalizing i with
  | zero => exact List.nodup_nil
  | succ n ih =>
    rw [objects]
    have hrest := ih (i := i + 1) fun j h1 h2 => hreg j (by omega) (by push_cast; omega)
    cases hd : s.openedFilesTable.data i with
    | none => exact hrest
    | some f =>
      refine List.nodup_cons.mpr ⟨fun hmem => ?_, hrest⟩
      obtain ⟨j, h1, h2, hj⟩ := mem_objects.mp hmem
      have hi := hreg i (le_refl _) (by push_cast; omega) f hd
      have hj' := hreg j (by omega) (by push_cast; omega) f hj
      have := h.injective i j f hi hj'
      omega

end Destructor

/-- **When `~Thread` closes all files of the thread**: exactly if there is no hole. -/
theorem closesAll_iff {s : ThreadFiles} (hs : Reached s) : s.ClosesAll ↔ s.Gapless := by
  have h := hs.inv
  obtain ⟨n, hstop, hkeys, hdestroy⟩ := h.destroyThread_eq
  have hn2 : (2 : ℤ) ≤ n := by
    by_contra hlt
    have hocc : s.openedFilesTable.occupied n = true := by
      refine (Table.occupied_iff _ _).mpr ⟨by have := h.table.two_le; omega, fun hmem => ?_⟩
      obtain ⟨e, he, hei⟩ := List.mem_map.mp hmem
      have := h.table.freed e he
      omega
    rw [hocc] at hstop
    cases hstop
  constructor
  · rintro ⟨deleted, s', hrun, hregs, hback, -, -⟩
    rw [hdestroy, Option.map_eq_some_iff] at hrun
    obtain ⟨s₁, hall, heq⟩ := hrun
    obtain ⟨rfl, -⟩ := Prod.mk.inj heq
    obtain ⟨-, hlive⟩ := (deleteAll_spec h.nodup h.counts).mp ⟨s₁, hall⟩
    -- what is deleted at a descriptor is registered there
    have hat : ∀ i : ℤ, 2 ≤ i → i < n → ∃ f, s.registered i = some f := by
      intro i h2 hi
      obtain ⟨f, -, hd, hreg⟩ := h.get_eq h2 (hkeys i (by omega) hi)
      exact ⟨f, hreg (hlive f ((h.mem_objects_iff hkeys).mpr
        ⟨i, h2, hi, hkeys i (by omega) hi, hd⟩))⟩
    refine ⟨n, hstop, hkeys, fun i => ?_⟩
    constructor
    · intro hsome
      obtain ⟨f, hf⟩ := Option.isSome_iff_exists.mp hsome
      have hmem : f ∈ s.objects n 0 := List.count_pos_iff.mp (by rw [hregs f ⟨i, hf⟩]; decide)
      obtain ⟨j, h2, hj, -, hd⟩ := (h.mem_objects_iff hkeys).mp hmem
      obtain ⟨g, hg⟩ := hat j h2 hj
      have hdg := (h.registered j g hg).2.1
      rw [hd] at hdg
      obtain rfl := Option.some.inj hdg
      have := h.injective i j f hf hg
      omega
    · rintro ⟨h2, hi⟩
      obtain ⟨f, hf⟩ := hat i h2 hi
      rw [hf]
      rfl
  · rintro ⟨m, hstop', hkeys', hreg⟩
    have hmn : m = n := by
      rcases lt_trichotomy m n with hlt | heq | hlt
      · have hm0 : 0 ≤ m := by
          by_contra hneg
          -- then no descriptor is registered, but 0 is a key
          have hocc : s.openedFilesTable.occupied m = true := by
            refine (Table.occupied_iff _ _).mpr ⟨by have := h.table.two_le; omega, fun hmem => ?_⟩
            obtain ⟨e, he, hei⟩ := List.mem_map.mp hmem
            have := h.table.freed e he
            omega
          rw [hocc] at hstop'
          cases hstop'
        rw [hkeys m hm0 hlt] at hstop'
        cases hstop'
      · exact heq
      · rw [hkeys' n (by omega) hlt] at hstop
        cases hstop
    subst hmn
    -- every object at a key is registered there
    have hdata : ∀ j : ℤ, 0 ≤ j → j < 0 + n → ∀ f, s.openedFilesTable.data j = some f →
        s.registered j = some f := by
      intro j h0 hj f hd
      have h2 : 2 ≤ j := by
        by_contra hlt
        obtain rfl | rfl : j = 0 ∨ j = 1 := by omega
        · rw [h.table.console.1] at hd
          cases hd
        · rw [h.table.console.2] at hd
          cases hd
      obtain ⟨g, hg⟩ := Option.isSome_iff_exists.mp ((hreg j).mpr ⟨h2, by omega⟩)
      have hdg := (h.registered j g hg).2.1
      rw [hd] at hdg
      rw [hg, Option.some.inj hdg]
    have hnodup := h.objects_nodup hdata
    have hiff : ∀ f, f ∈ s.objects n 0 ↔ ∃ i, s.registered i = some f := by
      intro f
      constructor
      · intro hf
        obtain ⟨j, h2, hj, -, hd⟩ := (h.mem_objects_iff hkeys).mp hf
        exact ⟨j, hdata j (by omega) (by omega) f hd⟩
      · rintro ⟨i, hi⟩
        obtain ⟨h2, hd, -⟩ := h.registered i f hi
        have hin := ((hreg i).mp (by rw [hi]; rfl)).2
        exact (h.mem_objects_iff hkeys).mpr ⟨i, h2, hin, hkeys i (by omega) hin, hd⟩
    have hlive : ∀ f ∈ s.objects n 0, f ∈ s.live := by
      intro f hf
      obtain ⟨i, hi⟩ := (hiff f).mp hf
      exact (h.registered i f hi).2.2
    obtain ⟨s', hall⟩ := (deleteAll_spec h.nodup h.counts).mpr ⟨hnodup, hlive⟩
    obtain ⟨hleft, hcounts⟩ := deleteAll_live h.nodup h.counts hall
    refine ⟨s.objects n 0, s', by rw [hdestroy, hall]; rfl, fun f hf => ?_,
      fun f hf => (hiff f).mp hf,
      fun f hf i hi => ?_, hcounts⟩
    · exact List.count_eq_one_of_mem hnodup ((hiff f).mpr hf)
    · exact ((hleft f).mp hf).2 ((hiff f).mpr ⟨i, hi⟩)

/-- A thread that has opened two files and closed none. -/
theorem closesAll_iff_twoFiles : ∃ s, Reached s ∧ s.openedFilesTable.current = 4 ∧
    (s.ClosesAll ↔ s.Gapless) := by
  obtain ⟨r, hr, hcurrent⟩ : ∃ r, play step (fun _ _ => ([] : List Unit))
      (constructed (fun _ => none) (fun _ => 0)) [.open (some 5), .open (some 6)] = some r ∧
      r.2.openedFilesTable.current = 4 := ⟨_, rfl, rfl⟩
  have hreached : Reached r.2 := ⟨_, _, _, Run.start.play hr⟩
  exact ⟨r.2, hreached, hcurrent, closesAll_iff hreached⟩

/-- A thread opens two files and closes the first: the second stays open for ever. -/
theorem destroyThread_misses : ∃ s, Reached s ∧ ¬ s.ClosesAll := by
  obtain ⟨r, hr, hdestroy, hreg⟩ : ∃ r, play step (fun _ _ => ([] : List Unit))
      (constructed (fun _ => none) (fun _ => 0))
      [.open (some 5), .open (some 6), .close 2] = some r ∧
      (r.2.destroyThread.map Prod.fst) = some [] ∧ r.2.registered 3 = some ⟨1, 6⟩ :=
    ⟨_, rfl, rfl, rfl⟩
  refine ⟨r.2, ⟨_, _, _, Run.start.play hr⟩, ?_⟩
  rintro ⟨deleted, s', hrun, hregs, -⟩
  rw [hrun] at hdestroy
  obtain rfl := Option.some.inj hdestroy
  have := hregs _ ⟨3, hreg⟩
  cases this

end ThreadFiles
end PaldOs
