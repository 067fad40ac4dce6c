import PaldOs.Filling

/-! # Counts of open files

`openFilesTable` counts the open files on every sector, and a remover waits until there are none.
The counts are exact when no handle was lost: `ChangeDir` with an absolute path keeps the last
directory on the way open when the next name is not there, and so does `Create`; a `CreateDir` that
returns early keeps the directory it started from open.
-/
namespace PaldOs

namespace World

/-- The `OpenFile` objects in use: the free map, the current directory and those of the thread. -/
def inUse (w : World) : List ℕ := w.sys.freeMapFile :: w.sys.directoryFile :: w.handles

/-- **Counts are exact**: every sector has as many open files as are in use. -/
def CountsExact (w : World) : Prop :=
  ∀ x, (w.sys.openFilesTable x).count =
    w.inUse.countP (fun f => (w.sys.openFile f).sector == x)

end World

section Counts
variable {disk : ℕ → Sector} {w : World} {V : Volume} {c : ℕ} {rest : List (ℕ × ℕ)}

/-- The handles of the volume are the objects in use. -/
theorem Live.inUse_perm (hl : Live w V c rest) : (V.handles.map Prod.fst).Perm w.inUse := by
  rw [hl.idle.handles, List.map_cons]
  exact (hl.handles.cons _).trans (List.Perm.swap ..)

theorem Live.countP_handles (hl : Live w V c rest) (x : ℕ) :
    V.handles.countP (fun p => p.2 == x) =
      w.inUse.countP (fun f => (w.sys.openFile f).sector == x) := by
  rw [← hl.inUse_perm.countP_eq, List.countP_map]
  refine List.countP_congr fun p hp => ?_
  have hsector := hl.idle.ready.handles.sector p.1 p.2 hp
  rw [Function.comp_apply, hsector]

/-- The counts are exact if they have nothing too much. -/
theorem Live.countsExact_iff (hl : Live w V c rest) : w.CountsExact ↔ ∀ x, V.extra x = 0 := by
  refine forall_congr' fun x => ?_
  rw [hl.idle.ready.handles.counts x, hl.countP_handles x]
  omega

/-- **What a call does to exact counts.** -/
theorem Steps.countsExact_iff {call : Call} {w' : World} {V' : Volume} {c' : ℕ}
    {rest' : List (ℕ × ℕ)} (hs : Steps w call V w' V') (hl : Live w V c rest)
    (hl' : Live w' V' c' rest') (hexact : w.CountsExact) : w'.CountsExact ↔ w.Returns call := by
  rw [hl.countsExact_iff] at hexact
  rw [hl'.countsExact_iff]
  constructor
  · intro hextra
    by_contra hlost
    obtain ⟨x, hx⟩ := hs.lost hlost
    exact hx (hextra x)
  · intro hret x
    have hle := hs.returns hret x
    rw [hexact x] at hle
    exact Nat.le_zero.mp hle

/-- A directory that nobody holds has not to be waited for. -/
theorem Live.removeDir_proceeds (hl : Live w V c rest) (hexact : w.CountsExact)
    {name : List UInt8} {x : ℕ} (hx : (tableAt w.sys.disk w.current).find name = some x)
    (hnobody : ∀ f ∈ w.inUse, (w.sys.openFile f).sector ≠ x) :
    ∃ w', w.perform (.removeDir name) = some w' := by
  refine hl.proceeds trivial fun y hy => ?_
  have htarget : removeTarget w.sys.disk w.current name true =
      (tableAt w.sys.disk w.current).find name := by
    rw [removeTarget, Bool.not_true, Bool.and_false]
    rfl
  obtain rfl : x = y := by
    rw [htarget, hx] at hy
    exact Option.some.inj hy
  rw [hexact x, List.countP_eq_zero]
  intro f hf
  rw [beq_iff_eq]
  exact hnobody f hf

/-- After calls that lose no handle the counts are exact. -/
theorem Formatted.countsExact {w₀ : World} {calls : List Call} (hf : Formatted disk)
    (hboot : World.boot disk = some w₀)
    (hs : Session (fun w call => w.Typed call ∧ w.Returns call) w₀ calls w) :
    ∃ V c rest, Live w V c rest ∧ w.CountsExact := by
  obtain ⟨w₁, handles, rest, hboot', hl, -⟩ := hf.live
  obtain rfl := Option.some.inj (hboot.symm.trans hboot')
  obtain ⟨V, c, rest', hl', hextra⟩ := hs.invariant
    (P := fun V => ∀ x, V.extra x = 0) hl (fun _ => rfl) (fun _ _ hg => hg.1)
    fun w call V w' V' hg hsteps hP x => Nat.le_zero.mp ((hsteps.returns hg.2 x).trans (hP x).le)
  exact ⟨V, c, rest', hl', hl'.countsExact_iff.mpr hextra⟩

end Counts

/-- **Counts of open files**, after any session of calls that lose no handle: they are exact, a
`RemoveDir` of a directory that nobody holds comes back, and the next call leaves them exact if and
only if it loses no handle. -/
theorem counts_exact_iff {disk : ℕ → Sector} (hf : Formatted disk) :
    ∃ w₀, World.boot disk = some w₀ ∧
      ∀ calls w, Session (fun w call => w.Typed call ∧ w.Returns call) w₀ calls w →
        w.CountsExact ∧
        (∀ name x, (tableAt w.sys.disk w.current).find name = some x →
          (∀ f ∈ w.inUse, (w.sys.openFile f).sector ≠ x) →
          ∃ w', w.perform (.removeDir name) = some w') ∧
        ∀ call w', w.Typed call → w.perform call = some w' →
          (w'.CountsExact ↔ w.Returns call) := by
  obtain ⟨w₀, handles, rest, hboot, hl, -⟩ := hf.live
  refine ⟨w₀, hboot, fun calls w hs => ?_⟩
  obtain ⟨V, c, rest', hl', hexact⟩ := hf.countsExact hboot hs
  refine ⟨hexact, fun name x hx hnobody => hl'.removeDir_proceeds hexact hx hnobody,
    fun call w' htyped hperform => ?_⟩
  rcases hl'.perform htyped with
    ⟨w₁, V₁, c₁, rest₁, hperform₁, hl₁, hsteps⟩ | ⟨-, hnone⟩
  · obtain rfl := Option.some.inj (hperform.symm.trans hperform₁)
    exact hsteps.countsExact_iff hl' hl₁ hexact
  · rw [hperform] at hnone
    cases hnone

/-- Three files are created, and the first is opened. -/
theorem counts_exact_iff_blank : Formatted blankDisk ∧ ∃ w₀ f w, World.boot blankDisk = some w₀ ∧
    Session (fun w call => w.Typed call ∧ w.Returns call) w₀
      (crowd 3 ++ [.openFile (letter 0)]) w ∧ f ∈ w.handles ∧
    w.CountsExact ∧
    (∀ name x, (tableAt w.sys.disk w.current).find name = some x →
      (∀ f ∈ w.inUse, (w.sys.openFile f).sector ≠ x) →
      ∃ w', w.perform (.removeDir name) = some w') ∧
    ∀ call w', w.Typed call → w.perform call = some w' → (w'.CountsExact ↔ w.Returns call) := by
  obtain ⟨w₀, w, V, rest, hboot, hs, h, hempty⟩ := crowded (k := 3) (by decide)
  obtain ⟨s', f, V', rest', hopen, -⟩ := h.openFile hempty (by decide)
  have hs' : Session (fun w call => w.Typed call ∧ w.Returns call) w₀ (crowd 3) w :=
    Run.mono (fun _ _ _ hg => ⟨hg.2.1, hg.2.2.2⟩) hs
  have hs'' := hs'.next (.openFile (letter 0)) ⟨trivial, trivial⟩ hopen
  obtain ⟨w₁, hboot', hcounts⟩ := counts_exact_iff blankDisk_formatted
  obtain rfl := Option.some.inj (hboot.symm.trans hboot')
  exact ⟨blankDisk_formatted, w₀, f, _, hboot, hs'', List.mem_cons_self, hcounts _ _ hs''⟩

/-- The path `/x`. -/
def missingPath : List UInt8 := [slash, 120]

/-- `ChangeDir` to a directory that is not there: the root is open once more than it is in use. -/
theorem changeDir_loses_handle : Formatted blankDisk ∧ ∃ w₀ w, World.boot blankDisk = some w₀ ∧
    Session World.Legal w₀ [.changeDir missingPath] w ∧ ¬ w.CountsExact := by
  refine ⟨blankDisk_formatted, ?_⟩
  obtain ⟨w₀, handles, rest, hboot, hl, -⟩ := blankDisk_formatted.live
  have hfits : PathFits missingPath := by
    intro _
    decide
  have hexact : w₀.CountsExact := hl.countsExact_iff.mpr fun _ => rfl
  obtain ⟨w, V, c, rest', hperform, hlive, hsteps⟩ := hl.changeDir hfits
  have hstart : Session World.Legal w₀ [] w₀ := .start
  refine ⟨w₀, w, hboot, hstart.next (.changeDir missingPath) hfits hperform, ?_⟩
  rw [hsteps.countsExact_iff hl hlive hexact]
  intro hret
  have hfile : (emptyVolume blankDisk handles).files directorySector =
      some ⟨[directorySector], some (rootTable blankDisk)⟩ := emptyVolume_files_self
  have hnone :
      (Volume.table (emptyVolume blankDisk handles) directorySector).findDir [120] = false := by
    rw [Bool.eq_false_iff, ne_eq, Directory.findDir_iff]
    rintro ⟨q, hq, -⟩
    rw [table_of_files hfile, DirectoryEntry.named, (blankDisk_formatted.rootTable_slot q).1,
      Bool.false_and] at hq
    cases hq
  have habs : missingPath.head? = some slash := rfl
  have hnames : tokens missingPath.tail = [[120]] := by decide
  have hsome := hret habs
  rw [hl.idle.current_eq, hl.idle.ready.disk.destination_eq hl.idle.ready.tree hl.idle.kind,
    destination, if_pos habs, hnames, resolve, hnone] at hsome
  cases hsome

end PaldOs
