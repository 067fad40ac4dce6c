import PaldOs.Filling

/-! # What a create leaves on the disk

`Create` and `CreateDir` store the header of the new file and the free map before the entry, and
`WriteBack` does not say whether the entry was written: with too little space for it they return
true and the name is not there.  The entry of a file by which a directory grows is not cleared
before it is filled: if there is a byte other than zero in the place of `isDirectory`, the file is
read back as a directory.

If they return false nothing was stored.  But the number of entries of the current directory may
have been noted too large, and `CreateDir` may have left the current directory for good.
-/
namespace PaldOs

open Sys

/-- **The create is durable.**  The directory at `p`, read again, has the name, with a sector that
was free and the type that was asked for; entries and files are those they were. -/
structure Durable (disk disk' : ℕ → Sector) (p : ℕ) (base : List UInt8) (isDirectory : Bool) :
    Prop where
  bound : ∃ j sector, ((tableAt disk' p).slot j).named base = true ∧
    ((tableAt disk' p).slot j).isDirectory = isDirectory ∧
    (tableAt disk' p).find base = some sector ∧ ((tableAt disk' p).slot j).sector = sector ∧
    sector < numSectors ∧ mapAt disk sector = false ∧ mapAt disk' sector = true
  entries : ∀ path h, Found disk path h true → ∀ q, ((tableAt disk h).slot q).inUse = true →
    (tableAt disk' h).slot q = (tableAt disk h).slot q
  contents : ∀ path h, Found disk path h false → chainOn disk' h = chainOn disk h ∧
    ∀ x, Uses disk (chainOn disk h) x → disk' x = disk x

/-- **The failed create changed nothing**: the disk, the current directory and the number of its
entries are those they were. -/
structure Undone (s s' : System) : Prop where
  disk : s'.disk = s.disk
  current : (s'.openFile s'.directoryFile).sector = (s.openFile s.directoryFile).sector
  size : s'.directorySize = s.directorySize

section Paths
variable {s : System} {name : List UInt8}

/-- With a path that is too long for its buffers nothing is returned. -/
theorem enterParent_fits :
    s.Yields (FileSystem.enterParent name) (fun _ _ => CreateFits name) := by
  unfold FileSystem.enterParent
  by_cases habs : name.head? = some slash
  · rw [if_pos habs]
    by_cases htail : name.tail = []
    · rw [if_pos htail]
      refine Prog.yields_pure.mpr fun _ => ?_
      have hname : name = [slash] := by
        rw [← List.cons_head?_tail (Option.mem_def.mpr habs), htail]
      rw [hname]
      decide
    · rw [if_neg htail]
      refine Prog.yields_bind.mpr (yields_assert.mpr fun hlen => ?_)
      refine Prog.yields_bind.mpr (Prog.yields_of_forall fun _ s₁ => Prog.yields_bind.mpr ?_)
      change s₁.Yields (FileSystem.changeDir (parentPath name) false) _
      unfold FileSystem.changeDir
      rw [if_pos (parentPath_head habs)]
      unfold FileSystem.changeDirFromRoot
      refine Prog.yields_bind.mpr (yields_assert.mpr fun _ => ?_)
      refine Prog.yields_bind.mpr (yields_assert.mpr fun htokens => ?_)
      exact Prog.yields_of_forall fun _ _ => Prog.yields_of_forall fun _ _ _ => ⟨hlen, htokens⟩
  · rw [if_neg habs]
    exact Prog.yields_pure.mpr fun h => absurd h habs

theorem createWith_fits {isDirectory : Bool}
    {store : ℕ → Bitmap → Directory → Sys (Option Bool)} :
    s.Yields (FileSystem.createWith isDirectory store name) (fun _ _ => CreateFits name) := by
  unfold FileSystem.createWith
  refine Prog.yields_bind.mpr (Prog.yields_of_forall fun _ s₁ => Prog.yields_bind.mpr ?_)
  exact enterParent_fits.mono fun _ _ hfits => Prog.yields_of_forall fun _ _ => hfits

end Paths

section Outcomes
variable {V V' : Volume} {s s' : System} {c c' : ℕ} {rest : List (ℕ × ℕ)} {name : List UInt8}
  {isDirectory : Bool} {more : ℕ}

/-- The create is durable exactly if the entry fits. -/
theorem Created.durable_iff (hi : Idle .strict V s c rest)
    (hc : Created .strict V s c rest isDirectory more name true V' c' s') :
    ∃ p n base, createAt s.disk c s.directorySize name = some (p, n, base) ∧
      (Durable s.disk s'.disk p base isDirectory ↔ CreateFitsEntry s.disk p n more) := by
  have hd := hi.ready.disk
  have ht := hi.ready.tree
  have hd' := hc.idle.ready.disk
  have ht' := hc.idle.ready.tree
  obtain ⟨p, n, base, sector, hat, hp, hnew, hlt, hclear, -, hb⟩ := hc.succeeded rfl
  have hp' := hc.kind p true hp
  refine ⟨p, n, base, hat, fun hdur => ?_, fun hfits => ⟨?_, fun path h hf q hu => ?_,
    fun path h hf => ?_⟩⟩
  · by_contra hno
    obtain ⟨j, x, -, -, hfind, -⟩ := hdur.bound
    have hslots : ∀ q, (tableAt s'.disk p).slot q = (tableAt s.disk p).slot q := by
      intro q
      rw [hd'.slot_eq hp', hd.slot_eq hp]
      exact hb.unbound hno p q
    rw [Directory.find_congr hslots, hnew] at hfind
    cases hfind
  · obtain ⟨j, hnamed, hkind, hsector⟩ := hb.bound hfits
    have hused : (V'.slot p j).inUse = true := by
      rw [DirectoryEntry.named, Bool.and_eq_true] at hnamed
      exact hnamed.1
    refine ⟨j, sector, by rw [hd'.slot_eq hp']; exact hnamed, by rw [hd'.slot_eq hp']; exact hkind,
      ?_, by rw [hd'.slot_eq hp']; exact hsector, hlt, hclear, ?_⟩
    · obtain ⟨chain', t', hfile⟩ := kind_true_iff.mp hp'
      rw [hd'.tableAt_eq hfile]
      exact (ht'.find_iff hfile).mpr ⟨j, hnamed, hsector⟩
    · have hentry := (ht'.entry p j hused).1
      rw [hsector, Volume.kind, Option.map_eq_some_iff] at hentry
      obtain ⟨i, hi', -⟩ := hentry
      rw [hd'.mapAt_eq]
      exact (hd'.owned_marked ⟨sector, i, hi', (hd'.file sector i hi').uses_self⟩).2
  · have hk := hd.found ht hf
    rw [hd.slot_eq hk] at hu
    rw [hd'.slot_eq (hc.kind h true hk), hd.slot_eq hk]
    exact hb.entries h q hu
  · obtain ⟨chain, hfile⟩ := hd.found_regular ht hf
    obtain ⟨hfile', hsame⟩ := hb.file h chain hfile
    have hchain := hd.chainOn_eq hfile
    have hchain' := hd'.chainOn_eq hfile'
    dsimp only at hchain hchain'
    rw [hchain, hchain']
    exact ⟨rfl, hsame⟩

/-- A misfiled file is not durable. -/
theorem Misfiled.not_durable {disk disk' : ℕ → Sector} {p : ℕ} {base : List UInt8}
    (hmis : Misfiled disk' p base) : ¬ Durable disk disk' p base false := by
  intro hdur
  obtain ⟨j, sector, hnamed, hregular, -⟩ := hdur.bound
  rw [hmis j hnamed] at hregular
  cases hregular

/-- A failed create changed nothing exactly if it was clean. -/
theorem Created.undone_iff (hi : Idle .strict V s c rest)
    (hc : Created .strict V s c rest isDirectory more name false V' c' s') :
    Undone s s' ↔ CreateClean s.disk c s.directorySize name more := by
  obtain ⟨hdisk, hiff⟩ := hc.failed rfl
  have hcur : (s.openFile s.directoryFile).sector = c := by
    refine hi.ready.handles.sector _ _ ?_
    rw [hi.handles]
    exact List.mem_cons_self
  have hcur' : (s'.openFile s'.directoryFile).sector = c' := by
    refine hc.idle.ready.handles.sector _ _ ?_
    rw [hc.idle.handles]
    exact List.mem_cons_self
  rw [← hiff]
  constructor
  · intro h
    have hsame := h.current
    rw [hcur, hcur'] at hsame
    exact ⟨hsame, h.size⟩
  · rintro ⟨rfl, hsize⟩
    exact ⟨hdisk, hcur'.trans hcur.symm, hsize⟩

end Outcomes

/-! ## After any session -/

/-- `Create` or `CreateDir`. -/
def FileSystem.createKind (isDirectory : Bool) (name : List UInt8) : Sys Bool :=
  if isDirectory then FileSystem.createDir name else FileSystem.create name

/-- How many sectors the new file has besides the one of its header. -/
def sectorsOfKind (isDirectory : Bool) : ℕ := if isDirectory then 3 else 0

/-- No new file gets the mark of a directory from memory. -/
def World.TypedKind (w : World) (isDirectory : Bool) (name : List UInt8) : Prop :=
  isDirectory = false → CreateTyped w.sys.heap w.sys.disk w.current w.sys.directorySize name

section Sessions
variable {disk : ℕ → Sector} {V : Volume} {rest : List (ℕ × ℕ)} {w₀ w : World} {calls : List Call}

/-- What is returned with paths that fit. -/
theorem createKind_fits {s : System} (isDirectory : Bool) (name : List UInt8) :
    s.Yields (FileSystem.createKind isDirectory name) (fun _ _ => CreateFits name) := by
  cases isDirectory with
  | false => exact createWith_fits
  | true => exact createWith_fits

/-- What `Create` or `CreateDir` does between two calls. -/
theorem Idle.created (hi : Idle .strict V w.sys w.current rest) {isDirectory : Bool}
    {name : List UInt8} (htyped : w.TypedKind isDirectory name) :
    (CreateFits name → ∃ r s', (FileSystem.createKind isDirectory name).run System.act w.sys =
      some (r, s')) ∧
    ∀ r s', (FileSystem.createKind isDirectory name).run System.act w.sys = some (r, s') →
      ∃ V' c', Created .strict V w.sys w.current rest isDirectory (sectorsOfKind isDirectory)
        name r V' c' s' := by
  have hends : CreateFits name → w.sys.Ends (FileSystem.createKind isDirectory name) (fun r s' =>
      ∃ V' c', Created .strict V w.sys w.current rest isDirectory (sectorsOfKind isDirectory)
        name r V' c' s') := by
    intro hfits
    cases isDirectory with
    | false => exact hi.createWith (storeFile_ok _) hfits htyped
    | true => exact hi.createWith (storeDirectory_ok _) hfits htyped
  refine ⟨fun hfits => ?_, fun r s' hrun => ?_⟩
  · obtain ⟨r, s', hrun, -⟩ := hends hfits
    exact ⟨r, s', hrun⟩
  · exact (hends (createKind_fits isDirectory name r s' hrun)).of_run hrun

/-- The same for a create that fails, whatever is in memory. -/
theorem Idle.refused (hi : Idle .strict V w.sys w.current rest) {isDirectory : Bool}
    {name : List UInt8} {s' : System}
    (hrun : (FileSystem.createKind isDirectory name).run System.act w.sys = some (false, s')) :
    ∃ V' c', Created .strict V w.sys w.current rest isDirectory (sectorsOfKind isDirectory)
      name false V' c' s' := by
  have hfits := createKind_fits isDirectory name false s' hrun
  cases isDirectory with
  | false => exact hi.createWith_refused (storeFile_ok _) hfits false s' hrun rfl
  | true => exact hi.createWith_refused (storeDirectory_ok _) hfits false s' hrun rfl

/-- The state after a session. -/
theorem Formatted.idle (hf : Formatted disk) (hboot : World.boot disk = some w₀)
    (hs : Session World.Typed w₀ calls w) :
    ∃ V rest, Idle .strict V w.sys w.current rest := by
  obtain ⟨V, c, rest, hl⟩ := hf.session hboot hs
  have hi := hl.idle
  obtain rfl := hi.current_eq
  exact ⟨V, rest, hi⟩

end Sessions

/-- **A successful create is durable exactly if its entry fits** into the directory, once the
sectors of the new file are taken, and does not get the mark of a directory from memory. -/
theorem create_durable_iff {disk : ℕ → Sector} (hf : Formatted disk) :
    ∃ w₀, World.boot disk = some w₀ ∧ ∀ calls w, Session World.Typed w₀ calls w →
      ∀ isDirectory name,
        (CreateFits name → w.TypedKind isDirectory name →
          ∃ r s', (FileSystem.createKind isDirectory name).run System.act w.sys = some (r, s')) ∧
        ∀ s', (FileSystem.createKind isDirectory name).run System.act w.sys = some (true, s') →
          ∃ p n base, createAt w.sys.disk w.current w.sys.directorySize name = some (p, n, base) ∧
            (Durable w.sys.disk s'.disk p base isDirectory ↔
              CreateFitsEntry w.sys.disk p n (sectorsOfKind isDirectory) ∧
              (isDirectory = false → GrowsTyped w.sys.heap (tableAt w.sys.disk p) n)) := by
  obtain ⟨w₀, handles, rest, hboot, -⟩ := hf.live
  refine ⟨w₀, hboot, fun calls w hs isDirectory name => ?_⟩
  obtain ⟨V, rest, hi⟩ := hf.idle hboot hs
  refine ⟨fun hfits htyped => (hi.created htyped).1 hfits, fun s' hrun => ?_⟩
  by_cases htyped : w.TypedKind isDirectory name
  · obtain ⟨V', c', hc⟩ := (hi.created htyped).2 true s' hrun
    obtain ⟨p, n, base, hat, hiff⟩ := hc.durable_iff hi
    obtain ⟨p', n', base', hat', hnew, hfree⟩ := hc.result.mp rfl
    obtain ⟨rfl, rfl, rfl⟩ : p = p' ∧ n = n' ∧ base = base' := by
      simpa using hat.symm.trans hat'
    refine ⟨p, n, base, hat, hiff.trans (iff_self_and.mpr fun _ hfile => ?_)⟩
    exact htyped hfile p n base hat hnew (Nat.zero_lt_of_lt hfree)
  · -- a file whose entry has the mark of a directory
    obtain ⟨hfile, hno⟩ := Classical.not_imp.mp htyped
    subst hfile
    have hfits := createKind_fits false name true s' hrun
    obtain ⟨p, n, base, hat, hmis⟩ :=
      hi.createWith_misfiled (storeFile_ok _) hfits hno true s' hrun rfl
    refine ⟨p, n, base, hat, iff_of_false hmis.not_durable fun h => ?_⟩
    exact hno ((h.2 rfl).create hat)

/-- Two files are created, and memory is used for something else; a third file is durable. -/
theorem create_durable_iff_blank : Formatted blankDisk ∧ ∃ w₀ w s',
    World.boot blankDisk = some w₀ ∧
    Session World.Typed w₀ (crowd 2 ++ [.reuse fun _ => 1]) w ∧
    (FileSystem.createKind false (letter 2)).run System.act w.sys = some (true, s') ∧
    CreateFitsEntry w.sys.disk directorySector w.sys.directorySize 0 ∧
    GrowsTyped w.sys.heap (tableAt w.sys.disk directorySector) w.sys.directorySize ∧
    Durable w.sys.disk s'.disk directorySector (letter 2) false := by
  obtain ⟨w₀, w, V, rest, hboot, hs, h, -⟩ := crowded (k := 2) (by decide)
  have hs₁ : Session World.Typed w₀ (crowd 2) w := Run.mono (fun _ _ _ hg => hg.2.1) hs
  have hs₂ := hs₁.next (.reuse fun _ => 1) trivial rfl
  have hi := (h.live.reuse fun _ => 1).idle
  have hcurrent := hi.current_eq
  have hrel := letter_head 2 (by decide)
  have hat := createAt_letter (show 2 < 26 by decide) w.sys.disk directorySector w.sys.directorySize
  obtain ⟨t, hroot, -⟩ := h.live.small_root (by rw [h.size]; decide)
  have htable := h.live.idle.ready.disk.tableAt_eq hroot
  have hgrows : GrowsTyped (fun _ => 1) (tableAt w.sys.disk directorySector)
      w.sys.directorySize := by
    rw [htable, h.size]
    intro hle
    rw [h.freeIndex hroot] at hle
    exact absurd hle (by decide)
  obtain ⟨w₁, hboot', hdurable⟩ := create_durable_iff blankDisk_formatted
  obtain rfl := Option.some.inj (hboot.symm.trans hboot')
  obtain ⟨-, hiff⟩ := hdurable _ _ hs₂ false (letter 2)
  obtain ⟨r, s', hrun, V', c', hc⟩ := hi.createWith (storeFile_ok _)
    (show CreateFits (letter 2) from fun habs => absurd habs hrel) fun _ p n base hat' _ _ => by
      obtain ⟨rfl, rfl, rfl⟩ : directorySector = p ∧ w.sys.directorySize = n ∧ letter 2 = base := by
        simpa using hat.symm.trans hat'
      exact hgrows
  obtain rfl : r = true := by
    refine hc.result.mpr ⟨_, _, _, hat, ?_, ?_⟩
    · show (tableAt w.sys.disk directorySector).find (letter 2) = none
      rw [htable]
      exact h.find_none (by decide) hroot
    · show 0 < (mapAt w.sys.disk).countClear
      rw [h.free]
      decide
  obtain ⟨p, n, base, hat', hdur⟩ := hiff s' hrun
  rw [hcurrent] at hat'
  obtain ⟨rfl, rfl, rfl⟩ : directorySector = p ∧ w.sys.directorySize = n ∧ letter 2 = base := by
    simpa using hat.symm.trans hat'
  exact ⟨blankDisk_formatted, w₀, _, s', hboot, hs₂, hrun, h.fits (by decide), hgrows,
    hdur.mpr ⟨h.fits (by decide), fun _ => hgrows⟩⟩

/-- Without a free sector, an entry that needs one does not fit. -/
theorem Crowded.not_fits {w : World} {V : Volume} {rest : List (ℕ × ℕ)}
    (h : Crowded 12 1 w V rest) :
    ¬ CreateFitsEntry w.sys.disk directorySector w.sys.directorySize 0 := by
  intro hfits
  have hsize : w.sys.directorySize = 12 := h.size
  obtain ⟨t, hroot, hsectors⟩ := h.live.small_root hsize.le
  have hd := h.live.idle.ready.disk
  have hchain : chainOn w.sys.disk directorySector = [directorySector] := hd.chainOn_eq hroot
  have hes : DirectoryEntry.size = 32 := rfl
  have hfull : Bitmap.countClear (fun _ => true) = 0 := by
    rw [Bitmap.countClear, List.countP_eq_zero]
    simp
  have hentry := hfits (fun _ => true) (by rw [hfull, h.free])
  rw [hchain, hd.tableAt_eq hroot, h.freeIndex hroot, hsize] at hentry
  rcases hentry with hfirst | ⟨hshort, -⟩
  · rw [hes, List.length_singleton] at hfirst
    omega
  · refine hshort ?_
    rw [Short, hfull, hsectors, List.length_singleton]
    decide

/-- The header takes the last sector, and the directory would need another one for the thirteenth
entry: the name is not there after a create that returned true. -/
theorem create_entry_lost : Formatted blankDisk ∧ ∃ w₀ f w s', World.boot blankDisk = some w₀ ∧
    Session World.Legal w₀ (fill f 972) w ∧ w.current = directorySector ∧
    (FileSystem.create (letter 12)).run System.act w.sys = some (true, s') ∧
    ¬ Durable w.sys.disk s'.disk directorySector (letter 12) false := by
  refine ⟨blankDisk_formatted, ?_⟩
  obtain ⟨w₀, f, w, V, rest, hboot, hs, h⟩ := filled 972 1 (by decide)
    (by decide) (by decide)
  have hi := h.live.idle
  have hat :=
    createAt_letter (show 12 < 26 by decide) w.sys.disk directorySector w.sys.directorySize
  obtain ⟨t, hroot, -⟩ := h.live.small_root h.size.le
  obtain ⟨r, s', hrun, V', c', hc⟩ := hi.createWith (storeFile_ok _)
    (show CreateFits (letter 12) from fun habs => absurd habs (letter_head 12 (by decide)))
    fun _ => h.heap ▸ createTyped_zero
  obtain rfl : r = true := by
    refine hc.result.mpr ⟨_, _, _, hat, ?_, ?_⟩
    · rw [hi.ready.disk.tableAt_eq hroot]
      exact h.find_none (by decide) hroot
    · rw [h.free]
      decide
  refine ⟨w₀, f, w, s', hboot, hs, hi.current_eq, hrun, fun hdur => ?_⟩
  obtain ⟨p, n, base, hat', hiff⟩ := hc.durable_iff hi
  rw [hat, Option.some.injEq, Prod.mk.injEq, Prod.mk.injEq] at hat'
  obtain ⟨rfl, rfl, rfl⟩ := hat'
  exact h.not_fits (hiff.mp hdur)

/-- **A failed create changes nothing exactly if it is clean.** -/
theorem create_undone_iff {disk : ℕ → Sector} (hf : Formatted disk) :
    ∃ w₀, World.boot disk = some w₀ ∧ ∀ calls w, Session World.Typed w₀ calls w →
      ∀ isDirectory name,
        (CreateFits name → w.TypedKind isDirectory name →
          ∃ r s', (FileSystem.createKind isDirectory name).run System.act w.sys = some (r, s')) ∧
        ∀ s', (FileSystem.createKind isDirectory name).run System.act w.sys = some (false, s') →
          (Undone w.sys s' ↔ CreateClean w.sys.disk w.current w.sys.directorySize name
            (sectorsOfKind isDirectory)) := by
  obtain ⟨w₀, handles, rest, hboot, -⟩ := hf.live
  refine ⟨w₀, hboot, fun calls w hs isDirectory name => ?_⟩
  obtain ⟨V, rest, hi⟩ := hf.idle hboot hs
  refine ⟨fun hfits htyped => (hi.created htyped).1 hfits, fun s' hrun => ?_⟩
  obtain ⟨V', c', hc⟩ := hi.refused hrun
  exact hc.undone_iff hi

/-- Two files are created; a directory with the name of the first is not, and nothing changes. -/
theorem create_undone_iff_blank : Formatted blankDisk ∧ ∃ w₀ w s',
    World.boot blankDisk = some w₀ ∧ Session World.Typed w₀ (crowd 2) w ∧
    (FileSystem.createKind true (letter 0)).run System.act w.sys = some (false, s') ∧
    CreateClean w.sys.disk w.current w.sys.directorySize (letter 0) (sectorsOfKind true) ∧
    Undone w.sys s' := by
  obtain ⟨w₀, w, V, rest, hboot, hcrowd, h, -⟩ := crowded (k := 2) (by decide)
  have hs : Session World.Typed w₀ (crowd 2) w := Run.mono (fun _ _ _ hg => hg.2.1) hcrowd
  have hi := h.live.idle
  have hrel := letter_head 0 (by decide)
  have hat := createAt_letter (show 0 < 26 by decide) w.sys.disk directorySector w.sys.directorySize
  have hfind := h.find_first (by decide)
  obtain ⟨w₁, hboot', hundone⟩ := create_undone_iff blankDisk_formatted
  obtain rfl := Option.some.inj (hboot.symm.trans hboot')
  obtain ⟨-, hiff⟩ := hundone _ w hs true (letter 0)
  obtain ⟨r, s', hrun, V', c', hc⟩ := hi.createWith (storeDirectory_ok _)
    (show CreateFits (letter 0) from fun habs => absurd habs hrel) fun habs => by cases habs
  obtain rfl : r = false := by
    rw [Bool.eq_false_iff, ne_eq, hc.result]
    rintro ⟨p, n, base, hat', hnew, -⟩
    obtain ⟨rfl, -, rfl⟩ : directorySector = p ∧ w.sys.directorySize = n ∧ letter 0 = base := by
      simpa using hat.symm.trans hat'
    rw [hfind] at hnew
    cases hnew
  have hclean : CreateClean w.sys.disk w.current w.sys.directorySize (letter 0)
      (sectorsOfKind true) := by
    intro p n base hat'
    rw [hi.current_eq] at hat'
    obtain ⟨rfl, rfl, rfl⟩ : directorySector = p ∧ w.sys.directorySize = n ∧ letter 0 = base := by
      simpa using hat.symm.trans hat'
    rw [if_neg hrel, sizeAfter, hfind]
    rfl
  exact ⟨blankDisk_formatted, w₀, w, s', hboot, hs, hrun, hclean, (hiff s' hrun).mpr hclean⟩

/-- On a full disk the create fails, and the root is noted to have one entry more than it has. -/
theorem create_failure_noted : Formatted blankDisk ∧ ∃ w₀ f w s', World.boot blankDisk = some w₀ ∧
    Session World.Legal w₀ (fill f 973) w ∧
    (FileSystem.create (letter 12)).run System.act w.sys = some (false, s') ∧
    w.sys.directorySize = 12 ∧ s'.directorySize = 13 ∧ ¬ Undone w.sys s' := by
  refine ⟨blankDisk_formatted, ?_⟩
  obtain ⟨w₀, f, w, V, rest, hboot, hs, h⟩ := filled 973 0 (by decide)
    (by decide) (by decide)
  have hi := h.live.idle
  have hrel := letter_head 12 (by decide)
  have hsize : w.sys.directorySize = 12 := h.size
  obtain ⟨t, hroot, -⟩ := h.live.small_root h.size.le
  obtain ⟨r, s', hrun, V', c', hc⟩ := hi.createWith (storeFile_ok _)
    (show CreateFits (letter 12) from fun habs => absurd habs hrel)
    fun _ => h.heap ▸ createTyped_zero
  obtain rfl : r = false := by
    rw [Bool.eq_false_iff, ne_eq, hc.result]
    rintro ⟨p, n, base, -, -, hfree⟩
    rw [h.free] at hfree
    exact absurd hfree (Nat.lt_irrefl 0)
  have hsize' : s'.directorySize = 13 := by
    rw [hc.size hrel, hi.ready.disk.tableAt_eq hroot, sizeAfter, h.find_none (by decide) hroot,
      h.freeIndex hroot, hsize]
    rfl
  refine ⟨w₀, f, w, s', hboot, hs, hrun, hsize, hsize', fun hundone => ?_⟩
  have hsame := hundone.size
  omega

end PaldOs
