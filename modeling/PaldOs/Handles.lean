import PaldOs.Volume

/-! # Open files of a volume

`Ready` adds to a volume on disk what is in memory: the `OpenFile` objects in use, each on a file of
the volume, the counts of `openFilesTable`, which add up, and the locks, which are there where a
file is open and are free.  It says nothing about which of the open files is the current directory.

The programs that open, close, read and write directories keep it.
-/
namespace PaldOs

open Sys

/-- The locks: all are free but maybe `filesysCreateLock`, which is not one of the locks of a
file; no `removeLock` is the `writeLock` of a file. -/
structure LocksOk (s : System) : Prop where
  next : filesysCreateLock < s.nextLock
  free : ∀ l, l ≠ filesysCreateLock → s.held l = false
  removeLock : ∀ x, (s.openFilesTable x).removeLock ≠ some filesysCreateLock
  writeLock : ∀ x, (s.openFilesTable x).writeLock ≠ some filesysCreateLock
  closeLock : ∀ x, (s.openFilesTable x).closeLock ≠ some filesysCreateLock
  removeLock_lt : ∀ x l, (s.openFilesTable x).removeLock = some l → l < s.nextLock
  writeLock_lt : ∀ x l, (s.openFilesTable x).writeLock = some l → l < s.nextLock
  apart : ∀ x y l, (s.openFilesTable x).removeLock = some l →
    (s.openFilesTable y).writeLock ≠ some l

theorem LocksOk.of_eq {s s' : System} (hl : LocksOk s)
    (htable : s'.openFilesTable = s.openFilesTable)
    (hnext : s.nextLock ≤ s'.nextLock)
    (hheld : ∀ l, l ≠ filesysCreateLock → s'.held l = false) : LocksOk s' where
  next := Nat.lt_of_lt_of_le hl.next hnext
  free := hheld
  removeLock := htable ▸ hl.removeLock
  writeLock := htable ▸ hl.writeLock
  closeLock := htable ▸ hl.closeLock
  removeLock_lt x l h := Nat.lt_of_lt_of_le (hl.removeLock_lt x l (htable ▸ h)) hnext
  writeLock_lt x l h := Nat.lt_of_lt_of_le (hl.writeLock_lt x l (htable ▸ h)) hnext
  apart := htable ▸ hl.apart

/-- What is in memory of the open files of a volume. -/
structure HandlesOk (D : Discipline) (V : Volume) (s : System) : Prop where
  freeMap : FreeMapOk s V.map
  freeMapFile : (s.freeMapFile, freeMapSector) ∈ V.handles
  sector : ∀ g h, (g, h) ∈ V.handles → (s.openFile g).sector = h
  lt : ∀ g h, (g, h) ∈ V.handles → g < s.nextOpenFile
  nodup : (V.handles.map Prod.fst).Nodup
  on : ∀ g h, (g, h) ∈ V.handles → g = s.freeMapFile ∨ (V.files h).isSome = true
  cursor : ∀ g h chain, (g, h) ∈ V.handles → V.files h = some ⟨chain, none⟩ →
    D.cursor s.disk chain (s.openFile g)
  counts : ∀ x, (s.openFilesTable x).count = V.handles.countP (fun p => p.2 == x) + V.extra x
  locked : ∀ x, (s.openFilesTable x).count ≠ 0 → (s.openFilesTable x).HasLocks
  quiet : ∀ h, (V.files h).isSome = true →
    (s.openFilesTable h).removing = false ∧ (s.openFilesTable h).removed = false
  locks : LocksOk s

/-- **A volume that can be used.** -/
structure Ready (D : Discipline) (V : Volume) (s : System) : Prop where
  disk : DiskOk D V s.disk
  tree : TreeOk V
  handles : HandlesOk D V s

/-- The current directory, the free map, the disk and `filesysCreateLock` are as they were. -/
structure Same (s s' : System) : Prop where
  disk : s'.disk = s.disk
  freeMapFile : s'.freeMapFile = s.freeMapFile
  directoryFile : s'.directoryFile = s.directoryFile
  directorySize : s'.directorySize = s.directorySize
  createLock : s'.held filesysCreateLock = s.held filesysCreateLock

theorem Same.refl (s : System) : Same s s := ⟨rfl, rfl, rfl, rfl, rfl⟩

theorem Same.trans {s s' s'' : System} (h : Same s s') (h' : Same s' s'') : Same s s'' :=
  ⟨h'.disk.trans h.disk, h'.freeMapFile.trans h.freeMapFile, h'.directoryFile.trans h.directoryFile,
    h'.directorySize.trans h.directorySize, h'.createLock.trans h.createLock⟩

theorem Same.putEntry {s s' : System} (h : Same s s') (x : ℕ) (e : OpenFileEntry) :
    Same s (s'.putEntry x e) :=
  ⟨h.disk, h.freeMapFile, h.directoryFile, h.directorySize, h.createLock⟩

theorem Rereads.same {s s' : System} {f : ℕ} (h : Rereads s f s') : Same s s' := by
  obtain ⟨o, rfl, -, -⟩ := h
  exact ⟨rfl, rfl, rfl, rfl, rfl⟩

section Basic
variable {D : Discipline} {V : Volume} {s s' : System} {f h : ℕ}

theorem DiskOk.files_zero {disk : ℕ → Sector} (hd : DiskOk D V disk) :
    V.files freeMapSector = none := by
  cases hi : V.files freeMapSector with
  | none => rfl
  | some i =>
    exact absurd (hd.file _ i hi).uses_self (hd.reserved _ i hi).1

/-- The only open file of the free map is `freeMapFile`. -/
theorem HandlesOk.ne_freeMapFile (hh : HandlesOk D V s) (hd : DiskOk D V s.disk)
    (hf : (f, h) ∈ V.handles) (hsome : (V.files h).isSome = true) : f ≠ s.freeMapFile := by
  rintro rfl
  have hzero : h = freeMapSector :=
    (hh.sector _ _ hf).symm.trans (hh.sector _ _ hh.freeMapFile)
  rw [hzero, hd.files_zero] at hsome
  cases hsome

theorem Ready.ne_freeMapFile (hr : Ready D V s) (hf : (f, h) ∈ V.handles)
    (hh : (V.files h).isSome = true) : f ≠ s.freeMapFile :=
  hr.handles.ne_freeMapFile hr.disk hf hh

theorem Ready.file_lt (hr : Ready D V s) {i : FileInfo} (hi : V.files h = some i) :
    h < numSectors := by
  have hf := hr.disk.file h i hi
  have hlt := hf.sound.heads_lt 0 hf.sound.pos
  rwa [hf.head] at hlt

theorem DiskOk.relabel {disk : ℕ → Sector} (hd : DiskOk D V disk) (handles : List (ℕ × ℕ))
    (extra : ℕ → ℕ) : DiskOk D { V with handles := handles, extra := extra } disk :=
  ⟨hd.file, hd.apart, hd.marks, hd.leaked, hd.reserved, hd.map_lt, hd.map_ne, hd.mapHeader⟩

theorem TreeOk.relabel (ht : TreeOk V) (handles : List (ℕ × ℕ)) (extra : ℕ → ℕ) :
    TreeOk { V with handles := handles, extra := extra } :=
  ⟨ht.root, ht.entry, ht.unused, ht.once, ht.names, ht.long⟩

/-- The handles may be listed in any order. -/
theorem Ready.perm (hr : Ready D V s) {handles : List (ℕ × ℕ)} (hp : V.handles.Perm handles) :
    Ready D { V with handles := handles } s where
  disk := hr.disk.relabel _ _
  tree := hr.tree.relabel _ _
  handles :=
    { hr.handles with
      freeMapFile := hp.mem_iff.mp hr.handles.freeMapFile
      sector := fun g h hg => hr.handles.sector g h (hp.mem_iff.mpr hg)
      lt := fun g h hg => hr.handles.lt g h (hp.mem_iff.mpr hg)
      nodup := (hp.map Prod.fst).nodup_iff.mp hr.handles.nodup
      on := fun g h hg => hr.handles.on g h (hp.mem_iff.mpr hg)
      cursor := fun g h chain hg => hr.handles.cursor g h chain (hp.mem_iff.mpr hg)
      counts := fun x => by
        rw [hr.handles.counts x, hp.countP_eq] }

/-- The state with another current directory. -/
theorem Ready.setDirectory (hr : Ready D V s) (directoryFile directorySize : ℕ) :
    Ready D V { s with directoryFile := directoryFile, directorySize := directorySize } where
  disk := hr.disk
  tree := hr.tree
  handles :=
    { hr.handles with
      freeMap := ⟨hr.handles.freeMap.numBytes_eq, hr.handles.freeMap.numSectors_eq,
        hr.handles.freeMap.sector_eq, hr.handles.freeMap.lt⟩
      locks := hr.handles.locks.of_eq rfl le_rfl hr.handles.locks.free }

/-- `filesysCreateLock` is taken or given back. -/
theorem Ready.putHeld (hr : Ready D V s) (b : Bool) :
    Ready D V (s.putHeld filesysCreateLock b) where
  disk := hr.disk
  tree := hr.tree
  handles :=
    { hr.handles with
      freeMap := ⟨hr.handles.freeMap.numBytes_eq, hr.handles.freeMap.numSectors_eq,
        hr.handles.freeMap.sector_eq, hr.handles.freeMap.lt⟩
      locks := hr.handles.locks.of_eq rfl le_rfl fun l hl => (Function.update_of_ne hl ..).trans
        (hr.handles.locks.free l hl) }

/-- New tables get other memory. -/
theorem Ready.setHeap (hr : Ready D V s) (heap : ℕ → UInt8) :
    Ready D V { s with heap := heap } where
  disk := hr.disk
  tree := hr.tree
  handles :=
    { hr.handles with
      freeMap := ⟨hr.handles.freeMap.numBytes_eq, hr.handles.freeMap.numSectors_eq,
        hr.handles.freeMap.sector_eq, hr.handles.freeMap.lt⟩
      locks := hr.handles.locks.of_eq rfl le_rfl hr.handles.locks.free }

/-- Nobody knows of an open file any more. -/
theorem Ready.forget (hr : Ready D V s) {handles : List (ℕ × ℕ)}
    (hp : V.handles.Perm ((f, h) :: handles)) (hf : f ≠ s.freeMapFile) :
    Ready D { V with
      handles := handles
      extra := Function.update V.extra h (V.extra h + 1) } s := by
  have hmem : ∀ p, p ∈ handles → p ∈ V.handles :=
    fun p hp' => hp.mem_iff.mpr (List.mem_cons_of_mem _ hp')
  refine ⟨hr.disk.relabel _ _, hr.tree.relabel _ _, ?_⟩
  refine { hr.handles with
    freeMapFile := ?_
    sector := fun g h hg => hr.handles.sector g h (hmem _ hg)
    lt := fun g h hg => hr.handles.lt g h (hmem _ hg)
    nodup := ?_
    on := fun g h hg => hr.handles.on g h (hmem _ hg)
    cursor := fun g h chain hg => hr.handles.cursor g h chain (hmem _ hg)
    counts := fun x => ?_ }
  · rcases List.mem_cons.mp (hp.mem_iff.mp hr.handles.freeMapFile) with heq | hin
    · exact absurd (congrArg Prod.fst heq).symm hf
    · exact hin
  · have hn := (hp.map Prod.fst).nodup_iff.mp hr.handles.nodup
    exact (List.nodup_cons.mp hn).2
  · rw [hr.handles.counts x, hp.countP_eq, List.countP_cons]
    by_cases hx : x = h
    · subst hx
      simp only [beq_self_eq_true, if_true, Function.update_self]
      omega
    · have hne : (h == x) = false := by
        rw [beq_eq_false_iff_ne]
        exact Ne.symm hx
      simp only [hne, Bool.false_eq_true, if_false, Function.update_of_ne hx]
      omega

/-- A directory is read. -/
theorem Ready.reread (hr : Ready D V s) (hf : (f, h) ∈ V.handles) (hk : V.kind h = some true)
    (hs : Rereads s f s') : Ready D V s' := by
  obtain ⟨o, rfl, hsector, -⟩ := hs
  have hsome : (V.files h).isSome = true := by
    rw [Volume.kind] at hk
    obtain ⟨i, hi, -⟩ := Option.map_eq_some_iff.mp hk
    rw [hi]
    rfl
  have hne := hr.ne_freeMapFile hf hsome
  refine ⟨hr.disk, hr.tree, { hr.handles with
    freeMap := hr.handles.freeMap.writing hne _ _
    sector := fun g h' hg => ?_
    cursor := fun g h' chain hg hi => ?_
    locks := hr.handles.locks.of_eq rfl le_rfl hr.handles.locks.free }⟩
  · rcases eq_or_ne g f with rfl | hgf
    · rw [System.writing_self, hsector]
      exact hr.handles.sector g h' hg
    · exact (congrArg OpenFile.sector (Function.update_of_ne hgf ..)).trans
        (hr.handles.sector g h' hg)
  · have hgf : g ≠ f := by
      rintro rfl
      have hsame : h' = h := (hr.handles.sector _ _ hg).symm.trans (hr.handles.sector _ _ hf)
      rw [hsame] at hi
      rw [kind_of_files hi] at hk
      cases hk
    have hopen : (s.writing f s.disk o).openFile g = s.openFile g := Function.update_of_ne hgf ..
    rw [hopen]
    exact hr.handles.cursor g h' chain hg hi

end Basic

/-! ## Opening -/

section Opening
variable {D : Discipline} {V : Volume} {s s' : System} {f h : ℕ}

theorem newLock_locks (hl : LocksOk s) :
    s.Ends newLock (fun l s' => l ≠ filesysCreateLock ∧ l = s.nextLock ∧
      s'.nextLock = s.nextLock + 1 ∧ LocksOk s' ∧ Same s s' ∧
      s'.openFilesTable = s.openFilesTable) := by
  have hne : filesysCreateLock ≠ s.nextLock := Nat.ne_of_lt hl.next
  refine ends_newLock.mpr ⟨hne.symm, rfl, rfl, hl.of_eq rfl (Nat.le_succ _) fun l h => ?_,
    ⟨rfl, rfl, rfl, rfl, Function.update_of_ne hne ..⟩, rfl⟩
  exact System.putHeld_false (hl.free l h)

theorem lockOrNew_locks (hl : LocksOk s) {lock : Option ℕ} (hlock : lock ≠ some filesysCreateLock) :
    s.Ends (OpenFile.lockOrNew lock) (fun l s' => l ≠ filesysCreateLock ∧
      (lock = some l ∨ l = s.nextLock ∧ l < s'.nextLock) ∧ s.nextLock ≤ s'.nextLock ∧ LocksOk s' ∧
      Same s s' ∧ s'.openFilesTable = s.openFilesTable) := by
  cases lock with
  | some l =>
    exact Prog.ends_pure.mpr ⟨fun h => hlock (congrArg some h), Or.inl rfl, le_rfl, hl, Same.refl s,
      rfl⟩
  | none =>
    refine (newLock_locks hl).mono ?_
    rintro l s' ⟨h1, h2, h3, h4⟩
    exact ⟨h1, Or.inr ⟨h2, by omega⟩, by omega, h4⟩

theorem LocksOk.putEntry (hl : LocksOk s) {x : ℕ} {e : OpenFileEntry}
    (h1 : e.removeLock ≠ some filesysCreateLock) (h2 : e.writeLock ≠ some filesysCreateLock)
    (h3 : e.closeLock ≠ some filesysCreateLock)
    (h4 : ∀ l, e.removeLock = some l → l < s.nextLock ∧ e.writeLock ≠ some l ∧
      ∀ y, (s.openFilesTable y).writeLock ≠ some l ∨ y = x)
    (h5 : ∀ l, e.writeLock = some l → l < s.nextLock ∧
      ∀ y, (s.openFilesTable y).removeLock ≠ some l ∨ y = x) : LocksOk (s.putEntry x e) := by
  have hself : (s.putEntry x e).openFilesTable x = e := Function.update_self ..
  have hother : ∀ y, y ≠ x → (s.putEntry x e).openFilesTable y = s.openFilesTable y :=
    fun y hy => Function.update_of_ne hy ..
  refine ⟨hl.next, hl.free, fun y => ?_, fun y => ?_, fun y => ?_, fun y l h => ?_, fun y l h => ?_,
    fun y z l hy hz => ?_⟩
  · rcases eq_or_ne y x with rfl | hy
    · rw [hself]
      exact h1
    · rw [hother y hy]
      exact hl.removeLock y
  · rcases eq_or_ne y x with rfl | hy
    · rw [hself]
      exact h2
    · rw [hother y hy]
      exact hl.writeLock y
  · rcases eq_or_ne y x with rfl | hy
    · rw [hself]
      exact h3
    · rw [hother y hy]
      exact hl.closeLock y
  · rcases eq_or_ne y x with rfl | hy
    · rw [hself] at h
      exact (h4 l h).1
    · rw [hother y hy] at h
      exact hl.removeLock_lt y l h
  · rcases eq_or_ne y x with rfl | hy
    · rw [hself] at h
      exact (h5 l h).1
    · rw [hother y hy] at h
      exact hl.writeLock_lt y l h
  · rcases eq_or_ne y x with rfl | hyx
    · rw [hself] at hy
      rcases eq_or_ne z y with rfl | hzy
      · rw [hself] at hz
        exact (h4 l hy).2.1 hz
      · rw [hother z hzy] at hz
        exact ((h4 l hy).2.2 z).elim (fun h => h hz) hzy
    · rw [hother y hyx] at hy
      rcases eq_or_ne z x with rfl | hzx
      · rw [hself] at hz
        exact ((h5 l hz).2 y).elim (fun h => h hy) hyx
      · rw [hother z hzx] at hz
        exact hl.apart y z l hy hz

/-- The locks of an entry stay. -/
theorem LocksOk.putSame (hl : LocksOk s) {x : ℕ} {e : OpenFileEntry}
    (h1 : e.removeLock = (s.openFilesTable x).removeLock)
    (h2 : e.writeLock = (s.openFilesTable x).writeLock)
    (h3 : e.closeLock = (s.openFilesTable x).closeLock) : LocksOk (s.putEntry x e) := by
  refine hl.putEntry (h1 ▸ hl.removeLock x) (h2 ▸ hl.writeLock x) (h3 ▸ hl.closeLock x)
    (fun l h => ?_) fun l h => ?_
  · rw [h1] at h
    exact ⟨hl.removeLock_lt x l h, h2 ▸ hl.apart x x l h, fun y => Or.inl (hl.apart x y l h)⟩
  · rw [h2] at h
    exact ⟨hl.writeLock_lt x l h, fun y => Or.inl fun hy => hl.apart y x l hy h⟩

theorem makeLocks_locks (hl : LocksOk s) (sector : ℕ) :
    s.Ends (OpenFile.makeLocks sector) (fun _ s' => LocksOk s' ∧ Same s s') := by
  unfold OpenFile.makeLocks
  simp only [Prog.ends_bind, ends_getEntry]
  by_cases hcount : (s.openFilesTable sector).count = 0
  · rw [if_pos hcount]
    simp only [Prog.ends_bind]
    refine (newLock_locks hl).mono fun l₁ s₁ h₁ => ?_
    obtain ⟨hne₁, hnew₁, hnext₁, hl₁, hs₁, ht₁⟩ := h₁
    refine (lockOrNew_locks hl₁ (hl.removeLock sector)).mono fun l₂ s₂ h₂ => ?_
    obtain ⟨hne₂, hold₂, hnext₂, hl₂, hs₂, ht₂⟩ := h₂
    refine (lockOrNew_locks hl₂ (hl.closeLock sector)).mono fun l₃ s₃ h₃ => ?_
    obtain ⟨hne₃, -, hnext₃, hl₃, hs₃, ht₃⟩ := h₃
    have htable : s₃.openFilesTable = s.openFilesTable := (ht₃.trans ht₂).trans ht₁
    refine ends_setEntry.mpr ⟨hl₃.putEntry ?_ ?_ ?_ (fun l h => ?_) (fun l h => ?_),
      ((hs₁.trans hs₂).trans hs₃).putEntry _ _⟩
    · exact fun h => hne₂ (Option.some.inj h)
    · exact fun h => hne₁ (Option.some.inj h)
    · exact fun h => hne₃ (Option.some.inj h)
    · -- the lock for removing is an old one of this file, or the newest
      obtain rfl : l₂ = l := Option.some.inj h
      rw [htable]
      rcases hold₂ with hold | ⟨hnew, hlt⟩
      · have hlt := hl.removeLock_lt sector l₂ hold
        refine ⟨by omega, fun h' => ?_, fun y => Or.inl (hl.apart sector y l₂ hold)⟩
        have : l₁ = l₂ := Option.some.inj h'
        omega
      · refine ⟨by omega, fun h' => ?_, fun y => Or.inl fun hy => ?_⟩
        · have : l₁ = l₂ := Option.some.inj h'
          omega
        · have := hl.writeLock_lt y l₂ hy
          omega
    · obtain rfl : l₁ = l := Option.some.inj h
      rw [htable]
      refine ⟨by omega, fun y => Or.inl fun hy => ?_⟩
      have := hl.removeLock_lt y l₁ hy
      omega
  · rw [if_neg hcount]
    simp only [Prog.ends_pure]
    exact ⟨hl, Same.refl s⟩

theorem make_locks (hl : LocksOk s) {sector : ℕ} (hlt : sector < numSectors) :
    s.Ends (OpenFile.make sector) (fun _ s' => LocksOk s' ∧ Same s s') := by
  unfold OpenFile.make
  simp only [Prog.ends_bind, ends_readSector, ends_getEntry]
  refine ⟨hlt, (makeLocks_locks hl sector).mono fun _ s₁ h₁ => ?_⟩
  obtain ⟨hl₁, hs₁⟩ := h₁
  simp only [ends_setEntry, ends_newOpenFile]
  obtain ⟨e, he⟩ : ∃ e, e = { s₁.openFilesTable sector with
    count := (s₁.openFilesTable sector).count + 1 } := ⟨_, rfl⟩
  rw [← he]
  have hl₂ : LocksOk (s₁.putEntry sector e) :=
    hl₁.putSame (by rw [he]) (by rw [he]) (by rw [he])
  exact ⟨hl₂.of_eq rfl le_rfl hl₂.free, hs₁.disk, hs₁.freeMapFile, hs₁.directoryFile,
    hs₁.directorySize, hs₁.createLock⟩

/-- **A file is opened, and nobody keeps the handle.** -/
theorem Ready.makeLost (hr : Ready D V s) (hlt : h < numSectors) :
    s.Ends (OpenFile.make h) (fun f s' => Opens s h f s' ∧ Same s s' ∧
      Ready D { V with extra := Function.update V.extra h (V.extra h + 1) } s') := by
  refine ((make_ends hlt).and_yields (make_locks hr.handles.locks hlt).yields).mono ?_
  rintro f s' ⟨ho, hl, hs⟩
  refine ⟨ho, hs, ⟨?_, hr.tree.relabel _ _, ?_⟩⟩
  · rw [ho.disk]
    exact hr.disk.relabel _ _
  have hopen : ∀ g h', (g, h') ∈ V.handles → s'.openFile g = s.openFile g := by
    intro g h' hg
    have hlt' := hr.handles.lt g h' hg
    rw [ho.openFile, Function.update_of_ne]
    rw [ho.handle]
    omega
  have hentry : ∀ x, x ≠ h → s'.openFilesTable x = s.openFilesTable x := ho.other
  have hfree := hopen _ _ hr.handles.freeMapFile
  have hfm := hr.handles.freeMap
  refine ⟨?_, ?_, fun g h' hg => ?_, fun g h' hg => ?_, hr.handles.nodup, fun g h' hg => ?_,
    fun g h' chain hg hi => ?_, fun x => ?_, fun x hx => ?_, fun h' hh' => ?_, hl⟩
  · refine ⟨?_, ?_, ?_, hfm.lt⟩
    · rw [ho.freeMapFile, hfree]
      exact hfm.numBytes_eq
    · rw [ho.freeMapFile, hfree]
      exact hfm.numSectors_eq
    · rw [ho.freeMapFile, hfree]
      exact hfm.sector_eq
  · rw [ho.freeMapFile]
    exact hr.handles.freeMapFile
  · rw [hopen g h' hg]
    exact hr.handles.sector g h' hg
  · rw [ho.next]
    exact Nat.lt_succ_of_lt (hr.handles.lt g h' hg)
  · rw [ho.freeMapFile]
    exact hr.handles.on g h' hg
  · rw [hopen g h' hg, ho.disk]
    exact hr.handles.cursor g h' chain hg hi
  · have hold := hr.handles.counts x
    rcases eq_or_ne x h with rfl | hne
    · rw [ho.count, hold]
      simp only [Function.update_self]
      omega
    · rw [hentry x hne, hold]
      simp only [Function.update_of_ne hne]
  · rcases eq_or_ne x h with rfl | hne
    · exact ho.locks (hr.handles.locked x)
    · rw [hentry x hne] at hx ⊢
      exact hr.handles.locked x hx
  · rcases eq_or_ne h' h with rfl | hne
    · rw [ho.removing, ho.removed]
      exact hr.handles.quiet h' hh'
    · rw [hentry h' hne]
      exact hr.handles.quiet h' hh'

/-- **A file of the volume is opened.** -/
theorem Ready.make (hr : Ready D V s) {i : FileInfo} (hi : V.files h = some i) :
    s.Ends (OpenFile.make h) (fun f s' => f = s.nextOpenFile ∧ Same s s' ∧
      Ready D { V with handles := (f, h) :: V.handles } s') := by
  refine (hr.makeLost (hr.file_lt hi)).mono ?_
  rintro f s' ⟨ho, hs, hr'⟩
  refine ⟨ho.handle, hs, ?_, hr'.tree.relabel _ _, ?_⟩
  · rw [ho.disk]
    exact hr.disk.relabel _ _
  have hself : s'.openFile f = ⟨h, h, 0, headerOn s.disk h⟩ := by
    rw [ho.openFile, Function.update_self]
  refine { hr'.handles with
    freeMapFile := List.mem_cons_of_mem _ hr'.handles.freeMapFile
    sector := fun g h' hg => ?_
    lt := fun g h' hg => ?_
    nodup := ?_
    on := fun g h' hg => ?_
    cursor := fun g h' chain hg hi' => ?_
    counts := fun x => ?_ }
  · rcases List.mem_cons.mp hg with heq | hg
    · obtain ⟨rfl, rfl⟩ := Prod.mk.inj heq
      rw [hself]
    · exact hr'.handles.sector g h' hg
  · rcases List.mem_cons.mp hg with heq | hg
    · obtain ⟨rfl, rfl⟩ := Prod.mk.inj heq
      rw [ho.next, ho.handle]
      exact Nat.lt_succ_self _
    · exact hr'.handles.lt g h' hg
  · rw [List.map_cons, List.nodup_cons]
    refine ⟨fun hmem => ?_, hr'.handles.nodup⟩
    obtain ⟨⟨g, h'⟩, hg, rfl⟩ := List.mem_map.mp hmem
    have := hr.handles.lt g h' hg
    have hh := ho.handle
    simp only at hh
    omega
  · rcases List.mem_cons.mp hg with heq | hg
    · obtain ⟨rfl, rfl⟩ := Prod.mk.inj heq
      right
      show (V.files h').isSome = true
      rw [hi]
      rfl
    · exact hr'.handles.on g h' hg
  · rcases List.mem_cons.mp hg with heq | hg
    · obtain ⟨rfl, rfl⟩ := Prod.mk.inj heq
      have hf := hr'.disk.file h' _ hi'
      have hhead : chain.getD 0 0 = h' := hf.head
      have hc := D.cursor_new s'.disk chain (headerOn s.disk h') hf.sound (hf.regular rfl)
      rw [hhead] at hc
      rw [hself]
      exact hc
    · exact hr'.handles.cursor g h' chain hg hi'
  · rw [hr'.handles.counts x, List.countP_cons]
    rcases eq_or_ne x h with rfl | hne
    · simp only [beq_self_eq_true, if_true, Function.update_self]
      omega
    · have hbeq : (h == x) = false := by
        rw [beq_eq_false_iff_ne]
        exact hne.symm
      simp only [hbeq, Bool.false_eq_true, if_false, Function.update_of_ne hne]
      omega

/-! ## Closing -/

/-- **An open file is closed.** -/
theorem Ready.close (hr : Ready D V s) {handles : List (ℕ × ℕ)}
    (hp : V.handles.Perm ((f, h) :: handles)) (hh : (V.files h).isSome = true) :
    s.Ends (OpenFile.close f)
      (fun _ s' => Same s s' ∧ Ready D { V with handles := handles } s') := by
  have hf : (f, h) ∈ V.handles := hp.mem_iff.mpr List.mem_cons_self
  have hsector := hr.handles.sector f h hf
  have hcount :
      (s.openFilesTable h).count = handles.countP (fun p => p.2 == h) + 1 + V.extra h := by
    rw [hr.handles.counts h, hp.countP_eq, List.countP_cons]
    simp
  obtain ⟨l, hl⟩ := (hr.handles.locked h (by omega)).close
  have hne : l ≠ filesysCreateLock := by
    rintro rfl
    exact hr.handles.locks.closeLock h hl
  have hfree := hr.handles.locks.free l hne
  have hremoving := (hr.handles.quiet h hh).1
  obtain ⟨e, he⟩ : ∃ e, e = { s.openFilesTable h with
      count := (s.openFilesTable h).count - 1 } := ⟨_, rfl⟩
  have hel : e.closeLock = some l := by rw [he]; exact hl
  have her : e.removing = false := by rw [he]; exact hremoving
  have hec : e.count = handles.countP (fun p => p.2 == h) + V.extra h := by
    rw [he]
    simp only
    omega
  -- the state after the lock is given back
  obtain ⟨s₁, hs₁⟩ : ∃ s₁, s₁ = s.putEntry h e := ⟨_, rfl⟩
  have hself₁ : s₁.openFilesTable h = e := by
    rw [hs₁]
    exact Function.update_self ..
  have hback : ((s.putHeld l true).putEntry h e).putHeld l false = s₁ := by
    have hheld : Function.update (Function.update s.held l true) l false = s.held := by
      rw [Function.update_idem, ← hfree, Function.update_eq_self]
    rw [hs₁]
    unfold System.putHeld System.putEntry
    rw [hheld]
  unfold OpenFile.close
  simp only [Prog.ends_bind, ends_getOpenFile, ends_getEntry, hsector]
  rw [hl]
  refine ends_acquire.mpr ⟨hfree, ?_⟩
  have htable : (s.putHeld l true).openFilesTable = s.openFilesTable := rfl
  rw [htable, if_pos (by omega), ← he]
  have hself : ((s.putHeld l true).putEntry h e).openFilesTable h = e := Function.update_self ..
  simp only [Prog.ends_bind, ends_setEntry, ends_getEntry]
  rw [hself, hel]
  refine ends_release.mpr ⟨Function.update_self .., ?_⟩
  rw [hback, hself₁, if_neg (by simp [her])]
  simp only [Prog.ends_pure]
  have hother : ∀ x, x ≠ h → s₁.openFilesTable x = s.openFilesTable x := by
    intro x hx
    rw [hs₁]
    exact Function.update_of_ne hx ..
  have hlocks : LocksOk s₁ := by
    rw [hs₁]
    exact hr.handles.locks.putSame (by rw [he]) (by rw [he]) (by rw [he])
  have hsome : f ≠ s.freeMapFile := hr.ne_freeMapFile hf hh
  have hr₀ := hr.forget hp hsome
  refine ⟨?_, ?_, hr.tree.relabel _ _, ?_⟩
  · rw [hs₁]
    exact (Same.refl s).putEntry _ _
  · rw [hs₁]
    exact hr.disk.relabel _ _
  · refine ⟨?_, ?_, fun g h' hg => ?_, fun g h' hg => ?_, hr₀.handles.nodup, fun g h' hg => ?_,
      fun g h' chain hg hi => ?_, fun x => ?_, fun x hx => ?_, fun h' hh' => ?_, hlocks⟩
    · have hfm := hr.handles.freeMap
      rw [hs₁]
      exact ⟨hfm.numBytes_eq, hfm.numSectors_eq, hfm.sector_eq, hfm.lt⟩
    · rw [hs₁]
      exact hr₀.handles.freeMapFile
    · rw [hs₁]
      exact hr₀.handles.sector g h' hg
    · rw [hs₁]
      exact hr₀.handles.lt g h' hg
    · rw [hs₁]
      exact hr₀.handles.on g h' hg
    · rw [hs₁]
      exact hr₀.handles.cursor g h' chain hg hi
    · rcases eq_or_ne x h with rfl | hne'
      · rw [hself₁]
        exact hec
      · rw [hother x hne', hr.handles.counts x, hp.countP_eq, List.countP_cons]
        have hbeq : (h == x) = false := by
          rw [beq_eq_false_iff_ne]
          exact hne'.symm
        simp only [hbeq, Bool.false_eq_true, if_false]
        omega
    · rcases eq_or_ne x h with rfl | hne'
      · rw [hself₁, he]
        obtain ⟨h1, h2, h3⟩ := hr.handles.locked x (by omega)
        exact ⟨h1, h2, h3⟩
      · rw [hother x hne'] at hx ⊢
        exact hr.handles.locked x hx
    · rcases eq_or_ne h' h with rfl | hne'
      · rw [hself₁, he]
        exact hr.handles.quiet h' hh'
      · rw [hother h' hne']
        exact hr.handles.quiet h' hh'

end Opening
end PaldOs
