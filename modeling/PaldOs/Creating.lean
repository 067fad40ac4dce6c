import PaldOs.OnDisk

/-! # Creating files and directories

`Create` marks a sector for the header of the new file and stores the header and the free map;
only then is the directory written.  Until the directory is on disk the sectors of the new file are
marked for no file, and they stay so if the entry is not among those that were written.

`Storable` says in terms of the free sectors when the directory is written as far as the new entry
and no sector is lost with it.
-/
namespace PaldOs

open Sys

/-- A table with `size` entries is written over the table `t` as far as entry `j`, which is new. -/
def EntryFits (disk : ℕ → Sector) (chain : List ℕ) (freeMap : Bitmap) (t : Directory)
    (size j : ℕ) : Prop :=
  DirectoryEntry.size * (j + 1) ≤ headerBytes * (chain.length - 1) ∨
    ¬ Short disk chain freeMap 0 (size * DirectoryEntry.size) ∧
      (j < t.length ∨ Ample disk chain freeMap 0 (size * DirectoryEntry.size))

/-- It is, and no sector is lost. -/
def Storable (disk : ℕ → Sector) (chain : List ℕ) (freeMap : Bitmap) (t : Directory)
    (size j : ℕ) : Prop :=
  Roomy disk chain freeMap 0 (size * DirectoryEntry.size) ∧ EntryFits disk chain freeMap t size j

section Congr
variable {disk disk' : ℕ → Sector} {chain : List ℕ} {freeMap freeMap' : Bitmap} {t : Directory}
  {size j : ℕ}

theorem entryFits_congr (hcount : freeMap'.countClear = freeMap.countClear)
    (hsectors : sectorCount disk' chain = sectorCount disk chain) :
    EntryFits disk' chain freeMap' t size j ↔ EntryFits disk chain freeMap t size j := by
  unfold EntryFits Ample Short
  rw [hcount, hsectors]

theorem Storable.congr (h : Storable disk chain freeMap t size j)
    (hcount : freeMap'.countClear = freeMap.countClear)
    (hsectors : sectorCount disk' chain = sectorCount disk chain) :
    Storable disk' chain freeMap' t size j := by
  refine ⟨?_, (entryFits_congr hcount hsectors).mpr h.2⟩
  have hroomy := h.1
  unfold Roomy at hroomy ⊢
  rw [hcount, hsectors]
  exact hroomy

end Congr

section Reset
variable {D : Discipline} {V : Volume} {s : System} {sector : ℕ}

/-- There is no handle on a sector that is not the first of a file. -/
theorem HandlesOk.no_handle (hh : HandlesOk D V s) (hnone : V.files sector = none)
    (hne : sector ≠ freeMapSector) (g : ℕ) : (g, sector) ∉ V.handles := by
  intro hg
  rcases hh.on g sector hg with rfl | hsome
  · exact hne ((hh.sector _ _ hg).symm.trans (hh.sector _ _ hh.freeMapFile))
  · rw [hnone] at hsome
    cases hsome

/-- The entry of `openFilesTable` of a new file is set. -/
theorem HandlesOk.resetEntry (hh : HandlesOk D V s) (hno : ∀ g, (g, sector) ∉ V.handles) :
    s.Ends (FileSystem.resetEntry sector) (fun _ s' => Same s s' ∧ s'.openFile = s.openFile ∧
      (s'.openFilesTable sector).removing = false ∧ (s'.openFilesTable sector).removed = false ∧
      HandlesOk D { V with extra := Function.update V.extra sector 0 } s') := by
  have hne : filesysCreateLock ≠ s.nextLock := Nat.ne_of_lt hh.locks.next
  unfold FileSystem.resetEntry
  refine Prog.ends_bind.mpr (ends_newLock.mpr (ends_setEntry.mpr ?_))
  obtain ⟨e, he⟩ : ∃ e, e = (⟨some s.nextLock, none, none, false, false, 0⟩ : OpenFileEntry) :=
    ⟨_, rfl⟩
  rw [← he]
  obtain ⟨s', hs'⟩ : ∃ s', s' = ({ s.putHeld s.nextLock false with
    nextLock := s.nextLock + 1 } : System).putEntry sector e := ⟨_, rfl⟩
  rw [← hs']
  have hself : s'.openFilesTable sector = e := by
    rw [hs']
    exact Function.update_self ..
  have hother : ∀ x, x ≠ sector → s'.openFilesTable x = s.openFilesTable x := by
    intro x hx
    rw [hs']
    exact Function.update_of_ne hx ..
  have hnew : LocksOk { s.putHeld s.nextLock false with nextLock := s.nextLock + 1 } :=
    hh.locks.of_eq rfl (Nat.le_succ _) fun l hl => System.putHeld_false (hh.locks.free l hl)
  have hlocks : LocksOk s' := by
    rw [hs']
    refine hnew.putEntry ?_ ?_ ?_ (fun l h => ?_) fun l h => ?_
    · rw [he]
      exact fun h => hne (Option.some.inj h).symm
    · rw [he]
      exact fun h => nomatch h
    · rw [he]
      exact fun h => nomatch h
    · rw [he] at h ⊢
      obtain rfl : s.nextLock = l := Option.some.inj h
      refine ⟨Nat.lt_succ_self _, (fun h => nomatch h), fun y => Or.inl fun hy => ?_⟩
      exact Nat.lt_irrefl _ (hh.locks.writeLock_lt y _ hy)
    · rw [he] at h
      cases h
  have hfm := hh.freeMap
  refine ⟨?_, ?_, ?_, ?_, ⟨?_, ?_, fun g h hg => ?_, fun g h hg => ?_, hh.nodup, fun g h hg => ?_,
    fun g h chain hg hi => ?_, fun x => ?_, fun x hx => ?_, fun h hs => ?_, hlocks⟩⟩
  · rw [hs']
    exact ⟨rfl, rfl, rfl, rfl, Function.update_of_ne hne ..⟩
  · rw [hs']
    rfl
  · rw [hself, he]
  · rw [hself, he]
  · rw [hs']
    exact ⟨hfm.numBytes_eq, hfm.numSectors_eq, hfm.sector_eq, hfm.lt⟩
  · rw [hs']
    exact hh.freeMapFile
  · rw [hs']
    exact hh.sector g h hg
  · rw [hs']
    exact hh.lt g h hg
  · rw [hs']
    exact hh.on g h hg
  · rw [hs']
    exact hh.cursor g h chain hg hi
  · rcases eq_or_ne x sector with rfl | hx
    · have hzero : V.handles.countP (fun p => p.2 == x) = 0 := by
        refine List.countP_eq_zero.mpr ?_
        rintro ⟨g, h⟩ hg heq
        exact hno g (beq_iff_eq.mp heq ▸ hg)
      simp only [hself, he, hzero, Function.update_self]
    · rw [hother x hx, hh.counts x]
      simp only [Function.update_of_ne hx]
  · rcases eq_or_ne x sector with rfl | hne'
    · rw [hself, he] at hx
      exact absurd rfl hx
    · rw [hother x hne'] at hx ⊢
      exact hh.locked x hx
  · rcases eq_or_ne h sector with rfl | hne'
    · rw [hself, he]
      exact ⟨rfl, rfl⟩
    · rw [hother h hne']
      exact hh.quiet h hs

/-- A new file without handles is there. -/
theorem HandlesOk.adopt (hh : HandlesOk D V s) {i : FileInfo} {leaked : ℕ → Prop}
    (hno : ∀ g, (g, sector) ∉ V.handles) (hremoving : (s.openFilesTable sector).removing = false)
    (hremoved : (s.openFilesTable sector).removed = false) :
    HandlesOk D { V.put sector i with leaked := leaked } s := by
  refine { hh with
    on := fun g h hg => ?_
    cursor := fun g h chain hg hi => ?_
    quiet := fun h hs => ?_ }
  · refine (hh.on g h hg).imp_right fun hs => ?_
    have hne : h ≠ sector := by
      rintro rfl
      exact hno g hg
    exact (congrArg Option.isSome (put_files_of_ne hne)).trans hs
  · rcases put_files_cases hi with ⟨rfl, -⟩ | ⟨-, hi⟩
    · exact absurd hg (hno g)
    · exact hh.cursor g h chain hg hi
  · rcases eq_or_ne h sector with rfl | hne
    · exact ⟨hremoving, hremoved⟩
    · exact hh.quiet h ((congrArg Option.isSome (put_files_of_ne hne)).symm.trans hs)

end Reset

/-! ## The sectors of a new file -/

section Prepare
variable {D : Discipline} {V : Volume} {s : System} {sector : ℕ} {hdr : RawFileHeader}
  {disk disk' : ℕ → Sector}

theorem uses_single {x : ℕ} : Uses disk [sector] x ↔
    x = sector ∨ ∃ j, j < (headerOn disk sector).numSectors ∧
      x = (headerOn disk sector).dataSectors j := by
  constructor
  · rintro ⟨i, hi, hx⟩
    obtain rfl : i = 0 := by simpa using hi
    exact hx
  · intro hx
    exact ⟨0, Nat.one_pos, hx⟩

/-- A file with one header. -/
theorem FileOk.single (hlt : sector < numSectors) (hok : HeaderOk (headerOn disk sector))
    (hd : (headerOn disk sector).Distinct) (hnext : (headerOn disk sector).nextFileHeader = 0)
    (hapart : ∀ j, j < (headerOn disk sector).numSectors →
      (headerOn disk sector).dataSectors j ≠ sector) : FileOk disk [sector] := by
  have hzero : ∀ i, i < [sector].length → i = 0 := fun i hi => by simpa using hi
  have hcount : sectorCount disk [sector] = (headerOn disk sector).numSectors := by
    show numDirect * 0 + (headerOn disk sector).numSectors = _
    omega
  have hdata : ∀ q, q < (headerOn disk sector).numSectors →
      dataSector disk [sector] q = (headerOn disk sector).dataSectors q := by
    intro q hq
    have hlt := hok.numSectors_le
    have heq :
        dataSector disk [sector] (numDirect * 0 + q) = (headerOn disk sector).dataSectors q :=
      dataSector_index (show q < numDirect by omega)
    rwa [Nat.mul_zero, Nat.zero_add] at heq
  refine ⟨⟨Nat.one_pos, fun i hi => ?_, fun i hi => ?_, fun i hi => ?_, hnext, fun i h0 hi => ?_,
    fun i hi => ?_⟩, fun i j hi hj _ => ?_, fun q q' hq hq' heq => ?_, fun i q hi hq => ?_⟩
  · rw [hzero i hi]
    exact hok
  · simp at hi
  · simp at hi
  · have := hzero i hi
    omega
  · rw [hzero i hi]
    exact hlt
  · rw [hzero i hi, hzero j hj]
  · rw [hcount] at hq hq'
    rw [hdata q hq, hdata q' hq'] at heq
    exact hd q q' hq hq' heq
  · rw [hcount] at hq
    rw [hzero i hi, hdata q hq]
    exact (hapart q hq).symm

/-- Sectors of nobody change: what is in memory. -/
theorem HandlesOk.withDisk (hh : HandlesOk D V s) (hd : DiskOk D V s.disk)
    (hsame : ∀ x, V.Owns s.disk x → disk' x = s.disk x) : HandlesOk D V (s.withDisk disk') :=
  { hh with
    freeMap := ⟨hh.freeMap.numBytes_eq, hh.freeMap.numSectors_eq, hh.freeMap.sector_eq,
    hh.freeMap.lt⟩
    cursor := fun g h chain hg hi => D.cursor_congr _ _ _ _ (hd.file h _ hi).sound
      (fun x hx => hsame x ⟨h, _, hi, hx⟩) (hh.cursor g h chain hg hi)
    locks := hh.locks.of_eq rfl le_rfl hh.locks.free }

/-- Sectors of nobody change. -/
theorem Ready.scribble (hr : Ready D V s)
    (hsame : ∀ x, x = 0 ∨ x = V.map ∨ V.Owns s.disk x → disk' x = s.disk x) :
    Ready D V (s.withDisk disk') :=
  ⟨hr.disk.scribble hsame, hr.tree,
    hr.handles.withDisk hr.disk fun x hx => hsame x (Or.inr (Or.inr hx))⟩

/-- **The header of a new file and the free map are stored.** -/
theorem Ready.prepare (hr : Ready D V s) (freeMap : Bitmap) (hlt : sector < numSectors)
    (hclear : mapOn s.disk V.map sector = false) (hok : HeaderOk hdr) (hfits : hdr.Fits)
    (hd : hdr.Distinct) (hnext : hdr.nextFileHeader = 0)
    (hdata : ∀ j, j < hdr.numSectors → mapOn s.disk V.map (hdr.dataSectors j) = false ∧
      hdr.dataSectors j ≠ sector)
    (hmarks : ∀ x, x < numSectors → (freeMap x = true ↔ mapOn s.disk V.map x = true ∨ x = sector ∨
      ∃ j, j < hdr.numSectors ∧ x = hdr.dataSectors j)) :
    s.Ends (writeSector sector hdr.toSector) (fun _ s₁ => s₁.Ends (writeBackFreeMap freeMap)
      (fun _ s' => ∃ disk', s' = s.withDisk disk' ∧ headerOn disk' sector = hdr ∧
        FileOk disk' [sector] ∧
        Ready D { V with leaked := fun x => V.leaked x ∨ Uses disk' [sector] x } s' ∧
        (∀ x, x < numSectors → mapOn disk' V.map x = freeMap x) ∧
        ∀ x, V.Owns s.disk x → disk' x = s.disk x)) := by
  have hmapne : V.map ≠ sector := by
    rintro rfl
    rw [hr.disk.map_marked] at hclear
    cases hclear
  refine ends_writeSector.mpr ⟨hlt, ?_⟩
  have hm := hr.handles.freeMap
  have hm' : FreeMapOk (s.putSector sector hdr.toSector) V.map :=
    ⟨hm.numBytes_eq, hm.numSectors_eq, hm.sector_eq, hm.lt⟩
  refine (writeBackFreeMap_ends hm' freeMap).mono ?_
  rintro _ _ ⟨data, rfl, hbits⟩
  obtain ⟨disk', hdisk'⟩ : ∃ disk', disk' =
    Function.update (Function.update s.disk sector hdr.toSector) V.map data := ⟨_, rfl⟩
  have hs' : (s.putSector sector hdr.toSector).putSector V.map data = s.withDisk disk' := by
    rw [hdisk']
    rfl
  have hhead : headerOn disk' sector = hdr := by
    rw [headerOn, hdisk', Function.update_of_ne hmapne.symm, Function.update_self]
    exact RawFileHeader.ofSector_toSector hfits
  have hmap : ∀ x, x < numSectors → mapOn disk' V.map x = freeMap x := by
    intro x hx
    rw [mapOn, hdisk', Function.update_self]
    exact hbits x hx
  have hframe : ∀ x, x ≠ sector → x ≠ V.map → disk' x = s.disk x := by
    intro x h1 h2
    rw [hdisk', Function.update_of_ne h2, Function.update_of_ne h1]
  have huses : ∀ x, Uses disk' [sector] x ↔ x = sector ∨
      ∃ j, j < hdr.numSectors ∧ x = hdr.dataSectors j := by
    intro x
    rw [uses_single, hhead]
  -- the sectors of the new file were clear
  have hfree : ∀ x, Uses disk' [sector] x → x < numSectors ∧ mapOn s.disk V.map x = false := by
    intro x hx
    rcases (huses x).mp hx with rfl | ⟨j, hj, rfl⟩
    · exact ⟨hlt, hclear⟩
    · exact ⟨hok.lt j hj, (hdata j hj).1⟩
  have hsame : ∀ x, V.Owns s.disk x → disk' x = s.disk x := by
    intro x hx
    refine hframe x ?_ ?_
    · rintro rfl
      rw [(hr.disk.owned_marked hx).2] at hclear
      cases hclear
    · rintro rfl
      obtain ⟨h, i, hi, hu⟩ := hx
      exact (hr.disk.reserved h i hi).2 hu
  refine ⟨disk', hs', hhead, ?_, ?_, hmap, hsame⟩
  · refine FileOk.single hlt ?_ ?_ ?_ ?_
    · rw [hhead]
      exact hok
    · rw [hhead]
      exact hd
    · rw [hhead]
      exact hnext
    · rw [hhead]
      exact fun j hj => (hdata j hj).2
  · rw [hs']
    have ht := hr.tree
    refine ⟨hr.disk.change _ ?_ hsame (fun x hx => ?_) hfree,
      ⟨ht.root, ht.entry, ht.unused, ht.once, ht.names, ht.long⟩, ?_⟩
    · refine hframe 0 ?_ hr.disk.map_ne.symm
      rintro rfl
      rw [hr.disk.zero_marked] at hclear
      cases hclear
    · rw [System.withDisk_disk, hmap x hx, hmarks x hx, huses x]
    · have hh := hr.handles.withDisk hr.disk hsame
      exact { hh with }

end Prepare

/-! ## The entry of a new file -/

/-- The table `d` is `t` with a new entry `j`, which was `v` before it was filled. -/
structure Inserted (t d : Directory) (v : DirectoryEntry) (name : List UInt8) (sector : ℕ)
    (isDirectory : Bool) (j : ℕ) : Prop where
  free : (t.slot j).inUse = false
  used : ∀ q, q < j → (t.slot q).inUse = true
  le : j ≤ t.length
  lt : j < d.length
  new : ∀ q, (t.slot q).named name = false
  slot : ∀ q, d.slot q = if q = j then v.filled name sector isDirectory else t.slot q

/-- A new file with one header: its sectors are marked, for no file as yet, and it is empty. -/
structure Prepared (D : Discipline) (V : Volume) (disk : ℕ → Sector) (sector : ℕ) (i : FileInfo) :
    Prop where
  on : FileOn D disk sector i
  chain : i.chain = [sector]
  regular : i.table = none → fileLength disk i.chain = 0
  none : V.files sector = none
  leaked : ∀ x, Uses disk i.chain x → V.leaked x
  empty : ∀ t, i.table = some t → numDirEntries ≤ t.length ∧
    ∀ q, (t.slot q).inUse = false ∧ (t.slot q).isDirectory = false

/-- All files are found from the root. -/
def Volume.AllReached (V : Volume) : Prop := ∀ h i, V.files h = some i → V.Reaches h

/-- **After the directory at `c` is written**, with or without the entry of the new file. -/
structure Registered (D : Discipline) (V : Volume) (s : System) (c sector : ℕ) (V' : Volume)
    (s' : System) : Prop where
  ready : Ready D V' s'
  map : V'.map = V.map
  handles : V'.handles = V.handles
  extra : V'.extra = Function.update V.extra sector 0
  reached : V.AllReached → V'.AllReached
  kind : ∀ h b, V.kind h = some b → V'.kind h = some b
  dir : ∃ chain t, AtDir V' s' c chain t
  freeMapFile : s'.freeMapFile = s.freeMapFile
  directoryFile : s'.directoryFile = s.directoryFile
  directorySize : s'.directorySize = s.directorySize
  createLock : s'.held filesysCreateLock = s.held filesysCreateLock

/-- **The new file and its entry are there.**  The directory at `c` had the headers `chain`, and
`taken` sectors are those of the new file. -/
structure Enrolled (V : Volume) (s : System) (c : ℕ) (chain : List ℕ) (name : List UInt8)
    (isDirectory : Bool) (taken : ℕ) (V' : Volume) (s' : System) : Prop where
  entry : ∃ j e, e.named name = true ∧ e.isDirectory = isDirectory ∧
    (V.slot c j).inUse = false ∧ (∀ q, q < j → (V.slot c q).inUse = true) ∧ c ≠ e.sector ∧
    (∀ h q, h ≠ e.sector → V'.slot h q = if h = c ∧ q = j then e else V.slot h q) ∧
    ∃ i, V'.files e.sector = some i ∧ i.chain = [e.sector] ∧ i.table.isSome = isDirectory ∧
      (isDirectory = false → fileLength s'.disk [e.sector] = 0)
  count : ∀ chain' t', V'.files c = some ⟨chain', some t'⟩ →
    (mapOn s'.disk V.map).countClear + (sectorCount s'.disk chain' + chain'.length) + taken =
      (mapOn s.disk V.map).countClear + (sectorCount s.disk chain + chain.length)
  marked : ∀ x, x < numSectors → mapOn s.disk V.map x = true → mapOn s'.disk V.map x = true
  still : ∀ t chain' t', V.files c = some ⟨chain, some t⟩ → V'.files c = some ⟨chain', some t'⟩ →
    t'.length ≤ t.length → t'.length = t.length ∧
      sectorCount s'.disk chain' + chain'.length = sectorCount s.disk chain + chain.length

/-- **What was there stays**, and the name is bound to the sector in the directory at `c` exactly if
its entry fits. -/
structure Bound (V : Volume) (s : System) (c : ℕ) (name : List UInt8) (isDirectory : Bool)
    (sector : ℕ) (fits : Prop) (V' : Volume) (s' : System) : Prop where
  entries : ∀ h q, (V.slot h q).inUse = true → V'.slot h q = V.slot h q
  file : ∀ h chain, V.files h = some ⟨chain, none⟩ → V'.files h = some ⟨chain, none⟩ ∧
    ∀ x, Uses s.disk chain x → s'.disk x = s.disk x
  bound : fits → ∃ j, (V'.slot c j).named name = true ∧ (V'.slot c j).isDirectory = isDirectory ∧
    (V'.slot c j).sector = sector
  unbound : ¬ fits → ∀ h q, V'.slot h q = V.slot h q

/-- The entry by which a full table with `size` entries grows is not one of a directory before it is
filled. -/
def GrowsTyped (heap : ℕ → UInt8) (t : Directory) (size : ℕ) : Prop :=
  size ≤ t.freeIndex → (Directory.entryAt heap size).isDirectory = false

/-- **The name is that of directories only**, if of anything, in the directory at `c`. -/
def Misfiled (disk : ℕ → Sector) (c : ℕ) (name : List UInt8) : Prop :=
  ∀ q, ((tableAt disk c).slot q).named name = true →
    ((tableAt disk c).slot q).isDirectory = true

section Register
variable {D : Discipline} {V : Volume} {s : System} {c sector j : ℕ} {chain : List ℕ}
  {t d : Directory} {v : DirectoryEntry} {name : List UInt8} {isDirectory : Bool} {i : FileInfo}

theorem Inserted.slot_merge (hd : Inserted t d v name sector isDirectory j) (k q : ℕ) :
    (d.merge t k).slot q =
      if q = j ∧ j < k then v.filled name sector isDirectory else t.slot q := by
  rw [Directory.slot_merge, hd.slot q]
  by_cases hq : q = j
  · subst hq
    simp
  · simp [hq]

/-- The sectors of the new file are not touched by the write of a directory. -/
theorem Prepared.grown (hp : Prepared D V s.disk sector i) (hd : DiskOk D V s.disk)
    (hc : V.files c = some ⟨chain, some t⟩) {disk' : ℕ → Sector} {chain' reserved : List ℕ}
    (hg : Grown V s.disk chain disk' chain' reserved) {x : ℕ} (hx : Uses s.disk i.chain x) :
    disk' x = s.disk x := by
  obtain ⟨-, hmap, hown⟩ := hd.leaked x (hp.leaked x hx)
  refine hg.frame x hmap fun hu => ?_
  rcases hg.fresh x hu with ho | ho
  · exact hown ⟨c, _, hc, ho⟩
  · rw [(hd.marks x (hp.on.sound.uses_lt hx)).mpr (Or.inr (Or.inr (Or.inl (hp.leaked x hx))))] at ho
    cases ho

/-- The new entry is among those that were written. -/
theorem TreeOk.register {k : ℕ} {chain' reserved : List ℕ} (ht : TreeOk V)
    (hc : V.files c = some ⟨chain, some t⟩) (hd : Inserted t d v name sector isDirectory j)
    (htyped : isDirectory = false → v.isDirectory = false)
    (hp : Prepared D V s.disk sector i) (hdir : i.table.isSome = isDirectory) (hjk : j < k)
    {leaked : ℕ → Prop} {handles : List (ℕ × ℕ)} {extra : ℕ → ℕ} {V' : Volume}
    (hV' : V' = { (V.grown c ⟨chain', some (d.merge t k)⟩ reserved).put sector i with
      leaked := leaked, handles := handles, extra := extra }) :
    TreeOk V' ∧ Adds V c j sector (v.filled name sector isDirectory) V' := by
  have hne : c ≠ sector := by
    rintro rfl
    rw [hp.none] at hc
    cases hc
  have hself : V'.files sector = some i := by
    rw [hV']
    exact put_files_self
  have hdirectory : V'.files c = some ⟨chain', some (d.merge t k)⟩ := by
    rw [hV']
    exact (put_files_of_ne hne).trans put_files_self
  have hother : ∀ h, h ≠ c → h ≠ sector → V'.files h = V.files h := by
    intro h h1 h2
    rw [hV']
    exact (put_files_of_ne h2).trans (put_files_of_ne h1)
  have hadds : Adds V c j sector (v.filled name sector isDirectory) V' := by
    refine ⟨?_, rfl, rfl, ?_, hne, fun h q h2 => ?_, fun q => ?_, fun h => ?_⟩
    · rw [slot_of_files hc]
      exact hd.free
    · rw [Volume.kind, hp.none]
      rfl
    · rcases eq_or_ne h c with rfl | h1
      · rw [slot_of_files hdirectory, hd.slot_merge, slot_of_files hc]
        simp only [hjk, and_true, true_and]
      · rw [if_neg (fun hh => h1 hh.1), Volume.slot, hother h h1 h2, Volume.slot]
    · cases htab : i.table with
      | none =>
        have hnew : V'.files sector = some ⟨i.chain, none⟩ := by rw [hself, ← htab]
        rw [slot_of_regular hnew]
        exact ⟨rfl, rfl⟩
      | some t' =>
        have hnew : V'.files sector = some ⟨i.chain, some t'⟩ := by rw [hself, ← htab]
        rw [slot_of_files hnew]
        exact (hp.empty t' htab).2 q
    · rcases eq_or_ne h sector with rfl | h2
      · rw [if_pos rfl, kind_of_files hself, hdir]
        rw [DirectoryEntry.isDirectory_filled htyped]
      · rw [if_neg h2]
        rcases eq_or_ne h c with rfl | h1
        · rw [kind_of_files hdirectory, kind_of_files hc]
          rfl
        · rw [Volume.kind, hother h h1 h2, Volume.kind]
  refine ⟨ht.add hadds (fun q hu => ?_) fun h chain₁ t₁ hi₁ => ?_, hadds⟩
  · rw [DirectoryEntry.named_filled _ _ _ _ _ hu, slot_of_files hc]
    exact hd.new q
  · rcases eq_or_ne h sector with rfl | h2
    · rw [hself, Option.some.injEq] at hi₁
      exact (hp.empty t₁ (by rw [hi₁])).1
    · rcases eq_or_ne h c with rfl | h1
      · rw [hdirectory, Option.some.injEq, FileInfo.mk.injEq, Option.some.injEq] at hi₁
        rw [← hi₁.2, Directory.length_merge]
        exact (ht.long h chain t hc).trans (Nat.le_max_left ..)
      · rw [hother h h1 h2] at hi₁
        exact ht.long h chain₁ t₁ hi₁

/-- The new entry is not among those that were written. -/
theorem TreeOk.rewrite {k : ℕ} {chain' reserved : List ℕ} (ht : TreeOk V)
    (hc : V.files c = some ⟨chain, some t⟩) (hd : ∀ q, (d.merge t k).slot q = t.slot q)
    {extra : ℕ → ℕ} {V' : Volume}
    (hV' : V' = { V.grown c ⟨chain', some (d.merge t k)⟩ reserved with extra := extra }) :
    TreeOk V' ∧ (∀ h q, V'.slot h q = V.slot h q) ∧ ∀ h, V'.kind h = V.kind h := by
  have hdirectory : V'.files c = some ⟨chain', some (d.merge t k)⟩ := by
    rw [hV']
    exact put_files_self
  have hother : ∀ h, h ≠ c → V'.files h = V.files h := by
    intro h h1
    rw [hV']
    exact put_files_of_ne h1
  have hslot : ∀ h q, V'.slot h q = V.slot h q := by
    intro h q
    rcases eq_or_ne h c with rfl | h1
    · rw [slot_of_files hdirectory, slot_of_files hc, hd q]
    · rw [Volume.slot, hother h h1, Volume.slot]
  have hkind : ∀ h, V'.kind h = V.kind h := by
    intro h
    rcases eq_or_ne h c with rfl | h1
    · rw [kind_of_files hdirectory, kind_of_files hc]
      rfl
    · rw [Volume.kind, hother h h1, Volume.kind]
  refine ⟨ht.of_slots hslot hkind fun h chain₁ t₁ hi₁ => ?_, hslot, hkind⟩
  rcases eq_or_ne h c with rfl | h1
  · rw [hdirectory, Option.some.injEq, FileInfo.mk.injEq, Option.some.injEq] at hi₁
    rw [← hi₁.2, Directory.length_merge]
    exact (ht.long h chain t hc).trans (Nat.le_max_left ..)
  · rw [hother h h1] at hi₁
    exact ht.long h chain₁ t₁ hi₁

/-- The new entry is among those that were written exactly if it fits. -/
theorem Written.stores_iff {k : ℕ} {chain' reserved : List ℕ} {s' : System}
    (hw : Written D V s c chain t d k chain' reserved s')
    (hd : Inserted t d v name sector isDirectory j) (hle : d.length ≤ t.length + 1) :
    j < k ↔ EntryFits s.disk chain (mapOn s.disk V.map) t d.length j := by
  have hes : DirectoryEntry.size = 32 := rfl
  have hlt := hd.lt
  constructor
  · intro hjk
    by_contra hno
    rw [EntryFits, not_or, not_and_or, not_not, not_or] at hno
    obtain ⟨hfar, hshort | ⟨hnew, hfew⟩⟩ := hno
    · have hstop := hw.short hshort
      rw [hes] at hfar hstop
      omega
    · -- the new entry is the last, and all is written
      have := hw.le
      exact hfew (hw.all.mp (by omega))
  · rintro (hfirst | ⟨hns, hold | hample⟩)
    · have hmost := hw.most
      rw [hes] at hfirst hmost
      omega
    · exact Nat.lt_of_lt_of_le hold (hw.existing hns)
    · rw [hw.all.mpr hample]
      exact hlt

/-- The directory is written, with a new entry, and the entry of `openFilesTable` is set. -/
theorem Ready.writeEntry (hr : Ready D V s) (ha : AtDir V s c chain t)
    (hlen : d.length = s.directorySize) (hd : Inserted t d v name sector isDirectory j)
    (hlt : sector < numSectors) (hno : ∀ g, (g, sector) ∉ V.handles) :
    s.Ends (d.writeBack s.directoryFile) (fun _ s₁ => ∃ k chain' reserved,
      Written D V s c chain t d k chain' reserved s₁ ∧
      s₁.Ends (FileSystem.resetEntry sector) (fun _ s' => Same s₁ s' ∧ s'.openFile = s₁.openFile ∧
        (s'.openFilesTable sector).removing = false ∧ (s'.openFilesTable sector).removed = false ∧
        HandlesOk D { V.grown c ⟨chain', some (d.merge t k)⟩ reserved with
          extra := Function.update V.extra sector 0 } s')) := by
  have htab := hr.disk.directory ha.file
  have hlong := htab.2.2.length_le htab.2.1
  have hsize := ha.size_le
  have hns : numSectors = 1024 := rfl
  have hbound : ∀ q, (d.slot q).sector < 2 ^ 32 := by
    intro q
    rw [hd.slot q]
    split
    · show sector < 2 ^ 32
      omega
    · exact htab.2.2.sector_lt q
  refine (hr.writeBack ha.handle ha.file (hlen ▸ ha.le) (by omega) hbound).mono ?_
  rintro _ s₁ ⟨k, chain', reserved, hw⟩
  exact ⟨k, chain', reserved, hw, hw.handles.resetEntry fun g => hno g⟩

/-- **The directory is written, with a new entry**, and the entry of `openFilesTable` is set. -/
theorem Ready.register (hr : Ready D V s) (ha : AtDir V s c chain t)
    (hlen : d.length = s.directorySize) (hd : Inserted t d v name sector isDirectory j)
    (htyped : isDirectory = false → v.isDirectory = false)
    (hp : Prepared D V s.disk sector i) (hdir : i.table.isSome = isDirectory) :
    s.Ends (d.writeBack s.directoryFile) (fun _ s₁ => s₁.Ends (FileSystem.resetEntry sector)
      (fun _ s' => ∃ V', Registered D V s c sector V' s' ∧
        (Storable s.disk chain (mapOn s.disk V.map) t s.directorySize j →
          (∀ x, V'.leaked x → V.leaked x ∧ ¬ Uses s.disk i.chain x) ∧
          Enrolled V s c chain name isDirectory 0 V' s') ∧
        Bound V s c name isDirectory sector
          (EntryFits s.disk chain (mapOn s.disk V.map) t s.directorySize j) V' s')) := by
  have hc := ha.file
  have hsize := ha.size_le
  have hsector : sector < numSectors := by
    have := hp.on.sound.heads_lt 0 hp.on.sound.pos
    rwa [hp.on.head] at this
  have hzero := (hr.disk.leaked sector (hp.leaked sector hp.on.uses_self)).1
  have hno := hr.handles.no_handle hp.none hzero
  refine (hr.writeEntry ha hlen hd hsector hno).mono ?_
  rintro _ s₁ ⟨k, chain', reserved, hw, hreset⟩
  refine hreset.mono ?_
  rintro _ s' ⟨hs', hopen, hremoving, hremoved, hh'⟩
  have hne : c ≠ sector := by
    rintro rfl
    rw [hp.none] at hc
    cases hc
  have hkeep : ∀ x, Uses s.disk i.chain x → s'.disk x = s.disk x := by
    intro x hx
    rw [hs'.disk]
    exact hp.grown hr.disk hc hw.grown hx
  have huses := uses_congr hkeep
  have hdisk : DiskOk D (V.grown c ⟨chain', some (d.merge t k)⟩ reserved) s'.disk := by
    rw [hs'.disk]
    exact hw.disk
  have hstay : s'.directoryFile = s.directoryFile := hs'.directoryFile.trans hw.directoryFile
  have hsize' : s'.directorySize = d.length :=
    (hs'.directorySize.trans hw.directorySize).trans hlen.symm
  have hfit : t.length ≤ (d.merge t k).length ∧ (d.merge t k).length ≤ d.length ∧
      d.length ≤ (d.merge t k).length + 1 := by
    have := hw.le
    have := ha.le
    rw [Directory.length_merge]
    omega
  have hiff := hw.stores_iff hd (hlen.le.trans hsize)
  rw [hlen] at hiff
  -- the sectors of the other files
  have hframe : ∀ h chain₀, V.files h = some ⟨chain₀, none⟩ →
      h ≠ c ∧ ∀ x, Uses s.disk chain₀ x → s'.disk x = s.disk x := by
    intro h chain₀ hh
    have hhc : h ≠ c := by
      rintro rfl
      rw [hc] at hh
      cases hh
    refine ⟨hhc, fun x hx => ?_⟩
    rw [hs'.disk]
    exact (hw.grown.other (i := ⟨chain', none⟩) hr.disk hc hhc hh hx).2
  by_cases hjk : j < k
  · -- the entry is on disk, and the new file is there
    obtain ⟨V', hV'⟩ : ∃ V' : Volume, V' = { (V.grown c ⟨chain', some (d.merge t k)⟩
        reserved).put sector i with
      leaked := fun x => (V.leaked x ∨ x ∈ reserved) ∧ ¬ Uses s'.disk i.chain x
      extra := Function.update V.extra sector 0 } := ⟨_, rfl⟩
    obtain ⟨htree, hadds⟩ := hr.tree.register hc hd htyped hp hdir hjk hV'
    have hdisk' : DiskOk D V' s'.disk := by
      rw [hV']
      refine (hdisk.adopt ((put_files_of_ne hne.symm).trans hp.none) (hp.on.congr hkeep)
        fun x hx => Or.inl (hp.leaked x ((huses x).mp hx))).relabel _ _
    have hhandles : HandlesOk D V' s' := by
      rw [hV']
      exact hh'.adopt (fun g => hno g) hremoving hremoved
    have hcfile : V'.files c = some ⟨chain', some (d.merge t k)⟩ := by
      rw [hV']
      exact (put_files_of_ne hne).trans put_files_self
    have hkindj : (v.filled name sector isDirectory).isDirectory = isDirectory :=
      DirectoryEntry.isDirectory_filled htyped
    refine ⟨V', ⟨⟨hdisk', htree, hhandles⟩, by rw [hV']; rfl, by rw [hV']; rfl, by rw [hV'],
      fun hall h i' hi' => ?_, fun h b hb => ?_, ⟨chain', d.merge t k, ?_, hcfile, ?_, ?_⟩,
      hs'.freeMapFile.trans hw.freeMapFile, hstay, hsize'.trans hlen,
      hs'.createLock.trans hw.createLock⟩,
      fun hst => ⟨fun x hx => ?_, ⟨j, _, DirectoryEntry.named_filled_self _ _ _ _, hkindj, ?_,
        fun q hq => ?_, hne, hadds.slot, i, ?_, hp.chain, hdir, fun hreg => ?_⟩,
        fun chain₁ t₁ hi₁ => ?_,
        fun x hx hmark => ?_, fun t₀ chain₁ t₁ hi₀ hi₁ hlonger => ?_⟩,
      ⟨fun h q hu => ?_, fun h chain₀ hh => ⟨?_, (hframe h chain₀ hh).2⟩, fun _ => ⟨j, ?_⟩,
        fun hno => absurd (hiff.mp hjk) hno⟩⟩
    · by_cases hh : h = sector
      · have hslot := hadds.slot_self
        have hentry := ((hall c _ hc).add hadds).entry (j := j) (by rw [hslot]; rfl)
        rw [hslot] at hentry
        rw [hh]
        exact hentry
      · by_cases hhc : h = c
        · rw [hhc]
          exact (hall c _ hc).add hadds
        · rw [hV'] at hi'
          have hi₀ : V.files h = some i' :=
            ((put_files_of_ne hhc).symm.trans (put_files_of_ne hh).symm).trans hi'
          exact (hall h i' hi₀).add hadds
    · rw [hadds.kind, if_neg, hb]
      rintro rfl
      rw [hadds.new] at hb
      cases hb
    · rw [hV', hstay]
      exact ha.handle
    · omega
    · omega
    · rw [hV'] at hx
      obtain ⟨hx, hnot⟩ := hx
      rw [huses x] at hnot
      rcases hx with hx | hx
      · exact ⟨hx, hnot⟩
      · rw [hw.roomy (hlen ▸ hst.1)] at hx
        cases hx
    · rw [slot_of_files hc]
      exact hd.free
    · rw [slot_of_files hc]
      exact hd.used q hq
    · rw [hV']
      exact put_files_self
    · have htable : i.table = none := by
        rw [hreg] at hdir
        simpa using hdir
      have hempty := hp.regular htable
      rw [hp.chain] at hempty hkeep
      have hlength : fileLength s'.disk [sector] = fileLength s.disk [sector] :=
        fileLength_congr Nat.one_pos fun q hq => headerOf_of_uses hkeep hq
      exact hlength.trans hempty
    · rw [hcfile, Option.some.injEq, FileInfo.mk.injEq] at hi₁
      have hcount := hw.count
      rw [hw.roomy (hlen ▸ hst.1), List.length_nil] at hcount
      rw [hs'.disk, ← hi₁.1]
      exact hcount
    · rw [hs'.disk]
      exact (hw.grown.marks x hx).mpr (Or.inl hmark)
    · rw [hc, Option.some.injEq, FileInfo.mk.injEq, Option.some.injEq] at hi₀
      rw [hcfile, Option.some.injEq, FileInfo.mk.injEq, Option.some.injEq] at hi₁
      rw [← hi₀.2, ← hi₁.2, Directory.length_merge] at hlonger ⊢
      obtain ⟨hchain, hsectors⟩ := hw.still hr.disk hc ((Nat.le_max_right ..).trans hlonger)
      refine ⟨Nat.le_antisymm hlonger (Nat.le_max_left ..), ?_⟩
      rw [hs'.disk, ← hi₁.1, hsectors, hchain]
    · exact hadds.slot_of_inUse hu
    · have hhs : h ≠ sector := by
        rintro rfl
        rw [hp.none] at hh
        cases hh
      rw [hV']
      exact ((put_files_of_ne hhs).trans (put_files_of_ne (hframe h chain₀ hh).1)).trans hh
    · rw [hadds.slot_self]
      exact ⟨DirectoryEntry.named_filled_self _ _ _ _, hkindj, rfl⟩
  · -- the new file stays without an entry
    obtain ⟨V', hV'⟩ : ∃ V' : Volume, V' = { V.grown c ⟨chain', some (d.merge t k)⟩ reserved with
      extra := Function.update V.extra sector 0 } := ⟨_, rfl⟩
    have hslots : ∀ q, (d.merge t k).slot q = t.slot q := by
      intro q
      rw [hd.slot_merge, if_neg (fun h => hjk h.2)]
    obtain ⟨htree, hslot, hkind⟩ := hr.tree.rewrite hc hslots hV'
    have hcfile : V'.files c = some ⟨chain', some (d.merge t k)⟩ := by
      rw [hV']
      exact put_files_self
    refine ⟨V', ⟨⟨?_, htree, hV' ▸ hh'⟩, by rw [hV']; rfl, by rw [hV']; rfl, by rw [hV'],
      fun hall h i' hi' => ?_, fun h b hb => (hkind h).trans hb,
      ⟨chain', d.merge t k, ?_, hcfile, ?_, ?_⟩, hs'.freeMapFile.trans hw.freeMapFile, hstay,
      hsize'.trans hlen, hs'.createLock.trans hw.createLock⟩,
      fun hst => absurd (hiff.mpr hst.2) hjk,
      ⟨fun h q _ => hslot h q, fun h chain₀ hh => ⟨?_, (hframe h chain₀ hh).2⟩,
        fun hfits => absurd (hiff.mpr hfits) hjk, fun _ => hslot⟩⟩
    · rw [hV']
      exact hdisk.relabel _ _
    · have hkind' := hkind h
      rw [kind_of_files hi', Volume.kind] at hkind'
      obtain ⟨i₀, hi₀, -⟩ := Option.map_eq_some_iff.mp hkind'.symm
      exact (hall h i₀ hi₀).mono fun h q _ => hslot h q
    · rw [hV', hstay]
      exact ha.handle
    · omega
    · omega
    · rw [hV']
      exact (put_files_of_ne (hframe h chain₀ hh).1).trans hh

/-- The entry of a file that had the mark of a directory keeps it. -/
theorem Ready.misfile (hr : Ready D V s) (ha : AtDir V s c chain t)
    (hlen : d.length = s.directorySize) (hd : Inserted t d v name sector isDirectory j)
    (hv : v.isDirectory = true) (hlt : sector < numSectors)
    (hno : ∀ g, (g, sector) ∉ V.handles) :
    s.Ends (d.writeBack s.directoryFile) (fun _ s₁ => s₁.Ends (FileSystem.resetEntry sector)
      (fun _ s' => Misfiled s'.disk c name)) := by
  refine (hr.writeEntry ha hlen hd hlt hno).mono ?_
  rintro _ s₁ ⟨k, chain', reserved, hw, hreset⟩
  refine hreset.mono ?_
  rintro _ s' ⟨hs', -⟩ q hq
  have htable : tableAt s'.disk c = d.merge t k := by
    rw [hs'.disk]
    exact hw.disk.tableAt_eq put_files_self
  rw [htable, hd.slot_merge] at hq ⊢
  by_cases hstored : q = j ∧ j < k
  · rw [if_pos hstored, DirectoryEntry.filled, hv, Bool.or_true]
  · rw [if_neg hstored, hd.new q] at hq
    cases hq

/-- What was there before the new file was prepared stays. -/
theorem Bound.weaken {V₁ V' : Volume} {s₁ s' : System} {fits fits' : Prop}
    (hb : Bound V₁ s₁ c name isDirectory sector fits V' s') (hfiles : V₁.files = V.files)
    (hsame : ∀ x, V.Owns s.disk x → s₁.disk x = s.disk x)
    (hfits : fits ↔ fits') : Bound V s c name isDirectory sector fits' V' s' where
  entries h q hu := by
    have := hb.entries h q
    rw [Volume.slot, hfiles] at this
    exact this hu
  file h chain hh := by
    obtain ⟨hfile, hdisk⟩ := hb.file h chain (by rw [hfiles]; exact hh)
    refine ⟨hfile, fun x hx => ?_⟩
    have hx' : Uses s₁.disk chain x :=
      (uses_congr (fun y hy => hsame y ⟨h, _, hh, hy⟩) x).mpr hx
    exact (hdisk x hx').trans (hsame x ⟨h, _, hh, hx⟩)
  bound h := hb.bound (hfits.mpr h)
  unbound hno h q := by
    rw [hb.unbound (fun hc => hno (hfits.mp hc)) h q, Volume.slot, hfiles, Volume.slot]

/-- What is different before the directory is written makes no difference after it. -/
theorem Registered.weaken {V₁ V' : Volume} {s₁ s' : System}
    (hreg : Registered D V₁ s₁ c sector V' s') (hmap : V₁.map = V.map) (hfiles : V₁.files = V.files)
    (hhandles : V₁.handles = V.handles)
    (hextra : Function.update V₁.extra sector 0 = Function.update V.extra sector 0)
    (hs : Same s { s₁ with disk := s.disk }) : Registered D V s c sector V' s' where
  ready := hreg.ready
  map := hreg.map.trans hmap
  handles := hreg.handles.trans hhandles
  extra := hreg.extra.trans hextra
  reached hall := by
    refine hreg.reached fun h i hi => ?_
    rw [hfiles] at hi
    refine (hall h i hi).mono fun h q _ => ?_
    rw [Volume.slot, Volume.slot, hfiles]
  kind h b hb := by
    refine hreg.kind h b ?_
    rw [Volume.kind, hfiles]
    exact hb
  dir := hreg.dir
  freeMapFile := hreg.freeMapFile.trans hs.freeMapFile
  directoryFile := hreg.directoryFile.trans hs.directoryFile
  directorySize := hreg.directorySize.trans hs.directorySize
  createLock := hreg.createLock.trans hs.createLock

/-- The sectors of the new file are counted. -/
theorem Enrolled.weaken {V₁ V' : Volume} {s₁ s' : System} {taken : ℕ}
    (he : Enrolled V₁ s₁ c chain name isDirectory 0 V' s') (hmap : V₁.map = V.map)
    (hfiles : V₁.files = V.files) (hsectors : sectorCount s₁.disk chain = sectorCount s.disk chain)
    (hcount : (mapOn s₁.disk V.map).countClear + taken = (mapOn s.disk V.map).countClear)
    (hmarked : ∀ x, x < numSectors → mapOn s.disk V.map x = true → mapOn s₁.disk V.map x = true) :
    Enrolled V s c chain name isDirectory taken V' s' where
  entry := by
    obtain ⟨j, e, h1, h2, hfree, hused, hne, hslot, hfile⟩ := he.entry
    have hsame : ∀ h q, V₁.slot h q = V.slot h q := fun h q => by
      rw [Volume.slot, Volume.slot, hfiles]
    refine ⟨j, e, h1, h2, hsame c j ▸ hfree, fun q hq => hsame c q ▸ hused q hq, hne,
      fun h q hh => ?_, hfile⟩
    rw [hslot h q hh, hsame]
  count chain' t' hi := by
    have := he.count chain' t' hi
    rw [hmap, hsectors] at this
    omega
  marked x hx hmark := by
    have hstays := he.marked x hx
    rw [hmap] at hstays
    exact hstays (hmarked x hx hmark)
  still t chain' t' hi := by
    rw [← hsectors]
    exact he.still t chain' t' (hfiles ▸ hi)

/-- The sectors of a new file belong to no file. -/
theorem Ready.new_none (hr : Ready D V s) (hclear : mapOn s.disk V.map sector = false) :
    V.files sector = none := by
  cases hi : V.files sector with
  | none => rfl
  | some i =>
    have huse := (hr.disk.file sector i hi).uses_self
    rw [(hr.disk.owned_marked ⟨sector, i, hi, huse⟩).2] at hclear
    cases hclear

theorem Ready.sectorCount_frame {disk' : ℕ → Sector} (hr : Ready D V s)
    (hc : V.files c = some ⟨chain, some t⟩) (hsame : ∀ x, V.Owns s.disk x → disk' x = s.disk x) :
    sectorCount disk' chain = sectorCount s.disk chain := by
  have hpos := (hr.disk.directory hc).2.1.pos
  have hfile : ∀ x, Uses s.disk chain x → disk' x = s.disk x := fun x hx => hsame x ⟨c, _, hc, hx⟩
  rw [sectorCount, sectorCount, headerOf_of_uses hfile (by omega)]

theorem storable_of_frame {disk' : ℕ → Sector} {freeMap : Bitmap} {size : ℕ}
    (hr : Ready D V s) (hc : V.files c = some ⟨chain, some t⟩)
    (hsame : ∀ x, V.Owns s.disk x → disk' x = s.disk x)
    (hmap : ∀ x, x < numSectors → mapOn disk' V.map x = freeMap x)
    (hst : Storable s.disk chain freeMap t size j) :
    Storable disk' chain (mapOn disk' V.map) t size j :=
  hst.congr (Bitmap.countClear_congr hmap) (hr.sectorCount_frame hc hsame)

/-- The header of a new file and the free map are stored. -/
theorem Ready.prepareFile (hr : Ready D V s) {freeMap : Bitmap} (hlt : sector < numSectors)
    (hclear : mapOn s.disk V.map sector = false)
    (hmap : ∀ x, x < numSectors → freeMap x = (mapOn s.disk V.map).mark sector x) :
    s.Ends (writeSector sector RawFileHeader.empty.toSector) (fun _ s₁ =>
      s₁.Ends (writeBackFreeMap freeMap) (fun _ s' => ∃ disk', s' = s.withDisk disk' ∧
        Ready D { V with leaked := fun x => V.leaked x ∨ Uses disk' [sector] x } s' ∧
        Prepared D { V with leaked := fun x => V.leaked x ∨ Uses disk' [sector] x }
          (s.withDisk disk').disk sector ⟨[sector], none⟩ ∧
        (∀ x, x < numSectors → mapOn disk' V.map x = freeMap x) ∧
        ∀ x, V.Owns s.disk x → disk' x = s.disk x)) := by
  have hmarks : ∀ x, x < numSectors → (freeMap x = true ↔ mapOn s.disk V.map x = true ∨ x = sector ∨
      ∃ j, j < RawFileHeader.empty.numSectors ∧ x = RawFileHeader.empty.dataSectors j) := by
    intro x hx
    rw [hmap x hx, Bitmap.mark]
    rcases eq_or_ne x sector with rfl | hne
    · simp
    · rw [Function.update_of_ne hne]
      refine ⟨Or.inl, ?_⟩
      rintro (h | h | ⟨q, hq, -⟩)
      · exact h
      · exact absurd h hne
      · exact absurd hq (Nat.not_lt_zero _)
  refine (hr.prepare freeMap hlt hclear RawFileHeader.headerOk_empty RawFileHeader.fits_empty
    (fun i _ hi => absurd hi (Nat.not_lt_zero i)) rfl (fun i hi => absurd hi (Nat.not_lt_zero i))
    hmarks).mono ?_
  intro _ s₁ h₁
  refine h₁.mono ?_
  rintro _ _ ⟨disk', rfl, hhead, hok, hr', hmap', hsame⟩
  have hempty : fileLength disk' [sector] = 0 := by
    show headerBytes * 0 + (headerOn disk' sector).numBytes = 0
    rw [hhead]
    rfl
  exact ⟨disk', rfl, hr', ⟨.ofRegular rfl hok.sound (D.ok_of_fileOk _ _ hok), rfl, fun _ => hempty,
    hr.new_none hclear, fun x hx => Or.inr hx, fun t ht => by cases ht⟩, hmap', hsame⟩

/-- **What `Create` stores.** -/
theorem Ready.storeFile (hr : Ready D V s) (ha : AtDir V s c chain t)
    (hlen : d.length = s.directorySize) (hd : Inserted t d v name sector false j)
    (htyped : v.isDirectory = false) {freeMap : Bitmap}
    (hlt : sector < numSectors) (hclear : mapOn s.disk V.map sector = false)
    (hmap : ∀ x, x < numSectors → freeMap x = (mapOn s.disk V.map).mark sector x) :
    s.Ends (FileSystem.storeFile sector freeMap d) (fun r s' => r = some true ∧
      ∃ V', Registered D V s c sector V' s' ∧
        (Storable s.disk chain freeMap t s.directorySize j →
          (∀ x, V'.leaked x → V.leaked x) ∧ Enrolled V s c chain name false 1 V' s') ∧
        Bound V s c name false sector (EntryFits s.disk chain freeMap t s.directorySize j) V'
          s') := by
  unfold FileSystem.storeFile
  simp only [Prog.ends_bind]
  refine (hr.prepareFile hlt hclear hmap).mono ?_
  intro _ s₁ h₁
  refine h₁.mono ?_
  rintro _ _ ⟨disk', rfl, hr', hprep, hmap', hsame⟩
  refine ends_getDirectoryFile.mpr ((hr'.register ⟨ha.handle, ha.file, ha.le, ha.size_le⟩ hlen hd
    (fun _ => htyped) hprep rfl).mono ?_)
  intro _ s₂ h₂
  refine h₂.mono ?_
  rintro _ s₃ ⟨V', hreg, hleak, hbound⟩
  refine Prog.ends_pure.mpr ⟨rfl, V', hreg.weaken rfl rfl rfl rfl ⟨rfl, rfl, rfl, rfl, rfl⟩,
    fun hst => ?_, hbound.weaken rfl hsame (entryFits_congr (Bitmap.countClear_congr hmap')
      (hr.sectorCount_frame ha.file hsame))⟩
  obtain ⟨hold, henr⟩ := hleak (storable_of_frame (V := V) hr ha.file hsame hmap' hst)
  refine ⟨fun x hx => ?_, henr.weaken rfl rfl (hr.sectorCount_frame ha.file hsame) ?_
    fun x hx hmark => (hmap' x hx).trans ?_⟩
  · obtain ⟨hold | huse, hnot⟩ := hold x hx
    · exact hold
    · exact absurd huse hnot
  · have hafter : (mapOn disk' V.map).countClear = ((mapOn s.disk V.map).mark sector).countClear :=
      Bitmap.countClear_congr fun x hx => (hmap' x hx).trans (hmap x hx)
    show (mapOn disk' V.map).countClear + 1 = _
    rw [hafter]
    exact Bitmap.countClear_mark hlt hclear
  · rw [hmap x hx, Bitmap.mark]
    rcases eq_or_ne x sector with rfl | hne
    · rw [Function.update_self]
    · rw [Function.update_of_ne hne]
      exact hmark

/-- What `Create` stores if the entry had the mark of a directory. -/
theorem Ready.storeFile_misfiled (hr : Ready D V s) (ha : AtDir V s c chain t)
    (hlen : d.length = s.directorySize) (hd : Inserted t d v name sector false j)
    (hv : v.isDirectory = true) {freeMap : Bitmap}
    (hlt : sector < numSectors) (hclear : mapOn s.disk V.map sector = false)
    (hmap : ∀ x, x < numSectors → freeMap x = (mapOn s.disk V.map).mark sector x) :
    s.Ends (FileSystem.storeFile sector freeMap d) (fun r s' => r = some true ∧
      Misfiled s'.disk c name) := by
  unfold FileSystem.storeFile
  simp only [Prog.ends_bind]
  refine (hr.prepareFile hlt hclear hmap).mono ?_
  intro _ s₁ h₁
  refine h₁.mono ?_
  rintro _ _ ⟨disk', rfl, hr', hprep, -, -⟩
  have hzero := (hr'.disk.leaked sector (hprep.leaked sector hprep.on.uses_self)).1
  refine ends_getDirectoryFile.mpr ((hr'.misfile ⟨ha.handle, ha.file, ha.le, ha.size_le⟩ hlen hd
    hv hlt (hr'.handles.no_handle hprep.none hzero)).mono ?_)
  intro _ s₂ h₂
  refine h₂.mono ?_
  exact fun _ s₃ hmis => Prog.ends_pure.mpr ⟨rfl, hmis⟩

/-- A table of ten entries, read back from the bytes that were stored. -/
theorem TableOn.of_bytes {disk : ℕ → Sector} {t : Directory} (hlen : t.length = numDirEntries)
    (hsector : ∀ q, (t.slot q).sector < 2 ^ 32)
    (hsize : (headerOn disk sector).numBytes = directoryFileSize)
    (hbytes : ∀ p, p < directoryFileSize → (headerOn disk sector).byte disk p = t.toBytes p) :
    TableOn disk [sector] t := by
  have hes : DirectoryEntry.size = 32 := rfl
  have hsz : directoryFileSize = 320 := rfl
  have hhb : headerBytes = 3712 := rfl
  refine ⟨?_, fun j hj => ?_⟩
  · show headerBytes * 0 + (headerOn disk sector).numBytes = _
    rw [hsize, hlen]
    rfl
  · have hten : numDirEntries = 10 := rfl
    have hj' : j < numDirEntries := by rwa [hlen] at hj
    refine DirectoryEntry.ofBytes_eq (hsector _) fun o ho => ?_
    rw [hes] at ho ⊢
    have hfile : fileByte disk [sector] (headerBytes * 0 + (32 * j + o)) =
        (headerOn disk sector).byte disk (32 * j + o) := fileByte_header (by omega)
    rw [Nat.mul_zero, Nat.zero_add] at hfile
    rw [hfile, hbytes _ (by omega)]
    show (t.slot ((32 * j + o) / 32)).toBytes ((32 * j + o) % 32) = _
    rw [Nat.mul_add_div (by decide), Nat.div_eq_of_lt ho, Nat.add_zero, Nat.mul_add_mod,
      Nat.mod_eq_of_lt ho]

/-- The same for the table of a new directory. -/
theorem TableOn.of_new {disk : ℕ → Sector} {heap : ℕ → UInt8}
    (hsize : (headerOn disk sector).numBytes = directoryFileSize)
    (hbytes : ∀ p, p < directoryFileSize →
      (headerOn disk sector).byte disk p = (Directory.new heap numDirEntries).toBytes p) :
    TableOn disk [sector] (Directory.new heap numDirEntries) :=
  .of_bytes Directory.length_new (Directory.slot_new_sector _ _) hsize hbytes

/-- The table of a new directory is written. -/
theorem Ready.writeFirst (hr : Ready D V s) (hok : FileOk s.disk [sector])
    (hsize : (headerOn s.disk sector).numBytes = directoryFileSize)
    (hleak : ∀ x, Uses s.disk [sector] x → V.leaked x) :
    s.Ends (OpenFile.make sector) (fun f s₁ => ∀ heap,
      s₁.Ends ((Directory.new heap numDirEntries).writeBackFirst f) (fun _ s' => Same s { s' with
        disk := s.disk } ∧ FileOk s'.disk [sector] ∧
        TableOn s'.disk [sector] (Directory.new heap numDirEntries) ∧
        (∀ x, x = 0 ∨ x = V.map ∨ V.Owns s.disk x → s'.disk x = s.disk x) ∧
        (∀ x, Uses s'.disk [sector] x ↔ Uses s.disk [sector] x) ∧
        Ready D { V with extra := Function.update V.extra sector (V.extra sector + 1) } s')) := by
  have hlt : sector < numSectors := hok.heads_lt 0 hok.pos
  have hsz : directoryFileSize = 320 := rfl
  refine (hr.makeLost hlt).mono ?_
  rintro f s₁ ⟨ho, hs₁, hr₁⟩ heap
  have hself : (s₁.openFile f).hdr = headerOn s.disk sector := by
    rw [ho.openFile, Function.update_self]
  have hheader : HeaderOk (s₁.openFile f).hdr := by
    rw [hself]
    exact hok.headers 0 hok.pos
  have hdistinct : (s₁.openFile f).hdr.Distinct := by
    rw [hself]
    exact hok.header_distinct hok.pos
  have hn : (Directory.new heap numDirEntries).length * DirectoryEntry.size % 2 ^ 32 = 320 := by
    rw [Directory.length_new]
    rfl
  unfold Directory.writeBackFirst
  rw [hn]
  refine Prog.ends_bind.mpr ((writeAt_ends hheader hdistinct (by decide) ?_).mono ?_)
  · rw [hself, hsize, hsz]
  rintro _ _ ⟨-, disk', rfl, hbyte, hout⟩
  rw [hself, hs₁.disk] at hbyte hout
  rw [hsize] at hbyte
  have hkeep : ∀ x, x = 0 ∨ x = V.map ∨ V.Owns s.disk x → disk' x = s.disk x := by
    intro x hx
    refine hout x fun j hj hxj => ?_
    obtain ⟨h0, hmap, hown⟩ := hr.disk.leaked x (hleak x (uses_single.mpr (Or.inr ⟨j, hj, hxj⟩)))
    rcases hx with hx | hx | hx
    · exact h0 hx
    · exact hmap hx
    · exact hown hx
  have hhead : headerOn disk' sector = headerOn s.disk sector := by
    rw [headerOn, hout sector fun j hj => hok.sound.apart 0 0 j hok.pos hok.pos hj, headerOn]
  have hheads :
      ∀ i, i < [sector].length → headerOf disk' [sector] i = headerOf s.disk [sector] i := by
    intro i hi
    obtain rfl : i = 0 := by simpa using hi
    exact hhead
  refine Prog.ends_pure.mpr ⟨⟨rfl, hs₁.freeMapFile, hs₁.directoryFile, hs₁.directorySize,
    hs₁.createLock⟩, hok.of_headers hheads, .of_new ?_ fun p hp => ?_, hkeep, fun x => ?_, ?_⟩
  · rw [System.withDisk_disk, hhead, hsize]
  · have hb := hbyte p hp
    rw [if_pos (by omega), Nat.sub_zero] at hb
    rw [System.withDisk_disk, hhead, hb]
  · rw [uses_single, uses_single]
    show _ ∨ _ ↔ _
    rw [System.withDisk_disk, hhead]
  · refine hr₁.scribble fun x hx => ?_
    rw [hs₁.disk] at hx ⊢
    exact hkeep x hx

/-- **What `CreateDir` stores**, or nothing if there is no space for the table. -/
theorem Ready.storeDirectory (hr : Ready D V s) (ha : AtDir V s c chain t)
    (hlen : d.length = s.directorySize) (hd : Inserted t d v name sector true j) {freeMap : Bitmap}
    (hlt : sector < numSectors) (hclear : mapOn s.disk V.map sector = false)
    (hmap : ∀ x, x < numSectors → freeMap x = (mapOn s.disk V.map).mark sector x) :
    s.Ends (FileSystem.storeDirectory sector freeMap d) (fun r s' =>
      r = none ∧ freeMap.countClear < 3 ∧ s' = s ∨
      r = some true ∧ ∃ V' freeMap', Registered D V s c sector V' s' ∧
        freeMap'.countClear + 3 = freeMap.countClear ∧
        (Storable s.disk chain freeMap' t s.directorySize j →
          (∀ x, V'.leaked x → V.leaked x) ∧ Enrolled V s c chain name true 4 V' s') ∧
        Bound V s c name true sector (EntryFits s.disk chain freeMap' t s.directorySize j) V'
          s') := by
  have hnone := hr.new_none hclear
  have hsize : RawFileHeader.empty.numBytes + directoryFileSize ≤ headerBytes := by decide
  have hneed : RawFileHeader.empty.needed directoryFileSize = 3 := by decide
  unfold FileSystem.storeDirectory
  rcases Nat.lt_or_ge freeMap.countClear 3 with hfew | hfree
  · obtain ⟨hdr, halloc, -⟩ := RawFileHeader.allocate_refused RawFileHeader.headerOk_empty hsize
      (hneed ▸ hfew)
    rw [halloc]
    exact Prog.ends_pure.mpr (Or.inl ⟨rfl, hfew, rfl⟩)
  obtain ⟨hdr, freeMap', halloc, hg⟩ := RawFileHeader.allocate_grows RawFileHeader.headerOk_empty
    hsize (hneed ▸ hfree)
  rw [halloc]
  have hcount : freeMap'.countClear + 3 = freeMap.countClear := hg.count_of_empty
  have hok := hg.headerOk RawFileHeader.headerOk_empty hsize
  -- the data sectors were clear, and are not the sector of the header
  have hdata : ∀ q, q < hdr.numSectors → mapOn s.disk V.map (hdr.dataSectors q) = false ∧
      hdr.dataSectors q ≠ sector := by
    intro q hq
    obtain ⟨hlt', hcl⟩ := hg.clear q (Nat.zero_le q) hq
    have hne : hdr.dataSectors q ≠ sector := by
      intro heq
      rw [hmap _ hlt', heq, Bitmap.mark, Function.update_self] at hcl
      cases hcl
    rw [hmap _ hlt', Bitmap.mark, Function.update_of_ne hne] at hcl
    exact ⟨hcl, hne⟩
  have hmarks : ∀ x, x < numSectors → (freeMap' x = true ↔ mapOn s.disk V.map x = true ∨
      x = sector ∨ ∃ j, j < hdr.numSectors ∧ x = hdr.dataSectors j) := by
    intro x hx
    rw [hg.marks x, hmap x hx, Bitmap.mark]
    have hex : (∃ j, RawFileHeader.empty.numSectors ≤ j ∧ j < hdr.numSectors ∧
        x = hdr.dataSectors j) ↔ ∃ j, j < hdr.numSectors ∧ x = hdr.dataSectors j :=
      exists_congr fun j => and_iff_right (Nat.zero_le j)
    rw [hex]
    rcases eq_or_ne x sector with rfl | hne
    · simp
    · rw [Function.update_of_ne hne]
      simp [hne]
  simp only [Prog.ends_bind]
  refine (hr.prepare freeMap' hlt hclear hok (hg.fits RawFileHeader.headerOk_empty
    RawFileHeader.fits_empty hsize) (fun i j hi hj heq => hg.distinct i j (Nat.zero_le i) hi
    (Nat.zero_le j) hj heq) hg.next_eq hdata hmarks).mono ?_
  intro _ s₁ h₁
  refine h₁.mono ?_
  rintro _ s₂ ⟨disk', rfl, hhead, hfile, hr', hmap', hsame⟩
  refine (hr'.writeFirst hfile ?_ fun x hx => Or.inr hx).mono ?_
  · rw [System.withDisk_disk, hhead]
    exact hg.numBytes_of_empty
  intro f s₃ h₃
  refine ends_getHeap.mpr ((h₃ s₃.heap).mono ?_)
  rintro _ s₄ ⟨hs₄, hfile₄, htable, hkeep, huses, hr₄⟩
  refine ends_getDirectoryFile.mpr ?_
  have hprep : Prepared D { V with
      leaked := fun x => V.leaked x ∨ Uses disk' [sector] x
      extra := Function.update V.extra sector (V.extra sector + 1) } s₄.disk sector
      ⟨[sector], some (Directory.new s₃.heap numDirEntries)⟩ := by
    refine ⟨.ofTable rfl hfile₄ htable, rfl, (fun hc => nomatch hc), hnone,
      fun x hx => Or.inr ((huses x).mp hx), fun t ht => ?_⟩
    obtain rfl := Option.some.inj ht
    exact ⟨Directory.length_new.ge, fun q => Directory.slot_onHeap _ _ q⟩
  have hdf : s₄.directoryFile = s.directoryFile := hs₄.directoryFile
  have hds : s₄.directorySize = s.directorySize := hs₄.directorySize
  have ha₄ : AtDir { V with
      leaked := fun x => V.leaked x ∨ Uses disk' [sector] x
      extra := Function.update V.extra sector (V.extra sector + 1) } s₄ c chain t :=
    ⟨by rw [hdf]; exact ha.handle, ha.file, by rw [hds]; exact ha.le, by rw [hds]; exact ha.size_le⟩
  refine (hr₄.register ha₄ (hlen.trans hds.symm) hd (fun h => nomatch h) hprep rfl).mono ?_
  intro _ s₅ h₅
  refine h₅.mono ?_
  rintro _ s₆ ⟨V', hreg, hleak, hbound⟩
  have howned : ∀ x, V.Owns s.disk x → s₄.disk x = s.disk x := by
    intro x hx
    have hx' : V.Owns disk' x := (owns_congr _ rfl hsame x).mpr hx
    exact (hkeep x (Or.inr (Or.inr hx'))).trans (hsame x hx)
  have hmap₄ : ∀ x, x < numSectors → mapOn s₄.disk V.map x = freeMap' x := by
    intro x hx
    rw [mapOn, hkeep V.map (Or.inr (Or.inl rfl))]
    exact hmap' x hx
  rw [hds] at hleak hbound
  refine Prog.ends_pure.mpr (Or.inr ⟨rfl, V', freeMap', hreg.weaken rfl rfl rfl ?_
    ⟨rfl, hs₄.freeMapFile, hdf, hds, hs₄.createLock⟩, hcount, fun hst => ?_,
    hbound.weaken rfl howned (entryFits_congr (Bitmap.countClear_congr hmap₄)
      (hr.sectorCount_frame ha.file howned))⟩)
  · exact Function.update_idem ..
  · obtain ⟨hold, henr⟩ := hleak (storable_of_frame (V := V) hr ha.file howned hmap₄ hst)
    refine ⟨fun x hx => ?_, henr.weaken rfl rfl (hr.sectorCount_frame ha.file howned) ?_
      fun x hx hmark => (hmap₄ x hx).trans ((hmarks x hx).mpr (Or.inl hmark))⟩
    · obtain ⟨hold | huse, hnot⟩ := hold x hx
      · exact hold
      · exact absurd ((huses x).mpr huse) hnot
    · rw [Bitmap.countClear_congr hmap₄]
      have hafter : freeMap.countClear = ((mapOn s.disk V.map).mark sector).countClear :=
        Bitmap.countClear_congr hmap
      have hmark := Bitmap.countClear_mark hlt hclear
      omega

end Register

/-! ## Adding a name -/

/-- What is done with the sector of a new file, once the entry is in the table: it is stored, with
`more` other sectors of the new file, or there is no space for these.  A file whose entry had the
mark of a directory is stored as one. -/
def StoreOk (D : Discipline) (isDirectory : Bool) (more : ℕ)
    (store : ℕ → Bitmap → Directory → Sys (Option Bool)) : Prop :=
  ∀ (V : Volume) (s : System) (c sector j : ℕ) (chain : List ℕ) (t d : Directory)
    (v : DirectoryEntry) (name : List UInt8) (freeMap : Bitmap), Ready D V s →
    AtDir V s c chain t → d.length = s.directorySize →
    Inserted t d v name sector isDirectory j → sector < numSectors →
    mapOn s.disk V.map sector = false →
    (∀ x, x < numSectors → freeMap x = (mapOn s.disk V.map).mark sector x) →
    s.Ends (store sector freeMap d) (fun r s' =>
      r = none ∧ freeMap.countClear < more ∧ s' = s ∨
      r = some true ∧ more ≤ freeMap.countClear ∧
        ((isDirectory = false → v.isDirectory = false) →
          ∃ V' freeMap', Registered D V s c sector V' s' ∧
            freeMap'.countClear + more = freeMap.countClear ∧
            (Storable s.disk chain freeMap' t s.directorySize j →
              (∀ x, V'.leaked x → V.leaked x) ∧
              Enrolled V s c chain name isDirectory (more + 1) V' s') ∧
            Bound V s c name isDirectory sector
              (EntryFits s.disk chain freeMap' t s.directorySize j) V' s') ∧
        (isDirectory = false → v.isDirectory = true → Misfiled s'.disk c name))

theorem storeFile_ok (D : Discipline) : StoreOk D false 0 FileSystem.storeFile := by
  intro V s c sector j chain t d v name freeMap hr ha hlen hd hlt hclear hmap
  cases hv : v.isDirectory with
  | false =>
    refine (hr.storeFile ha hlen hd hv hlt hclear hmap).mono ?_
    rintro r s' ⟨rfl, V', hreg, hleak, hbound⟩
    exact Or.inr ⟨rfl, Nat.zero_le _, fun _ => ⟨V', freeMap, hreg, rfl, hleak, hbound⟩,
      fun _ h => nomatch h⟩
  | true =>
    refine (hr.storeFile_misfiled ha hlen hd hv hlt hclear hmap).mono ?_
    rintro r s' ⟨rfl, hmis⟩
    exact Or.inr ⟨rfl, Nat.zero_le _, (fun h => nomatch h rfl), fun _ _ => hmis⟩

theorem storeDirectory_ok (D : Discipline) : StoreOk D true 3 FileSystem.storeDirectory := by
  intro V s c sector j chain t d v name freeMap hr ha hlen hd hlt hclear hmap
  refine (hr.storeDirectory ha hlen hd hlt hclear hmap).mono ?_
  rintro r s' (hnone | ⟨rfl, V', freeMap', hreg, hcount, hstored⟩)
  · exact Or.inl hnone
  · exact Or.inr ⟨rfl, by omega, fun _ => ⟨V', freeMap', hreg, hcount, hstored⟩,
      fun h => nomatch h⟩

/-- **The name can be added without losing a sector**: it is there already, there is no space for
the sectors of the new file, or else its entry can be stored. -/
def Addable (disk : ℕ → Sector) (chain : List ℕ) (freeMap : Bitmap) (t : Directory) (size : ℕ)
    (name : List UInt8) (more : ℕ) : Prop :=
  (t.find name).isSome = true ∨ freeMap.countClear ≤ more ∨
    ∀ (freeMap' : Bitmap) (j : ℕ), freeMap'.countClear + more + 1 = freeMap.countClear →
      (t.slot j).inUse = false → (∀ q, q < j → (t.slot q).inUse = true) →
      Storable disk chain freeMap' t (max size (j + 1)) j

/-- What there is after an attempt to add a name to the directory at `c`. -/
structure Added (D : Discipline) (V : Volume) (s : System) (c : ℕ) (V' : Volume) (s' : System) :
    Prop where
  ready : Ready D V' s'
  map : V'.map = V.map
  handles : V'.handles = V.handles
  extra_le : ∀ x, V'.extra x ≤ V.extra x
  reached : V.AllReached → V'.AllReached
  kind : ∀ h b, V.kind h = some b → V'.kind h = some b
  dir : ∃ chain t, AtDir V' s' c chain t
  freeMapFile : s'.freeMapFile = s.freeMapFile
  directoryFile : s'.directoryFile = s.directoryFile
  createLock : s'.held filesysCreateLock = s.held filesysCreateLock

/-- **What became of the attempt.**  The size of the directory was noted when the entry was put into
the table; without success all else is as it was. -/
structure Tried (V : Volume) (s : System) (c : ℕ) (chain : List ℕ) (t : Directory)
    (name : List UInt8) (isDirectory : Bool) (more : ℕ) (r : Option Bool) (V' : Volume)
    (s' : System) : Prop where
  size : s'.directorySize =
    if (t.find name).isSome then s.directorySize else max s.directorySize (t.freeIndex + 1)
  failed : r ≠ some true → V' = V ∧ s'.disk = s.disk
  succeeded : r = some true → ∃ (sector : ℕ) (freeMap : Bitmap), sector < numSectors ∧
    mapOn s.disk V.map sector = false ∧ (∀ x, x < sector → mapOn s.disk V.map x = true) ∧
    freeMap.countClear + more + 1 = (mapOn s.disk V.map).countClear ∧
    Bound V s c name isDirectory sector (EntryFits s.disk chain freeMap t
      (max s.directorySize (t.freeIndex + 1)) t.freeIndex) V' s'

/-- **An attempt to add a name** to the directory at `c`, and its result: `none` is the early return
of `CreateDir`. -/
structure Attempt (D : Discipline) (V : Volume) (s : System) (c : ℕ) (chain : List ℕ)
    (t : Directory) (name : List UInt8) (isDirectory : Bool) (more : ℕ) (r : Option Bool)
    (V' : Volume) (s' : System) : Prop where
  added : Added D V s c V' s'
  result : r = some false ∧ ((t.find name).isSome = true ∨ (mapOn s.disk V.map).countClear = 0) ∨
    r = none ∧ t.find name = none ∧ 0 < (mapOn s.disk V.map).countClear ∧
      (mapOn s.disk V.map).countClear ≤ more ∨
    r = some true ∧ t.find name = none ∧ more < (mapOn s.disk V.map).countClear
  keeps : Addable s.disk chain (mapOn s.disk V.map) t s.directorySize name more →
    (∀ x, V'.leaked x → V.leaked x) ∧
    (r = some true → Enrolled V s c chain name isDirectory (more + 1) V' s')
  tried : Tried V s c chain t name isDirectory more r V' s'

section Add
variable {D : Discipline} {V : Volume} {s s' : System} {c : ℕ} {chain : List ℕ} {t d : Directory}

theorem Registered.added {V' : Volume} {sector : ℕ} (hreg : Registered D V s c sector V' s') :
    Added D V s c V' s' where
  ready := hreg.ready
  map := hreg.map
  handles := hreg.handles
  extra_le x := by
    rw [hreg.extra]
    rcases eq_or_ne x sector with rfl | hne
    · rw [Function.update_self]
      exact Nat.zero_le _
    · rw [Function.update_of_ne hne]
  reached := hreg.reached
  kind := hreg.kind
  dir := hreg.dir
  freeMapFile := hreg.freeMapFile
  directoryFile := hreg.directoryFile
  createLock := hreg.createLock

theorem AtDir.added (ha : AtDir V s' c chain t) (hr : Ready D V s')
    (hs : Same s { s' with disk := s.disk, directorySize := s.directorySize }) :
    Added D V s c V s' :=
  ⟨hr, rfl, rfl, fun _ => le_rfl, id, fun _ _ => id, ⟨chain, t, ha⟩, hs.freeMapFile,
    hs.directoryFile, hs.createLock⟩

/-- The size of the directory after a name was added to the table. -/
theorem noteSize_ends {d' : Directory} (hsize : s.directorySize = d.length)
    (hle : d.length ≤ d'.length) :
    s.Ends (Directory.noteSize d d') (fun _ s' => s' = { s with directorySize := d'.length }) := by
  unfold Directory.noteSize
  by_cases hlt : d.length < d'.length
  · rw [if_pos hlt]
    exact ends_setDirectorySize.mpr rfl
  · rw [if_neg hlt]
    refine Prog.ends_pure.mpr ?_
    have heq : s.directorySize = d'.length := by omega
    rw [← heq]

/-- What `Add` puts into the table. -/
theorem inserted_of_add (hslot : ∀ q, d.slot q = t.slot q) {name : List UInt8}
    (hnew : t.find name = none) (heap : DirectoryEntry) (sector : ℕ) (isDirectory : Bool) :
    (d.insert heap name sector isDirectory).length = max d.length (t.freeIndex + 1) ∧
      Inserted t (d.insert heap name sector isDirectory) (d.vacant heap) name sector isDirectory
        t.freeIndex := by
  have hfree := t.slot_freeIndex
  have hused : ∀ q, q < t.freeIndex → (t.slot q).inUse = true :=
    fun q hq => Directory.inUse_of_lt_freeIndex hq
  have hindex : d.freeIndex = t.freeIndex :=
    Directory.freeIndex_eq (by rw [hslot]; exact hfree) fun q hq => by rw [hslot]; exact hused q hq
  have hlen := d.length_insert heap name sector isDirectory
  rw [hindex] at hlen
  refine ⟨hlen, hfree, hused, ?_, by omega, fun q => ?_, fun q => ?_⟩
  · -- all entries before it are in use
    rcases Nat.eq_zero_or_pos t.freeIndex with h0 | hpos
    · omega
    · have := Directory.lt_of_inUse (hused (t.freeIndex - 1) (by omega))
      omega
  · refine Directory.findIndex_eq_none ?_ q
    rw [Directory.find_eq, Option.map_eq_none_iff] at hnew
    exact hnew
  · rw [Directory.slot_insert, hindex, hslot q]

/-- The entry that is filled has the mark of a directory only if the table grows by it. -/
theorem vacant_typed (hslot : ∀ q, d.slot q = t.slot q)
    (hunused : ∀ q, (t.slot q).inUse = false → (t.slot q).isDirectory = false)
    (heap : ℕ → UInt8) :
    (d.vacant (Directory.entryAt heap d.length)).isDirectory = false ↔
      GrowsTyped heap t d.length := by
  have hindex : d.freeIndex = t.freeIndex :=
    Directory.freeIndex_eq (by rw [hslot]; exact t.slot_freeIndex) fun q hq => by
      rw [hslot]
      exact Directory.inUse_of_lt_freeIndex hq
  rw [GrowsTyped, Directory.vacant, hindex]
  by_cases hlt : t.freeIndex < d.length
  · rw [if_pos hlt, hslot, hunused _ t.slot_freeIndex]
    exact iff_of_true rfl fun hle => absurd hlt (Nat.not_lt.mpr hle)
  · rw [if_neg hlt]
    exact ⟨fun h _ => h, fun h => h (Nat.not_lt.mp hlt)⟩

/-- **A name is added**, or it is misfiled. -/
theorem Ready.addFile (hr : Ready D V s) (ha : AtDir V s c chain t)
    (hlen : d.length = s.directorySize) (hslot : ∀ q, d.slot q = t.slot q) {isDirectory : Bool}
    {more : ℕ} {store : ℕ → Bitmap → Directory → Sys (Option Bool)}
    (hstore : StoreOk D isDirectory more store) (name : List UInt8) :
    s.Ends (FileSystem.addFile d name isDirectory store) (fun r s' =>
      ((isDirectory = false → r = some true → GrowsTyped s.heap t s.directorySize) →
        ∃ V', Attempt D V s c chain t name isDirectory more r V' s') ∧
      (isDirectory = false → r = some true → ¬ GrowsTyped s.heap t s.directorySize →
        Misfiled s'.disk c name) ∧
      (r = some true → t.find name = none ∧ more < (mapOn s.disk V.map).countClear)) := by
  have hle : t.length ≤ d.length := hlen ▸ ha.le
  have htyped := vacant_typed hslot (fun q hq => by
    rw [← slot_of_files ha.file] at hq ⊢
    exact hr.tree.unused c q hq) s.heap
  unfold FileSystem.addFile
  rw [Directory.find_congr hslot]
  cases hfind : t.find name with
  | some x =>
    rw [if_pos (show (some x).isSome = true from rfl)]
    exact Prog.ends_pure.mpr ⟨fun _ => ⟨V, ha.added hr (Same.refl s),
      Or.inl ⟨rfl, Or.inl (by rw [hfind]; rfl)⟩,
      fun _ => ⟨fun x hx => hx, fun h => by cases h⟩,
      by rw [hfind]; rfl, fun _ => ⟨rfl, rfl⟩, fun h => by cases h⟩, (fun _ h => by cases h),
      fun h => by cases h⟩
  | none =>
    have hsome : ¬ (t.find name).isSome = true := by
      rw [hfind]
      exact Bool.false_ne_true
    rw [if_neg (by simp)]
    refine Prog.ends_bind.mpr ((fetchFreeMap_ends hr.handles.freeMap).mono ?_)
    rintro freeMap s₁ ⟨hs₁, hmap⟩
    obtain rfl := hs₁.symm
    have hcount : freeMap.countClear = (mapOn s.disk V.map).countClear :=
      Bitmap.countClear_congr hmap
    have hindex : d.findIndex name = none := by
      rw [Directory.findIndex_congr hslot]
      rwa [Directory.find_eq, Option.map_eq_none_iff] at hfind
    unfold Directory.add
    rw [hindex]
    cases hsec : freeMap.find with
    | none =>
      obtain ⟨hins, hnew⟩ := inserted_of_add hslot hfind (Directory.entryAt s.heap d.length)
        RawFileHeader.minusOne isDirectory
      have hzero : freeMap.countClear = 0 := by
        by_contra hne
        obtain ⟨i, b', hsome⟩ := Bitmap.exists_find (Nat.pos_of_ne_zero hne)
        rw [hsec] at hsome
        cases hsome
      simp only [Prog.ends_bind, ends_getHeap]
      refine (noteSize_ends hlen.symm (by omega)).mono ?_
      rintro _ _ rfl
      refine Prog.ends_pure.mpr (Prog.ends_pure.mpr ⟨fun _ => ⟨V, ?_, Or.inl ⟨rfl, Or.inr
        (by omega)⟩, fun _ => ⟨fun x hx => hx, fun h => by cases h⟩, ?_, fun _ => ⟨rfl, rfl⟩,
        fun h => by cases h⟩, (fun _ h => by cases h), fun h => by cases h⟩)
      have hj := hnew.le
      have hsize := ha.size_le
      · refine AtDir.added ⟨ha.handle, ha.file, ?_, ?_⟩ (hr.setDirectory _ _) ⟨rfl, rfl, rfl, rfl,
          rfl⟩
        · show t.length ≤ (d.insert _ name RawFileHeader.minusOne isDirectory).length
          omega
        · show (d.insert _ name RawFileHeader.minusOne isDirectory).length ≤ t.length + 1
          omega
      · rw [if_neg hsome, ← hlen]
        exact hins
    | some r =>
      obtain ⟨sector, freeMap'⟩ := r
      obtain ⟨⟨hlt, hclear, hbefore⟩, rfl⟩ := Bitmap.find_eq_some_iff.mp hsec
      obtain ⟨hins, hnew⟩ := inserted_of_add hslot hfind (Directory.entryAt s.heap d.length) sector
        isDirectory
      have hmark := Bitmap.countClear_mark hlt hclear
      simp only [Prog.ends_bind, ends_getHeap]
      refine (noteSize_ends hlen.symm (by omega)).mono ?_
      rintro _ _ rfl
      refine Prog.ends_pure.mpr ?_
      have hj := hnew.le
      have hsize := ha.size_le
      have ha' : AtDir V { s with directorySize :=
          (d.insert (Directory.entryAt s.heap d.length) name sector isDirectory).length } c chain
          t := by
        refine ⟨ha.handle, ha.file, ?_, ?_⟩
        · show t.length ≤ (d.insert _ name sector isDirectory).length
          omega
        · show (d.insert _ name sector isDirectory).length ≤ t.length + 1
          omega
      refine (hstore V _ c sector t.freeIndex chain t _ _ name _ (hr.setDirectory _ _) ha' rfl hnew
        hlt ?_ ?_).mono ?_
      · exact (hmap sector hlt).symm.trans hclear
      · intro x hx
        rw [Bitmap.mark, Bitmap.mark]
        rcases eq_or_ne x sector with rfl | hne
        · rw [Function.update_self, Function.update_self]
        · rw [Function.update_of_ne hne, Function.update_of_ne hne]
          exact hmap x hx
      rintro r s' (⟨rfl, hfew, rfl⟩ | ⟨rfl, henough, hstored, hmis⟩)
      · refine ⟨fun _ => ⟨V, ha'.added (hr.setDirectory _ _) ⟨rfl, rfl, rfl, rfl, rfl⟩,
          Or.inr (Or.inl ⟨rfl, hfind, by omega, by omega⟩),
          fun _ => ⟨fun x hx => hx, fun h => by cases h⟩, ?_, fun _ => ⟨rfl, rfl⟩,
          fun h => by cases h⟩, (fun _ h => by cases h), fun h => by cases h⟩
        rw [if_neg hsome, ← hlen]
        exact hins
      · refine ⟨fun hok => ?_, fun hfile _ hno => hmis hfile ?_, fun _ => ⟨trivial, by omega⟩⟩
        · obtain ⟨V', freeMap', hreg, hcount', hleak, hbound⟩ := hstored fun hfile =>
            htyped.mpr (hlen ▸ hok hfile rfl)
          have hadd := hreg.added
          refine ⟨V', ⟨hadd.ready, hadd.map, hadd.handles, hadd.extra_le, hadd.reached, hadd.kind,
            hadd.dir, hadd.freeMapFile, hadd.directoryFile, hadd.createLock⟩,
            Or.inr (Or.inr ⟨rfl, hfind, by omega⟩), fun hok => ?_, ?_, fun h => absurd rfl h,
            fun _ => ⟨sector, freeMap', hlt, (hmap sector hlt).symm.trans hclear, fun x hx =>
              (hmap x (hx.trans hlt)).symm.trans (hbefore x hx), by omega, ?_⟩⟩
          rotate_left
          · rw [hreg.directorySize, if_neg hsome, ← hlen]
            exact hins
          · rw [← hlen, ← hins]
            exact ⟨hbound.entries, hbound.file, hbound.bound, hbound.unbound⟩
          rcases hok with hfound | hfull | hst
          · rw [hfind] at hfound
            cases hfound
          · omega
          · have hst' := hst freeMap' t.freeIndex (by omega) hnew.free hnew.used
            rw [← hlen, ← hins] at hst'
            obtain ⟨hkeep, henr⟩ := hleak hst'
            exact ⟨hkeep, fun _ => ⟨henr.entry, henr.count, henr.marked, henr.still⟩⟩
        · rw [← hlen] at hno
          exact Bool.eq_true_of_not_eq_false (mt htyped.mp hno)

end Add
end PaldOs
