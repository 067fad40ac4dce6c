import PaldOs.Runs
import PaldOs.Sessions

/-! # Starting from an empty volume

A formatted disk holds the free map and a root directory without entries.  `FileSystem(false)` opens
both; from then on a thread makes its calls.  `Session` are the runs of calls under a guard.
-/
namespace PaldOs

open Sys

/-- **An empty volume.**  Of the entries of the root only `inUse` and `isDirectory` are clear. -/
structure Formatted (disk : ℕ → Sector) : Prop where
  map_lt : mapSector disk < numSectors
  map_ne : mapSector disk ≠ freeMapSector
  mapHeader : (headerOn disk freeMapSector).numBytes = freeMapFileSize ∧
    (headerOn disk freeMapSector).numSectors = 1 ∧
    (headerOn disk freeMapSector).nextFileHeader = 0
  root : FileOk disk [directorySector]
  length : fileLength disk [directorySector] = directoryFileSize
  entries : ∀ j, j < numDirEntries →
    (DirectoryEntry.ofBytes (fileByte disk [directorySector]) (DirectoryEntry.size * j)).inUse =
      false ∧
    (DirectoryEntry.ofBytes (fileByte disk [directorySector])
      (DirectoryEntry.size * j)).isDirectory = false
  apart : ¬ Uses disk [directorySector] freeMapSector ∧
    ¬ Uses disk [directorySector] (mapSector disk)
  marks : ∀ x, x < numSectors → (mapAt disk x = true ↔
    x = freeMapSector ∨ x = mapSector disk ∨ Uses disk [directorySector] x)

/-- The memory before the file system is there. -/
def System.start (disk : ℕ → Sector) : System where
  disk := disk
  openFilesTable _ := ⟨none, none, none, false, false, 0⟩
  openFile _ := ⟨0, 0, 0, .empty⟩
  nextOpenFile := 0
  freeMapFile := 0
  directoryFile := 0
  directorySize := 0
  held _ := false
  nextLock := 1
  heap _ := 0

/-- The table of the root of a formatted disk. -/
def rootTable (disk : ℕ → Sector) : Directory :=
  .ofBytes (fileByte disk [directorySector]) numDirEntries

/-- The volume of a formatted disk. -/
def emptyVolume (disk : ℕ → Sector) (handles : List (ℕ × ℕ)) : Volume where
  map := mapSector disk
  files := Function.update (fun _ => none) directorySector
    (some ⟨[directorySector], some (rootTable disk)⟩)
  leaked _ := False
  handles := handles
  extra _ := 0

section Boot
variable {disk : ℕ → Sector} {handles : List (ℕ × ℕ)}

theorem emptyVolume_files_self : (emptyVolume disk handles).files directorySector =
    some ⟨[directorySector], some (rootTable disk)⟩ := by
  dsimp only [emptyVolume]
  rw [Function.update_self]

theorem emptyVolume_files_of_ne {h : ℕ} (hne : h ≠ directorySector) :
    (emptyVolume disk handles).files h = none := by
  dsimp only [emptyVolume]
  rw [Function.update_of_ne hne]

theorem emptyVolume_files {h : ℕ} {i : FileInfo}
    (hi : (emptyVolume disk handles).files h = some i) :
    h = directorySector ∧ i = ⟨[directorySector], some (rootTable disk)⟩ := by
  rcases eq_or_ne h directorySector with rfl | hne
  · rw [emptyVolume_files_self, Option.some.injEq] at hi
    exact ⟨rfl, hi.symm⟩
  · rw [emptyVolume_files_of_ne hne] at hi
    cases hi

theorem rootTable_length : (rootTable disk).length = numDirEntries := Directory.length_ofBytes

/-- No entry of the root is in use, or that of a directory. -/
theorem Formatted.rootTable_slot (hf : Formatted disk) (q : ℕ) :
    ((rootTable disk).slot q).inUse = false ∧ ((rootTable disk).slot q).isDirectory = false := by
  rcases Nat.lt_or_ge q numDirEntries with hlt | hge
  · rw [rootTable, Directory.slot_ofBytes hlt]
    exact hf.entries q hlt
  · rw [Directory.slot_of_le (by rw [rootTable_length]; exact hge)]
    exact ⟨rfl, rfl⟩

theorem Formatted.emptyVolume_slot (hf : Formatted disk) (h q : ℕ) :
    ((emptyVolume disk handles).slot h q).inUse = false ∧
      ((emptyVolume disk handles).slot h q).isDirectory = false := by
  rcases eq_or_ne h directorySector with rfl | hne
  · rw [slot_of_files emptyVolume_files_self]
    exact hf.rootTable_slot q
  · rw [Volume.slot, emptyVolume_files_of_ne hne]
    exact ⟨rfl, rfl⟩

theorem Formatted.emptyVolume_tree (hf : Formatted disk) : TreeOk (emptyVolume disk handles) where
  root := kind_of_files emptyVolume_files_self
  entry h q hu := by
    rw [(hf.emptyVolume_slot h q).1] at hu
    cases hu
  unused h q _ := (hf.emptyVolume_slot h q).2
  once h q h' q' hu := by
    rw [(hf.emptyVolume_slot h q).1] at hu
    cases hu
  names h q q' hu := by
    rw [(hf.emptyVolume_slot h q).1] at hu
    cases hu
  long h chain t hi := by
    obtain ⟨-, hi⟩ := emptyVolume_files hi
    rw [FileInfo.mk.injEq, Option.some.injEq] at hi
    rw [hi.2, rootTable_length]

theorem Formatted.diskOk {D : Discipline} (hf : Formatted disk) (handles : List (ℕ × ℕ)) :
    DiskOk D (emptyVolume disk handles) disk := by
  have htable : TableOn disk [directorySector] (rootTable disk) := by
    refine ⟨?_, fun j hj => ?_⟩
    · rw [hf.length, rootTable_length]
      rfl
    · rw [rootTable_length] at hj
      exact (Directory.slot_ofBytes hj).symm
  have howns : ∀ x, (emptyVolume disk handles).Owns disk x ↔ Uses disk [directorySector] x := by
    intro x
    constructor
    · rintro ⟨h, i, hi, hu⟩
      obtain ⟨-, rfl⟩ := emptyVolume_files hi
      exact hu
    · intro hu
      exact ⟨_, _, emptyVolume_files_self, hu⟩
  refine ⟨fun h i hi => ?_, fun h h' i i' x hi hi' _ _ => ?_, fun x hx => ?_, fun x hx => hx.elim,
    fun h i hi => ?_, hf.map_lt, hf.map_ne, hf.mapHeader.1, hf.mapHeader.2.1, rfl,
    hf.mapHeader.2.2⟩
  · obtain ⟨rfl, rfl⟩ := emptyVolume_files hi
    exact .ofTable rfl hf.root htable
  · exact (emptyVolume_files hi).1.trans (emptyVolume_files hi').1.symm
  · rw [howns x]
    refine (hf.marks x hx).trans (or_congr_right (or_congr_right ?_))
    exact (false_or _).symm.to_iff
  · obtain ⟨rfl, rfl⟩ := emptyVolume_files hi
    exact hf.apart

theorem System.start_locks (disk : ℕ → Sector) : LocksOk (System.start disk) where
  next := Nat.one_pos
  free _ _ := rfl
  removeLock _ h := nomatch h
  writeLock _ h := nomatch h
  closeLock _ h := nomatch h
  removeLock_lt _ _ h := nomatch h
  writeLock_lt _ _ h := nomatch h
  apart _ _ _ h := nomatch h

/-- The volume as it is when its disk is opened. -/
def Volume.reopened (V : Volume) (handles : List (ℕ × ℕ)) : Volume :=
  { V with handles := handles, extra := fun _ => 0 }

/-- The free map is open. -/
theorem DiskOk.openMap {D : Discipline} {V : Volume} (hd : DiskOk D V disk) (ht : TreeOk V) :
    (System.start disk).Ends (OpenFile.make freeMapSector) (fun f s' =>
      Same (System.start disk) s' ∧
      Ready D (V.reopened [(f, freeMapSector)]) { s' with freeMapFile := f }) := by
  have hlt : freeMapSector < numSectors := by decide
  refine ((make_ends hlt).and_yields (make_locks (System.start_locks disk) hlt).yields).mono ?_
  rintro f s' ⟨ho, hl, hs⟩
  have hself : s'.openFile f = ⟨freeMapSector, freeMapSector, 0, headerOn disk freeMapSector⟩ := by
    rw [ho.openFile, Function.update_self]
    rfl
  have hmem : ∀ g h, (g, h) ∈ [(f, freeMapSector)] → g = f ∧ h = freeMapSector := by
    intro g h hg
    exact Prod.mk.inj (List.mem_singleton.mp hg)
  have hentry : ∀ x, (s'.openFilesTable x).removing = false ∧
      (s'.openFilesTable x).removed = false := by
    intro x
    rcases eq_or_ne x freeMapSector with rfl | hne
    · exact ⟨ho.removing, ho.removed⟩
    · rw [ho.other x hne]
      exact ⟨rfl, rfl⟩
  refine ⟨hs, ?_, ht.relabel _ _, ⟨?_, ?_, ?_, ?_, ?_, ?_, ?_, ?_, ?_, fun h _ => hentry h, ?_⟩⟩
  · show DiskOk D _ s'.disk
    rw [ho.disk]
    exact hd.relabel _ _
  · obtain ⟨hbytes, hsectors, hdata, -⟩ := hd.mapHeader
    refine ⟨?_, ?_, ?_, hd.map_lt⟩
    · show (s'.openFile f).hdr.numBytes = _
      rw [hself]
      exact hbytes
    · show (s'.openFile f).hdr.numSectors = _
      rw [hself]
      exact hsectors
    · show (s'.openFile f).hdr.dataSectors 0 = _
      rw [hself]
      exact hdata
  · exact List.mem_singleton.mpr rfl
  · intro g h hg
    obtain ⟨rfl, rfl⟩ := hmem g h hg
    exact congrArg OpenFile.sector hself
  · intro g h hg
    obtain ⟨rfl, rfl⟩ := hmem g h hg
    show g < s'.nextOpenFile
    rw [ho.next, ho.handle]
    exact Nat.lt_succ_self _
  · exact List.nodup_singleton f
  · intro g h hg
    exact Or.inl (hmem g h hg).1
  · -- the free map is no file of the volume
    intro g h chain hg hi
    obtain ⟨-, rfl⟩ := hmem g h hg
    exact absurd (hd.file _ _ hi).uses_self (hd.reserved _ _ hi).1
  · intro x
    show (s'.openFilesTable x).count = [(f, freeMapSector)].countP _ + 0
    rcases eq_or_ne x freeMapSector with rfl | hne
    · rw [ho.count]
      rfl
    · rw [ho.other x hne, List.countP_eq_zero.mpr]
      · rfl
      · rintro ⟨g, h⟩ hg heq
        obtain ⟨rfl, rfl⟩ := hmem g h hg
        exact hne (beq_iff_eq.mp heq).symm
  · intro x hx
    rcases eq_or_ne x freeMapSector with rfl | hne
    · exact ho.locks fun h => absurd rfl h
    · have hx' : (s'.openFilesTable x).count ≠ 0 := hx
      rw [ho.other x hne] at hx'
      exact absurd rfl hx'
  · exact hl.of_eq rfl le_rfl hl.free

theorem emptyVolume_reached : (emptyVolume disk handles).AllReached := by
  intro h i hi
  obtain ⟨rfl, -⟩ := emptyVolume_files hi
  exact .root

/-- **`FileSystem(false)`**, on the disk of a volume. -/
theorem DiskOk.boot {V : Volume} (hd : DiskOk .strict V disk) (ht : TreeOk V)
    (hreached : V.AllReached) {chain : List ℕ} {t : Directory}
    (hroot : V.files directorySector = some ⟨chain, some t⟩) :
    (System.start disk).Ends FileSystem.boot (fun _ s' => ∃ rest,
      Live ⟨s', []⟩ (V.reopened ((s'.directoryFile, directorySector) :: rest)) directorySector
        rest ∧ s'.disk = disk ∧ s'.directorySize = t.length) := by
  unfold FileSystem.boot
  refine Prog.ends_bind.mpr ((hd.openMap ht).mono ?_)
  rintro f s₁ ⟨hs₁, hr₁⟩
  have hroot' : ∀ handles, (V.reopened handles).files directorySector = some ⟨chain, some t⟩ :=
    fun _ => hroot
  refine Prog.ends_bind.mpr (ends_setFreeMapFile.mpr ?_)
  refine Prog.ends_bind.mpr ((hr₁.make (hroot' _)).mono ?_)
  rintro g s₂ ⟨-, hs₂, hr₂⟩
  refine Prog.ends_bind.mpr (ends_setDirectoryFile.mpr ?_)
  have hr₃ := hr₂.setDirectory g s₂.directorySize
  refine Prog.ends_bind.mpr ((hr₃.tableSize List.mem_cons_self (hroot' _)).mono ?_)
  rintro n s₄ ⟨rfl, hs₄, hr₄⟩
  refine ends_setDirectorySize.mpr ⟨[(f, freeMapSector)],
    ⟨⟨?_, ?_, ?_, AllReached.relabel hreached _ _, ?_⟩, ?_⟩, ?_, rfl⟩
  · have hfile : s₄.directoryFile = g := hs₄.directoryFile
    have hr₅ := hr₄.setDirectory s₄.directoryFile t.length
    rw [← hfile] at hr₅
    exact hr₅
  · rfl
  · exact ⟨_, _, List.mem_cons_self, hroot' _, le_rfl, Nat.le_succ _⟩
  · show s₄.held filesysCreateLock = false
    rw [hs₄.createLock]
    show s₂.held filesysCreateLock = false
    rw [hs₂.createLock]
    show s₁.held filesysCreateLock = false
    rw [hs₁.createLock]
    rfl
  · show [f].Perm [s₄.freeMapFile]
    have hfree : s₄.freeMapFile = f := hs₄.freeMapFile.trans hs₂.freeMapFile
    rw [hfree]
  · exact (hs₄.disk.trans hs₂.disk).trans hs₁.disk

/-- The same on an empty volume. -/
theorem Formatted.boot (hf : Formatted disk) :
    (System.start disk).Ends FileSystem.boot (fun _ s' => ∃ rest,
      Live ⟨s', []⟩ (emptyVolume disk ((s'.directoryFile, directorySector) :: rest))
        directorySector rest ∧ s'.disk = disk ∧ s'.directorySize = numDirEntries) := by
  refine ((hf.diskOk []).boot hf.emptyVolume_tree emptyVolume_reached
    emptyVolume_files_self).mono ?_
  rintro _ s' ⟨rest, hl, hdisk, hsize⟩
  exact ⟨rest, hl, hdisk, hsize.trans rootTable_length⟩

end Boot

/-! ## The disk that `FileSystem(true)` leaves -/

/-- The header of a directory with ten entries, in three sectors from `first` on. -/
def tableHeader (first : ℕ) : RawFileHeader :=
  ⟨directoryFileSize, 3, fun i => if i < 3 then first + i else 0, 0⟩

section TableHeader
variable {disk : ℕ → Sector} {first sector x : ℕ}

theorem headerOn_tableHeader (hlt : first < numSectors)
    (h : disk sector = (tableHeader first).toSector) : headerOn disk sector = tableHeader first := by
  have hns : numSectors = 1024 := rfl
  rw [headerOn, h]
  have hbytes : directoryFileSize < 2 ^ 32 := by decide
  have hsectors : 3 < 2 ^ 32 := by decide
  refine RawFileHeader.ofSector_toSector ⟨hbytes, hsectors, fun i => ?_, fun i hi => ?_,
    Nat.two_pow_pos 32⟩
  · show (if i < 3 then first + i else 0) < 2 ^ 32
    split <;> omega
  · have hnd : numDirect = 29 := rfl
    exact if_neg (by omega)

theorem uses_tableHeader (h : headerOn disk sector = tableHeader first) :
    Uses disk [sector] x ↔ x = sector ∨ first ≤ x ∧ x < first + 3 := by
  rw [uses_single, h]
  refine or_congr_right ⟨?_, fun hx => ⟨x - first, ?_, ?_⟩⟩
  · rintro ⟨j, hj, rfl⟩
    have hj' : j < 3 := hj
    show first ≤ (if j < 3 then first + j else 0) ∧ (if j < 3 then first + j else 0) < first + 3
    rw [if_pos hj']
    omega
  · show x - first < 3
    omega
  · show x = if x - first < 3 then first + (x - first) else 0
    rw [if_pos (by omega)]
    omega

theorem fileOk_tableHeader (h : headerOn disk sector = tableHeader first)
    (hsector : sector < first) (hlt : first + 3 ≤ numSectors) : FileOk disk [sector] := by
  have hcount : (tableHeader first).numSectors = 3 := rfl
  have hdata : ∀ j, j < 3 → (tableHeader first).dataSectors j = first + j := fun j hj => if_pos hj
  refine FileOk.single (by omega) ?_ ?_ ?_ ?_
  · rw [h]
    have hbytes : directoryFileSize ≤ headerBytes := by decide
    have hsectors : 3 = divRoundUp directoryFileSize sectorSize := by decide
    refine ⟨hbytes, hsectors, fun j hj => ?_⟩
    rw [hdata j hj]
    rw [hcount] at hj
    omega
  · rw [h]
    intro i j hi hj heq
    rw [hdata i hi, hdata j hj] at heq
    omega
  · rw [h]
    rfl
  · rw [h]
    intro j hj
    rw [hdata j hj]
    omega

end TableHeader

/-- The header of the free map. -/
def blankMapHeader : RawFileHeader := ⟨freeMapFileSize, 1, fun i => if i = 0 then 2 else 0, 0⟩

/-- The header of the root directory. -/
def blankRootHeader : RawFileHeader :=
  ⟨directoryFileSize, 3, fun i => if i < 3 then 3 + i else 0, 0⟩

/-- A disk just formatted: the two headers, the free map and the entries of the root. -/
def blankDisk : ℕ → Sector
  | 0 => blankMapHeader.toSector
  | 1 => blankRootHeader.toSector
  | 2 => Bitmap.toBytes fun x => decide (x < 6)
  | _ => fun _ => 0

theorem blankDisk_map : headerOn blankDisk freeMapSector = blankMapHeader := by
  refine RawFileHeader.ofSector_toSector ⟨by decide, by decide, fun i => ?_, fun i hi => ?_,
    by decide⟩
  · show (if i = 0 then 2 else 0) < 2 ^ 32
    split <;> decide
  · have hnd : numDirect = 29 := rfl
    exact if_neg (by omega)

theorem blankDisk_root : headerOn blankDisk directorySector = blankRootHeader :=
  headerOn_tableHeader (by decide) rfl

theorem blankDisk_mapSector : mapSector blankDisk = 2 := by
  rw [mapSector, blankDisk_map]
  rfl

theorem blankDisk_mapAt (x : ℕ) : mapAt blankDisk x = decide (x < 6) := by
  have hdata : blankDisk 2 = Bitmap.toBytes fun x => decide (x < 6) := rfl
  rw [mapAt, blankDisk_mapSector, mapOn, hdata, Bitmap.ofBytes_toBytes]

theorem blankDisk_uses {x : ℕ} : Uses blankDisk [directorySector] x ↔ x = 1 ∨ 3 ≤ x ∧ x < 6 :=
  uses_tableHeader blankDisk_root

theorem blankDisk_fileOk : FileOk blankDisk [directorySector] :=
  fileOk_tableHeader blankDisk_root (by decide) (by decide)

/-- Sectors from 3 on are zero. -/
theorem blankDisk_zero {x : ℕ} (hx : 3 ≤ x) : blankDisk x = fun _ => 0 := by
  obtain ⟨n, rfl⟩ := Nat.exists_eq_add_of_le' hx
  rfl

theorem blankDisk_formatted : Formatted blankDisk where
  map_lt := by
    rw [blankDisk_mapSector]
    decide
  map_ne := by
    rw [blankDisk_mapSector]
    decide
  mapHeader := by
    rw [blankDisk_map]
    exact ⟨rfl, rfl, rfl⟩
  root := blankDisk_fileOk
  length := by
    show headerBytes * 0 + (headerOn blankDisk directorySector).numBytes = directoryFileSize
    rw [blankDisk_root]
    rfl
  entries j hj := by
    have hfresh : DirectoryEntry.ofBytes (fileByte blankDisk [directorySector])
        (DirectoryEntry.size * j) = .fresh := by
      refine DirectoryEntry.ofBytes_zero fun o ho => ?_
      have hes : DirectoryEntry.size = 32 := rfl
      have hnd : numDirEntries = 10 := rfl
      rw [hes] at ho ⊢
      rw [fileByte, dataSector]
      have hindex : (32 * j + o) / sectorSize < 3 := by
        have hss : sectorSize = 128 := rfl
        rw [hss]
        omega
      have hdirect : (32 * j + o) / sectorSize < numDirect := hindex.trans (by decide)
      rw [Nat.div_eq_of_lt hdirect, Nat.mod_eq_of_lt hdirect]
      show blankDisk ((headerOn blankDisk directorySector).dataSectors _) _ = 0
      rw [blankDisk_root]
      have hdata : blankRootHeader.dataSectors ((32 * j + o) / sectorSize) =
          3 + (32 * j + o) / sectorSize := if_pos hindex
      rw [blankDisk_zero (hdata ▸ Nat.le_add_right ..)]
    rw [hfresh]
    exact ⟨rfl, rfl⟩
  apart := by
    rw [blankDisk_mapSector, blankDisk_uses, blankDisk_uses]
    decide
  marks x _ := by
    rw [blankDisk_mapAt, blankDisk_mapSector, blankDisk_uses, decide_eq_true_iff]
    have hfm : freeMapSector = 0 := rfl
    omega

/-! ## Sessions -/

/-- The file system on a disk, opened with `FileSystem(false)`. -/
def World.boot (disk : ℕ → Sector) : Option World :=
  (FileSystem.boot.run System.act (System.start disk)).map fun r => ⟨r.2, []⟩

/-- **Calls one after the other**, each allowed by the guard. -/
def Session (guard : World → Call → Prop) (start : World) (calls : List Call) (w : World) : Prop :=
  Run World.perform (fun _ call => [call]) (fun _ w call => guard w call) start calls w

section Sessions
variable {disk : ℕ → Sector} {guard : World → Call → Prop} {start w : World} {calls : List Call}

theorem Session.next {w' : World} (hs : Session guard start calls w) (call : Call)
    (hg : guard w call) (hp : w.perform call = some w') :
    Session guard start (calls ++ [call]) w' :=
  Run.next call hs hg hp

/-- The start of a session. -/
theorem Formatted.live (hf : Formatted disk) : ∃ w₀ handles rest, World.boot disk = some w₀ ∧
    Live w₀ (emptyVolume disk handles) directorySector rest ∧ w₀.sys.disk = disk ∧
    w₀.sys.directorySize = numDirEntries := by
  obtain ⟨a, s', hrun, rest, hl, hdisk, hsize⟩ := hf.boot
  refine ⟨⟨s', []⟩, _, rest, ?_, hl, hdisk, hsize⟩
  rw [World.boot, hrun]
  rfl

/-- **A disk that has been used can be opened again**, and holds the same files. -/
theorem Live.reopens {V : Volume} {c : ℕ} {rest : List (ℕ × ℕ)} (hl : Live w V c rest) :
    ∃ w₀ handles rest₀, World.boot w.sys.disk = some w₀ ∧
      Live w₀ (V.reopened handles) directorySector rest₀ ∧ w₀.sys.disk = w.sys.disk := by
  obtain ⟨chain, t, hroot⟩ := hl.idle.ready.tree.rootTable
  obtain ⟨a, s', hrun, rest₀, hl₀, hdisk, -⟩ :=
    hl.idle.ready.disk.boot hl.idle.ready.tree hl.idle.reached hroot
  refine ⟨⟨s', []⟩, _, rest₀, ?_, hl₀, hdisk⟩
  rw [World.boot, hrun]
  rfl

/-- Memory reads as zero at the start. -/
theorem World.boot_heap (hboot : World.boot disk = some w) : w.sys.heap = fun _ => 0 := by
  obtain ⟨r, hrun, rfl⟩ := Option.map_eq_some_iff.mp hboot
  exact yields_heap _ (System.start disk) r.1 r.2 hrun

/-- **Legal calls on memory that reads as zero** give no new file the mark of a directory. -/
theorem Session.typed (hs : Session guard start calls w) (hboot : World.boot disk = some start)
    (hlegal : ∀ w call, guard w call → w.Legal call) :
    w.sys.heap = (fun _ => 0) ∧
      Session (fun w call => guard w call ∧ w.Typed call) start calls w := by
  refine Run.invariant (I := fun tr w => w.sys.heap = (fun _ => 0) ∧
    Session (fun w call => guard w call ∧ w.Typed call) start tr w)
    ⟨World.boot_heap hboot, .start⟩ ?_ hs
  rintro tr w call w' ⟨hzero, hs⟩ hg hperform
  have hcall := hlegal w call hg
  exact ⟨(hcall.heap_eq hperform).trans hzero, hs.next call ⟨hg, hcall.typed hzero⟩ hperform⟩

/-- **What every call keeps holds after a session.** -/
theorem Session.invariant {P : Volume → Prop} {V : Volume} {c : ℕ} {rest : List (ℕ × ℕ)}
    (hl : Live start V c rest) (h0 : P V) (htyped : ∀ w call, guard w call → w.Typed call)
    (hstep : ∀ w call V w' V', guard w call → Steps w call V w' V' → P V → P V')
    (hs : Session guard start calls w) : ∃ V c rest, Live w V c rest ∧ P V := by
  refine Run.invariant (I := fun _ w => ∃ V c rest, Live w V c rest ∧ P V) ⟨V, c, rest, hl,
    h0⟩ ?_ hs
  rintro tr w call w' ⟨V, c, rest, hl, hP⟩ hg hperform
  rcases hl.perform (htyped w call hg) with ⟨w₁, V₁, c₁, rest₁, hperform₁, hl₁, hsteps⟩ | ⟨-, hnone⟩
  · rw [hperform, Option.some.injEq] at hperform₁
    subst hperform₁
    exact ⟨V₁, c₁, rest₁, hl₁, hstep w call V w' V₁ hg hsteps hP⟩
  · rw [hperform] at hnone
    cases hnone

/-- The volume after a session. -/
theorem Formatted.session (hf : Formatted disk) (hboot : World.boot disk = some start)
    (hs : Session World.Typed start calls w) : ∃ V c rest, Live w V c rest := by
  obtain ⟨w₀, handles, rest, hboot', hl, -⟩ := hf.live
  obtain rfl := Option.some.inj (hboot.symm.trans hboot')
  obtain ⟨V, c, rest', hl', -⟩ := hs.invariant (P := fun _ => True) hl trivial (fun _ _ h => h)
    fun _ _ _ _ _ _ _ h => h
  exact ⟨V, c, rest', hl'⟩

/-- A legal call that nobody has to be waited for comes back. -/
theorem Live.proceeds {V : Volume} {c : ℕ} {rest : List (ℕ × ℕ)} (hl : Live w V c rest)
    {call : Call}
    (htyped : w.Typed call) (hp : w.Proceeds call) : ∃ w', w.perform call = some w' := by
  rcases hl.perform htyped with ⟨w', V', c', rest', hperform, -⟩ | ⟨hno, -⟩
  · exact ⟨w', hperform⟩
  · exact absurd hp hno

end Sessions
end PaldOs
