import PaldOs.Blindness
import PaldOs.Booting

/-! # Formatting

`FileSystem(true)` makes headers for the free map and the root directory, each extended by
`Allocate` from whatever the memory of a new `FileHeader` holds, stores them, opens the two files
and fills them.  It never sets `directorySize`, which stays what the memory of the `FileSystem`
object holds.

An empty volume comes of it exactly if the memory of both headers starts with two zero words and
`directorySize` happens to be there (`format_iff`).  Then what is asked of the file system is
answered as after the disk has been opened again: the two states differ only in where the root
directory was read last.
-/
namespace PaldOs

open Sys

namespace FileSystem

/-- The end of `FileSystem(true)`, from the two headers and the free map on. -/
def storeVolume (mapH dirH : RawFileHeader) (freeMap : Bitmap) : Sys Unit := do
  writeSector freeMapSector mapH.toSector
  writeSector directorySector dirH.toSector
  let freeMapFile ← OpenFile.make freeMapSector
  setFreeMapFile freeMapFile
  let directoryFile ← OpenFile.make directorySector
  setDirectoryFile directoryFile
  writeBackFreeMap freeMap
  let heap ← getHeap
  (Directory.new heap numDirEntries).writeBackFirst directoryFile

/-- `FileSystem(true)`, with what the memory of the two headers holds. -/
def format (mapMemory dirMemory : Sector) : Sys Unit :=
  let freeMap := Bitmap.mark (Bitmap.mark (fun _ => false) freeMapSector) directorySector
  match (RawFileHeader.ofSector mapMemory).allocate freeMap freeMapFileSize with
  | some (true, mapH, freeMap) =>
      match (RawFileHeader.ofSector dirMemory).allocate freeMap directoryFileSize with
      | some (true, dirH, freeMap) =>
          storeVolume { mapH with nextFileHeader := 0 } { dirH with nextFileHeader := 0 } freeMap
      | _ => fail
  | _ => fail

end FileSystem

/-- What the memory of a new `FileSystem` object holds. -/
structure FileSystemMemory where
  freeMapFile : ℕ
  directoryFile : ℕ
  directorySize : ℕ

/-- The memory before the constructor. -/
def System.unset (disk : ℕ → Sector) (heap : ℕ → UInt8) (fields : FileSystemMemory) : System :=
  { System.start disk with
    heap := heap
    freeMapFile := fields.freeMapFile
    directoryFile := fields.directoryFile
    directorySize := fields.directorySize }

/-! ## Empty volumes -/

/-- The only header of a file of `n` bytes. -/
structure RawFileHeader.Sized (h : RawFileHeader) (n : ℕ) : Prop where
  numBytes : h.numBytes = n
  numSectors : h.numSectors = divRoundUp n sectorSize
  next : h.nextFileHeader = 0

/-- The two headers and their data sectors. -/
def systemSectors (disk : ℕ → Sector) : List ℕ :=
  freeMapSector :: directorySector ::
    ((headerOn disk freeMapSector).sectors ++ (headerOn disk directorySector).sectors)

/-- **A valid empty volume.** -/
structure EmptyVolume (disk : ℕ → Sector) : Prop where
  mapHeader : (headerOn disk freeMapSector).Sized freeMapFileSize
  rootHeader : (headerOn disk directorySector).Sized directoryFileSize
  lt : ∀ x ∈ systemSectors disk, x < numSectors
  nodup : (systemSectors disk).Nodup
  marks : ∀ x, x < numSectors → (mapAt disk x = true ↔ x ∈ systemSectors disk)
  unused : ∀ j, j < numDirEntries → (DirectoryEntry.ofBytes (fileByte disk [directorySector])
    (DirectoryEntry.size * j)).inUse = false

/-- The file system answers as after it has been opened again. -/
def Reopens (s : System) : Prop :=
  ∀ fields, ∃ s', FileSystem.boot.run System.act (System.unset s.disk s.heap fields) =
      some ((), s') ∧
    ∀ requests, ((serve [] requests).run System.act s).map Prod.fst =
      ((serve [] requests).run System.act s').map Prod.fst

/-- **`FileSystem(true)` does what it is to do.** -/
def Formats (disk : ℕ → Sector) (heap : ℕ → UInt8) (mapMemory dirMemory : Sector)
    (fields : FileSystemMemory) : Prop :=
  ∃ s, (FileSystem.format mapMemory dirMemory).run System.act (System.unset disk heap fields) =
      some ((), s) ∧
    EmptyVolume s.disk ∧ s.directorySize = numDirEntries ∧ Reopens s

/-- The memory of a header starts with two zero words. -/
def Zeroed (memory : Sector) : Prop :=
  (RawFileHeader.ofSector memory).numBytes = 0 ∧ (RawFileHeader.ofSector memory).numSectors = 0

/-! ## The two files are opened -/

/-- A file that nobody has opened before is opened. -/
def System.opening (s : System) (sector : ℕ) : System :=
  { s with
    openFilesTable := Function.update s.openFilesTable sector
      ⟨some (s.nextLock + 1), some s.nextLock, some (s.nextLock + 2), false, false, 1⟩
    openFile := Function.update s.openFile s.nextOpenFile
      ⟨sector, sector, 0, headerOn s.disk sector⟩
    nextOpenFile := s.nextOpenFile + 1
    held := Function.update (Function.update (Function.update s.held s.nextLock false)
      (s.nextLock + 1) false) (s.nextLock + 1 + 1) false
    nextLock := s.nextLock + 1 + 1 + 1 }

/-- Both files are open, and nothing has been read or written since. -/
def System.opened (disk : ℕ → Sector) (heap : ℕ → UInt8) (fields : FileSystemMemory) : System :=
  { System.opening { (System.unset disk heap fields).opening freeMapSector with freeMapFile := 0 }
      directorySector with directoryFile := 1 }

section Opening
variable {s : System} {sector : ℕ} {disk disk' : ℕ → Sector} {heap : ℕ → UInt8}
  {fields fields' : FileSystemMemory}

theorem ends_make_new {Q : ℕ → System → Prop}
    (h : s.openFilesTable sector = ⟨none, none, none, false, false, 0⟩) :
    s.Ends (OpenFile.make sector) Q ↔
      sector < numSectors ∧ Q s.nextOpenFile (s.opening sector) := by
  unfold OpenFile.make OpenFile.makeLocks
  simp only [Prog.ends_bind, ends_readSector, ends_getEntry, h, if_true, ends_newLock,
    OpenFile.lockOrNew, ends_setEntry, ends_newOpenFile]
  simp only [System.opening, System.putEntry, System.putOpenFile, System.putHeld,
    Function.update_self, Function.update_idem]
  rfl

/-- What both constructors begin with. -/
theorem ends_open {α : Type} {k : ℕ → Sys α} {Q : α → System → Prop} :
    (System.unset disk heap fields).Ends (do
      let freeMapFile ← OpenFile.make freeMapSector
      setFreeMapFile freeMapFile
      let directoryFile ← OpenFile.make directorySector
      setDirectoryFile directoryFile
      k directoryFile) Q ↔ (System.opened disk heap fields).Ends (k 1) Q := by
  refine Prog.ends_bind.trans ((ends_make_new rfl).trans ((and_iff_right (by decide)).trans ?_))
  refine Prog.ends_bind.trans (ends_setFreeMapFile.trans ?_)
  refine Prog.ends_bind.trans ((ends_make_new rfl).trans ((and_iff_right (by decide)).trans ?_))
  exact Prog.ends_bind.trans ends_setDirectoryFile

/-- The disk with the two headers. -/
def headersStored (disk : ℕ → Sector) (mapH dirH : RawFileHeader) : ℕ → Sector :=
  Function.update (Function.update disk freeMapSector mapH.toSector) directorySector dirH.toSector

/-- The files are filled. -/
def fillFiles (freeMap : Bitmap) : Sys Unit := do
  writeBackFreeMap freeMap
  let heap ← getHeap
  (Directory.new heap numDirEntries).writeBackFirst 1

theorem ends_storeVolume {mapH dirH : RawFileHeader} {freeMap : Bitmap}
    {Q : Unit → System → Prop} :
    (System.unset disk heap fields).Ends (FileSystem.storeVolume mapH dirH freeMap) Q ↔
      (System.opened (headersStored disk mapH dirH) heap fields).Ends (fillFiles freeMap) Q := by
  refine Prog.ends_bind.trans (ends_writeSector.trans ((and_iff_right (by decide)).trans ?_))
  refine Prog.ends_bind.trans (ends_writeSector.trans ((and_iff_right (by decide)).trans ?_))
  exact ends_open

theorem ends_boot {Q : Unit → System → Prop} :
    (System.unset disk heap fields).Ends FileSystem.boot Q ↔
      (System.opened disk heap fields).Ends (Directory.tableSize 1) fun n s =>
        Q () { s with directorySize := n } := by
  refine ends_open.trans (Prog.ends_bind.trans ?_)
  simp only [ends_setDirectorySize]

@[simp] theorem opened_disk : (System.opened disk heap fields).disk = disk := rfl
@[simp] theorem opened_freeMapFile : (System.opened disk heap fields).freeMapFile = 0 := rfl
@[simp] theorem opened_directorySize :
    (System.opened disk heap fields).directorySize = fields.directorySize := rfl
@[simp] theorem opened_map : (System.opened disk heap fields).openFile 0 =
    ⟨freeMapSector, freeMapSector, 0, headerOn disk freeMapSector⟩ := rfl
@[simp] theorem opened_root : (System.opened disk heap fields).openFile 1 =
    ⟨directorySector, directorySector, 0, headerOn disk directorySector⟩ := rfl

/-- The headers in memory are all that depends on the disk. -/
theorem opened_withDisk (h0 : headerOn disk' freeMapSector = headerOn disk freeMapSector)
    (h1 : headerOn disk' directorySector = headerOn disk directorySector) :
    (System.opened disk heap fields).withDisk disk' = System.opened disk' heap fields := by
  unfold System.opened System.opening System.withDisk
  have hdisk : ∀ d, (System.unset d heap fields).disk = d := fun _ => rfl
  dsimp only
  rw [hdisk, hdisk, h0, h1]
  rfl

end Opening

/-! ## What gets into the sectors -/

section FirstBytes
variable {s : System} {f : ℕ} {src buf : ℕ → UInt8}

theorem yields_writeSector {n : ℕ} {data : Sector} {Q : Unit → System → Prop} :
    s.Yields (writeSector n data) Q ↔ (n < numSectors → Q () (s.putSector n data)) :=
  Prog.yields_of_ends fun _ => ends_writeSector

/-- A sector is left or gets a part of the buffer. -/
theorem writeSectors_yields {offset i n : ℕ} :
    s.Yields (OpenFile.writeSectors f buf offset i n) fun _ s' => ∃ disk, s' = s.withDisk disk ∧
      ∀ x, disk x = s.disk x ∨
        ∃ j, j < n ∧ disk x = fun o => buf (offset + j * sectorSize + o) := by
  induction n generalizing s offset i with
  | zero => exact Prog.yields_pure.mpr ⟨s.disk, rfl, fun _ => .inl rfl⟩
  | succ n ih =>
    refine Prog.yields_bind.mpr (yields_getOpenFile.mpr ?_)
    refine Prog.yields_bind.mpr (yields_writeSector.mpr fun _ => ih.mono ?_)
    rintro _ s' ⟨disk, rfl, hdisk⟩
    refine ⟨disk, rfl, fun x => ?_⟩
    rcases hdisk x with hold | ⟨j, hj, hnew⟩
    · rcases eq_or_ne x ((s.openFile f).hdr.byteToSector (i * sectorSize)) with rfl | hne
      · refine .inr ⟨0, Nat.succ_pos n, hold.trans ?_⟩
        rw [System.putSector_self, Nat.zero_mul, Nat.add_zero]
      · exact .inl (hold.trans (s.putSector_of_ne _ hne))
    · refine .inr ⟨j + 1, Nat.succ_lt_succ hj, hnew.trans (funext fun o => congrArg buf ?_)⟩
      rw [Nat.succ_mul, Nat.add_comm (j * sectorSize), Nat.add_assoc offset]

theorem readPartial_yields {needed : Bool} {offset sector : ℕ} :
    s.Yields (OpenFile.readPartial f needed buf offset sector) fun _ s' => s' = s := by
  unfold OpenFile.readPartial
  split
  · refine Prog.yields_bind.mpr (readAt_yields.mono ?_)
    rintro _ _ rfl
    exact Prog.yields_pure.mpr rfl
  · exact Prog.yields_pure.mpr rfl

/-- **`WriteAt` from the start of a file**: the first byte of a sector that is not left is a byte of
the source. -/
theorem writeAt_first {n : ℕ} (hn : n < 2 ^ 32) :
    s.Yields (OpenFile.writeAt f src n 0) fun _ s' => ∃ disk, s' = s.withDisk disk ∧
      ∀ x, disk x = s.disk x ∨ ∃ j, j * sectorSize < n ∧ disk x 0 = src (j * sectorSize) := by
  have hss : sectorSize = 128 := rfl
  unfold OpenFile.writeAt
  refine Prog.yields_bind.mpr (yields_assert.mpr fun hpos => ?_)
  refine Prog.yields_bind.mpr (yields_getOpenFile.mpr ?_)
  dsimp only
  split
  · exact Prog.yields_pure.mpr ⟨s.disk, rfl, fun _ => .inl rfl⟩
  rename_i hlen
  -- `k` bytes are written
  generalize hk : (if (s.openFile f).hdr.numBytes < (0 + n) % 2 ^ 32 then
    (s.openFile f).hdr.numBytes - 0 else n) = k
  have hk' : 0 < k ∧ k ≤ n := by
    rw [← hk, Nat.zero_add, Nat.mod_eq_of_lt hn]
    split <;> omega
  refine Prog.yields_bind.mpr (readPartial_yields.mono ?_)
  rintro _ _ rfl
  refine Prog.yields_bind.mpr (readPartial_yields.mono ?_)
  rintro buf _ rfl
  refine Prog.yields_bind.mpr (yields_assert.mpr fun _ => ?_)
  refine Prog.yields_bind.mpr (writeSectors_yields.mono ?_)
  rintro _ s' ⟨disk, rfl, hdisk⟩
  refine Prog.yields_pure.mpr ⟨disk, rfl, fun x => (hdisk x).imp_right ?_⟩
  rintro ⟨j, hj, hnew⟩
  have hin : j * sectorSize < k := by
    rw [hss] at hj ⊢
    omega
  refine ⟨j, by omega, ?_⟩
  rw [hnew]
  dsimp only
  rw [blit, if_pos (by omega)]
  exact congrArg src (by omega)

/-- A sector of a new table starts with an entry, which is not in use. -/
theorem new_toBytes_sector (heap : ℕ → UInt8) (n j : ℕ) :
    (Directory.new heap n).toBytes (j * sectorSize) = 0 := by
  have hmod : j * sectorSize % DirectoryEntry.size = 0 :=
    Nat.mod_eq_zero_of_dvd (Dvd.dvd.mul_left (by decide) j)
  have hunused := (Directory.slot_onHeap (Directory.entryAt heap) n
    (j * sectorSize / DirectoryEntry.size)).1
  show ((Directory.new heap n).slot (j * sectorSize / DirectoryEntry.size)).toBytes
    (j * sectorSize % DirectoryEntry.size) = 0
  rw [hmod, DirectoryEntry.toBytes, if_pos rfl, Directory.new, hunused]
  rfl

/-- The first byte of a sector that is filled is that of the free map, or zero. -/
theorem fillFiles_first {disk : ℕ → Sector} {heap : ℕ → UInt8} {fields : FileSystemMemory}
    {freeMap : Bitmap} :
    (System.opened disk heap fields).Yields (fillFiles freeMap) fun _ s' =>
      ∃ disk', s' = (System.opened disk heap fields).withDisk disk' ∧
        ∀ x, disk' x = disk x ∨ disk' x 0 = freeMap.toBytes 0 ∨ disk' x 0 = 0 := by
  have hss : sectorSize = 128 := rfl
  unfold fillFiles writeBackFreeMap Directory.writeBackFirst
  refine Prog.yields_bind.mpr (Prog.yields_bind.mpr ?_)
  refine ((Prog.yields_of_ends (c := True) fun _ => by rw [true_and]; exact ends_getFreeMapFile).mpr
    fun _ => ?_)
  refine Prog.yields_bind.mpr ((writeAt_first (by decide)).mono ?_)
  rintro _ _ ⟨disk₁, rfl, hmap⟩
  refine Prog.yields_pure.mpr ?_
  refine Prog.yields_bind.mpr ((Prog.yields_of_ends (c := True) fun _ => by
    rw [true_and]; exact ends_getHeap).mpr fun _ => ?_)
  refine Prog.yields_bind.mpr ((writeAt_first (Nat.mod_lt _ (by decide))).mono ?_)
  rintro _ _ ⟨disk₂, rfl, hroot⟩
  refine Prog.yields_pure.mpr ⟨disk₂, rfl, fun x => ?_⟩
  rcases hroot x with hold | ⟨j, -, hnew⟩
  · rcases hmap x with hold' | ⟨j, hj, hnew⟩
    · exact .inl (hold.trans hold')
    · have hsize : freeMapFileSize = 128 := rfl
      obtain rfl : j = 0 := by
        rw [hsize, hss] at hj
        omega
      refine .inr (.inl ?_)
      rw [hold, System.withDisk_disk, hnew, Nat.zero_mul]
  · exact .inr (.inr (hnew.trans (new_toBytes_sector _ _ _)))

/-- The low byte of the first word of a header. -/
theorem numBytes_mod (disk : ℕ → Sector) (x : ℕ) :
    (headerOn disk x).numBytes % 256 = (disk x 0).toNat := by
  have hlt := (disk x 0).toNat_lt
  show word (disk x) 0 % 256 = _
  rw [word]
  omega

/-- **A header whose length is not that of a filled sector** is where it was stored. -/
theorem header_kept {disk disk' : ℕ → Sector} {freeMap : Bitmap} {x n : ℕ}
    (hfirst : disk' x = disk x ∨ disk' x 0 = freeMap.toBytes 0 ∨ disk' x 0 = 0)
    (hbit : freeMap 0 = true) (hn : (headerOn disk' x).numBytes = n) (heven : n % 2 = 0)
    (hlow : n % 256 ≠ 0) : disk' x = disk x := by
  have hmod := numBytes_mod disk' x
  rw [hn] at hmod
  rcases hfirst with hsame | hmap | hzero
  · exact hsame
  · -- the first bit of the free map is set
    have hodd : (freeMap.toBytes 0).toNat.testBit 0 = true := by
      have hmap0 : Bitmap.ofBytes freeMap.toBytes 0 = true := by rw [Bitmap.ofBytes_toBytes, hbit]
      exact hmap0
    rw [Nat.testBit_zero, decide_eq_true_iff, ← hmap] at hodd
    omega
  · rw [hzero] at hmod
    exact absurd hmod hlow

end FirstBytes

/-! ## The sectors of a formatted disk -/

section Sectors
variable {disk : ℕ → Sector} {x : ℕ}

theorem mem_systemSectors : x ∈ systemSectors disk ↔ x = freeMapSector ∨ x = directorySector ∨
    x ∈ (headerOn disk freeMapSector).sectors ∨ x ∈ (headerOn disk directorySector).sectors := by
  rw [systemSectors, List.mem_cons, List.mem_cons, List.mem_append]

/-- The sectors are different. -/
theorem nodup_systemSectors : (systemSectors disk).Nodup ↔
    (freeMapSector ∉ (headerOn disk freeMapSector).sectors ∧
      freeMapSector ∉ (headerOn disk directorySector).sectors) ∧
    (directorySector ∉ (headerOn disk freeMapSector).sectors ∧
      directorySector ∉ (headerOn disk directorySector).sectors) ∧
    (headerOn disk freeMapSector).Distinct ∧ (headerOn disk directorySector).Distinct ∧
    ∀ x ∈ (headerOn disk freeMapSector).sectors, x ∉ (headerOn disk directorySector).sectors := by
  have hne : freeMapSector ≠ directorySector := by decide
  rw [systemSectors, List.nodup_cons, List.nodup_cons, List.nodup_append',
    RawFileHeader.nodup_sectors, RawFileHeader.nodup_sectors]
  simp only [List.mem_cons, List.mem_append, hne, false_or, not_or]
  rfl

theorem systemSectors_congr {disk' : ℕ → Sector}
    (h0 : headerOn disk' freeMapSector = headerOn disk freeMapSector)
    (h1 : headerOn disk' directorySector = headerOn disk directorySector) :
    systemSectors disk' = systemSectors disk := by
  rw [systemSectors, systemSectors, h0, h1]

/-- **Marked sectors are not clear.** -/
theorem countClear_add_length {b : Bitmap} {l : List ℕ} (hl : l.Nodup)
    (hlt : ∀ x ∈ l, x < numSectors) (hmarks : ∀ x, x < numSectors → (b x = true ↔ x ∈ l)) :
    b.countClear + l.length = numSectors := by
  have hset : (List.range numSectors).countP b = l.length := by
    rw [List.countP_eq_length_filter]
    refine List.Perm.length_eq ((List.perm_ext_iff_of_nodup (List.nodup_range.filter _) hl).mpr ?_)
    intro x
    rw [List.mem_filter, List.mem_range]
    constructor
    · rintro ⟨hx, hb⟩
      exact (hmarks x hx).mp hb
    · intro hx
      exact ⟨hlt x hx, (hmarks x (hlt x hx)).mpr hx⟩
  have hall : (List.range numSectors).length = (List.range numSectors).countP b +
      (List.range numSectors).countP fun x => decide ¬ b x = true :=
    List.length_eq_countP_add_countP b
  have hclear : ((List.range numSectors).countP fun x => decide ¬ b x = true) = b.countClear := by
    rw [Bitmap.countClear]
    refine List.countP_congr fun x _ => ?_
    simp
  rw [List.length_range, hset, hclear] at hall
  omega

end Sectors

/-! ## The files are filled -/

section Filled
variable {disk : ℕ → Sector} {heap : ℕ → UInt8} {fields : FileSystemMemory}

/-- **The free map and the table are stored**, and the other sectors are left. -/
theorem fillFiles_ends (hmap : (headerOn disk freeMapSector).Sized freeMapFileSize)
    (hroot : (headerOn disk directorySector).Sized directoryFileSize)
    (hlt : ∀ x ∈ systemSectors disk, x < numSectors) (hnodup : (systemSectors disk).Nodup)
    (freeMap : Bitmap) :
    (System.opened disk heap fields).Ends (fillFiles freeMap) fun _ s' =>
      ∃ disk', s' = (System.opened disk heap fields).withDisk disk' ∧
        (∀ i, i < numSectors → mapOn disk' (mapSector disk) i = freeMap i) ∧
        (∀ p, p < directoryFileSize → (headerOn disk directorySector).byte disk' p =
          (Directory.new heap numDirEntries).toBytes p) ∧
        ∀ x, x ∉ (headerOn disk freeMapSector).sectors →
          x ∉ (headerOn disk directorySector).sectors → disk' x = disk x := by
  obtain ⟨-, -, -, hdistinct, hapart⟩ := nodup_systemSectors.mp hnodup
  have hone : (headerOn disk freeMapSector).numSectors = 1 := hmap.numSectors.trans rfl
  have hmem : mapSector disk ∈ (headerOn disk freeMapSector).sectors :=
    RawFileHeader.mem_sectors.mpr ⟨0, by omega, rfl⟩
  have hfree : FreeMapOk (System.opened disk heap fields) (mapSector disk) :=
    ⟨hmap.numBytes, hone, rfl, hlt _ (mem_systemSectors.mpr (.inr (.inr (.inl hmem))))⟩
  refine Prog.ends_bind.mpr ((writeBackFreeMap_ends hfree freeMap).mono ?_)
  rintro _ _ ⟨data, rfl, hdata⟩
  have hok : HeaderOk (headerOn disk directorySector) := by
    refine ⟨?_, ?_, fun j hj => hlt _ (mem_systemSectors.mpr (.inr (.inr (.inr ?_))))⟩
    · rw [hroot.numBytes]
      decide
    · rw [hroot.numSectors, hroot.numBytes]
    · exact RawFileHeader.mem_sectors.mpr ⟨j, hj, rfl⟩
  have hsize : (Directory.new heap numDirEntries).length * DirectoryEntry.size % 2 ^ 32 =
      directoryFileSize := by
    rw [Directory.length_new]
    rfl
  have hheap : ((System.opened disk heap fields).putSector (mapSector disk) data).heap = heap := rfl
  refine Prog.ends_bind.mpr (ends_getHeap.mpr ?_)
  rw [hheap]
  unfold Directory.writeBackFirst
  rw [hsize]
  refine Prog.ends_bind.mpr ((writeAt_ends hok hdistinct (by decide) ?_).mono ?_)
  · rw [Nat.zero_add]
    exact hroot.numBytes.ge
  rintro _ _ ⟨-, disk', rfl, hbyte, hout⟩
  have hother : ∀ x, x ∉ (headerOn disk directorySector).sectors →
      disk' x = Function.update disk (mapSector disk) data x := by
    intro x hx
    exact hout x fun j hj heq => hx (RawFileHeader.mem_sectors.mpr ⟨j, hj, heq.symm⟩)
  refine Prog.ends_pure.mpr ⟨disk', rfl, fun i hi => ?_, fun p hp => ?_, fun x hx hx' => ?_⟩
  · rw [mapOn, hother _ (hapart _ hmem), Function.update_self]
    exact hdata i hi
  · have hpos : 0 ≤ p ∧ p < 0 + directoryFileSize := by omega
    have hb := hbyte p (hp.trans_eq hroot.numBytes.symm)
    rw [if_pos hpos] at hb
    exact hb
  · have hne : x ≠ mapSector disk := fun heq => hx (heq ▸ hmem)
    rw [hother x hx', Function.update_of_ne hne]

end Filled

/-! ## What `Allocate` makes of any header -/

namespace RawFileHeader

/-- `h'` is what a successful `Allocate` makes of `h`. -/
structure Extended (h : RawFileHeader) (freeMap : Bitmap) (fileSize : ℕ) (h' : RawFileHeader)
    (freeMap' : Bitmap) : Prop where
  numBytes : h'.numBytes = (h.numBytes + fileSize) % 2 ^ 32
  numSectors : h'.numSectors = divRoundUp h'.numBytes sectorSize
  marked : ∀ x, freeMap x = true → freeMap' x = true
  count : h'.numSectors - h.numSectors ≤ freeMap.countClear →
    freeMap'.countClear + (h'.numSectors - h.numSectors) = freeMap.countClear

section Allocate
variable {h h' : RawFileHeader} {freeMap freeMap' : Bitmap} {fileSize : ℕ}

/-- The loop of `Allocate`, however many sectors there are. -/
theorem takeSectors_kept (h : RawFileHeader) (freeMap : Bitmap) (i n : ℕ) :
    (h.takeSectors freeMap i n).1.numBytes = h.numBytes ∧
      (h.takeSectors freeMap i n).1.numSectors = h.numSectors ∧
      ∀ x, freeMap x = true → (h.takeSectors freeMap i n).2 x = true := by
  induction n generalizing h freeMap i with
  | zero => exact ⟨rfl, rfl, fun _ hx => hx⟩
  | succ n ih =>
    unfold takeSectors
    cases hfind : freeMap.find with
    | none => exact ih _ _ _
    | some r =>
      obtain ⟨sector, freeMap'⟩ := r
      obtain ⟨-, -, rfl⟩ := Bitmap.find_eq_some hfind
      obtain ⟨hbytes, hsectors, hmarked⟩ := ih { h with
        dataSectors := Function.update h.dataSectors i sector } (freeMap.mark sector) (i + 1)
      refine ⟨hbytes, hsectors, fun x hx => hmarked x ?_⟩
      rcases eq_or_ne x sector with rfl | hne
      · exact Function.update_self ..
      · exact (Function.update_of_ne hne ..).trans hx

/-- **A successful `Allocate`**, of a header with anything in it. -/
theorem allocate_extended (hal : h.allocate freeMap fileSize = some (true, h', freeMap')) :
    h.Extended freeMap fileSize h' freeMap' := by
  unfold allocate at hal
  split at hal
  · dsimp only at hal
    split at hal
    · cases hal
    split at hal
    · cases hal
    generalize hgrown : ({ h with
      numBytes := (h.numBytes + fileSize) % 2 ^ 32
      numSectors := divRoundUp ((h.numBytes + fileSize) % 2 ^ 32) sectorSize } : RawFileHeader) =
        grown at hal
    have hbytes : grown.numBytes = (h.numBytes + fileSize) % 2 ^ 32 := by rw [← hgrown]
    have hsectors : grown.numSectors = divRoundUp grown.numBytes sectorSize := by rw [← hgrown]
    rw [← hbytes, ← hsectors] at hal
    have htaken := (Prod.mk.inj (Option.some.inj hal)).2
    obtain ⟨hb, hs, hmarked⟩ := takeSectors_kept grown freeMap h.numSectors
      (grown.numSectors - h.numSectors)
    have hcount : grown.numSectors - h.numSectors ≤ freeMap.countClear →
        (grown.takeSectors freeMap h.numSectors (grown.numSectors - h.numSectors)).2.countClear +
          (grown.numSectors - h.numSectors) = freeMap.countClear :=
      fun hle => (takeSectors_takes hle).count
    rw [htaken] at hb hs hmarked hcount
    refine ⟨hb.trans hbytes, ?_, hmarked, fun hle => ?_⟩
    · rw [hs, hb, hsectors]
    · have hs' : h'.numSectors = grown.numSectors := hs
      rw [hs'] at hle ⊢
      exact hcount hle
  · cases hal

end Allocate
end RawFileHeader

/-! ## What the headers started with -/

/-- The free map that `FileSystem(true)` starts with. -/
theorem countClear_start :
    (Bitmap.mark (Bitmap.mark (fun _ => false) freeMapSector) directorySector).countClear + 2 =
      numSectors := by
  have hnodup : [freeMapSector, directorySector].Nodup := by decide
  refine countClear_add_length hnodup (by decide) fun x _ => ?_
  rw [List.mem_cons, List.mem_singleton, Bitmap.mark, Bitmap.mark]
  rcases eq_or_ne x directorySector with rfl | h1
  · rw [Function.update_self]
    exact iff_of_true rfl (.inr rfl)
  · rw [Function.update_of_ne h1]
    rcases eq_or_ne x freeMapSector with rfl | h0
    · rw [Function.update_self]
      exact iff_of_true rfl (.inl rfl)
    · rw [Function.update_of_ne h0]
      exact iff_of_false Bool.false_ne_true (by rintro (h | h) <;> contradiction)

section Necessary
variable {disk : ℕ → Sector} {heap : ℕ → UInt8} {fields : FileSystemMemory}
  {mapMemory dirMemory : Sector}

/-- The number of bytes of a header that was stored. -/
theorem numBytes_stored (h : RawFileHeader) :
    (RawFileHeader.ofSector h.toSector).numBytes = h.numBytes % 2 ^ 32 :=
  RawFileHeader.word_toSector h 0

/-- A header with the length of the new bytes alone had none. -/
theorem numBytes_before {memory : Sector} {h : RawFileHeader} {n : ℕ}
    (hext : h.numBytes = ((RawFileHeader.ofSector memory).numBytes + n) % 2 ^ 32)
    (hstored : (RawFileHeader.ofSector h.toSector).numBytes = n) :
    (RawFileHeader.ofSector memory).numBytes = 0 ∧ h.numBytes = n := by
  have hlt := (RawFileHeader.fits_ofSector memory).numBytes
  rw [numBytes_stored] at hstored
  omega

/-- An empty volume has six sectors in use. -/
theorem EmptyVolume.countClear (he : EmptyVolume disk) :
    (mapAt disk).countClear + 6 = numSectors := by
  have hlength : (systemSectors disk).length = 6 := by
    rw [systemSectors, List.length_cons, List.length_cons, List.length_append,
      RawFileHeader.sectors, RawFileHeader.sectors, List.length_map, List.length_map,
      List.length_range, List.length_range, he.mapHeader.numSectors, he.rootHeader.numSectors]
    rfl
  rw [← hlength]
  exact countClear_add_length he.nodup he.lt he.marks

/-- **An empty volume needs zeroed headers.** -/
theorem format_yields : (System.unset disk heap fields).Yields
    (FileSystem.format mapMemory dirMemory) fun _ s =>
      s.directorySize = fields.directorySize ∧
        (EmptyVolume s.disk → Zeroed mapMemory ∧ Zeroed dirMemory) := by
  unfold FileSystem.format
  dsimp only
  split
  case h_2 => exact yields_fail
  rename_i mapH freeMap₁ hmapH
  split
  case h_2 => exact yields_fail
  rename_i dirH freeMap₂ hdirH
  have hmap := RawFileHeader.allocate_extended hmapH
  have hdir := RawFileHeader.allocate_extended hdirH
  intro a s' hrun
  -- the run goes on from where the files are open
  have hopened : (FileSystem.storeVolume { mapH with nextFileHeader := 0 }
      { dirH with nextFileHeader := 0 } freeMap₂).run System.act (System.unset disk heap fields) =
    (fillFiles freeMap₂).run System.act (System.opened (headersStored disk
      { mapH with nextFileHeader := 0 } { dirH with nextFileHeader := 0 }) heap fields) :=
    Prog.run_eq_of_ends fun _ => ends_storeVolume
  rw [hopened] at hrun
  generalize hd : headersStored disk { mapH with nextFileHeader := 0 }
    { dirH with nextFileHeader := 0 } = stored at hrun
  have hstored0 : stored freeMapSector =
      RawFileHeader.toSector { mapH with nextFileHeader := 0 } := by
    rw [← hd]
    rfl
  have hstored1 : stored directorySector =
      RawFileHeader.toSector { dirH with nextFileHeader := 0 } := by
    rw [← hd]
    rfl
  obtain ⟨disk', rfl, hfirst⟩ := fillFiles_first a s' hrun
  refine ⟨rfl, fun he => ?_⟩
  have he : EmptyVolume disk' := he
  -- the two headers are where they were stored
  have hbit : freeMap₂ 0 = true := hdir.marked 0 (hmap.marked 0 rfl)
  have hkept0 := header_kept (hfirst freeMapSector) hbit he.mapHeader.numBytes (by decide)
    (by decide)
  have hkept1 := header_kept (hfirst directorySector) hbit he.rootHeader.numBytes (by decide)
    (by decide)
  have hhead0 : headerOn stored freeMapSector = headerOn disk' freeMapSector := by
    rw [headerOn, headerOn, hkept0]
  have hhead1 : headerOn stored directorySector = headerOn disk' directorySector := by
    rw [headerOn, headerOn, hkept1]
  obtain ⟨hmapBefore, hmapBytes⟩ := numBytes_before hmap.numBytes (by
    have hbytes := he.mapHeader.numBytes
    rw [← hhead0, headerOn, hstored0] at hbytes
    exact hbytes)
  obtain ⟨hdirBefore, hdirBytes⟩ := numBytes_before hdir.numBytes (by
    have hbytes := he.rootHeader.numBytes
    rw [← hhead1, headerOn, hstored1] at hbytes
    exact hbytes)
  -- the free map on disk is the one in memory
  have hsystem : systemSectors stored = systemSectors disk' := systemSectors_congr hhead0 hhead1
  obtain ⟨disk'', hdisk, hbits, -, -⟩ := (fillFiles_ends (hhead0 ▸ he.mapHeader)
    (hhead1 ▸ he.rootHeader) (hsystem ▸ he.lt) (hsystem ▸ he.nodup) freeMap₂).of_run hrun
  obtain rfl : disk' = disk'' := congrArg System.disk hdisk
  have hsector : mapSector stored = mapSector disk' := by rw [mapSector, mapSector, hhead0]
  have hcount : (mapAt disk').countClear = freeMap₂.countClear := by
    refine Bitmap.countClear_congr fun i hi => ?_
    rw [mapAt, ← hsector]
    exact hbits i hi
  have hclear := he.countClear
  have hstart := countClear_start
  have hmapSectors : mapH.numSectors = 1 := by
    rw [hmap.numSectors, hmapBytes]
    rfl
  have hdirSectors : dirH.numSectors = 3 := by
    rw [hdir.numSectors, hdirBytes]
    rfl
  have hns : numSectors = 1024 := rfl
  have hmapCount := hmap.count
  have hdirCount := hdir.count
  rw [hmapSectors] at hmapCount
  rw [hdirSectors] at hdirCount
  rw [hcount] at hclear
  refine ⟨⟨hmapBefore, ?_⟩, hdirBefore, ?_⟩ <;> omega

end Necessary

/-! ## From zeroed headers -/

section Sufficient
variable {disk : ℕ → Sector} {heap : ℕ → UInt8} {fields : FileSystemMemory}
  {mapMemory dirMemory : Sector}

/-- An empty volume is one to start from, if its entries are those of no file. -/
theorem EmptyVolume.formatted (he : EmptyVolume disk)
    (hentries : ∀ j, j < numDirEntries → (DirectoryEntry.ofBytes
      (fileByte disk [directorySector]) (DirectoryEntry.size * j)).isDirectory = false) :
    Formatted disk := by
  obtain ⟨⟨h0map, h0root⟩, ⟨h1map, h1root⟩, hdmap, hdroot, hapart⟩ :=
    nodup_systemSectors.mp he.nodup
  have hone : (headerOn disk freeMapSector).numSectors = 1 := he.mapHeader.numSectors.trans rfl
  have hmapSectors : ∀ x, x ∈ (headerOn disk freeMapSector).sectors ↔ x = mapSector disk := by
    intro x
    rw [RawFileHeader.mem_sectors, hone]
    constructor
    · rintro ⟨j, hj, rfl⟩
      obtain rfl : j = 0 := by omega
      rfl
    · rintro rfl
      exact ⟨0, Nat.one_pos, rfl⟩
  have huses : ∀ x, Uses disk [directorySector] x ↔
      x = directorySector ∨ x ∈ (headerOn disk directorySector).sectors := by
    intro x
    rw [uses_single, RawFileHeader.mem_sectors]
    simp only [eq_comm]
  have hmem : mapSector disk ∈ (headerOn disk freeMapSector).sectors := (hmapSectors _).mpr rfl
  refine ⟨?_, ?_, ⟨he.mapHeader.numBytes, hone, he.mapHeader.next⟩, ?_, ?_,
    fun j hj => ⟨he.unused j hj, hentries j hj⟩, ?_, ?_⟩
  · exact he.lt _ (mem_systemSectors.mpr (.inr (.inr (.inl hmem))))
  · exact fun heq => h0map (heq ▸ hmem)
  · refine .single (by decide) ⟨?_, ?_, fun j hj => ?_⟩ hdroot he.rootHeader.next fun j hj heq => ?_
    · rw [he.rootHeader.numBytes]
      decide
    · rw [he.rootHeader.numSectors, he.rootHeader.numBytes]
    · exact he.lt _ (mem_systemSectors.mpr (.inr (.inr (.inr
        (RawFileHeader.mem_sectors.mpr ⟨j, hj, rfl⟩)))))
    · exact h1root (RawFileHeader.mem_sectors.mpr ⟨j, hj, heq⟩)
  · show headerBytes * 0 + (headerOn disk directorySector).numBytes = _
    rw [Nat.mul_zero, Nat.zero_add, he.rootHeader.numBytes]
  · rw [huses, huses]
    refine ⟨?_, ?_⟩
    · rintro (h | h)
      · exact absurd h (by decide)
      · exact h0root h
    · rintro (h | h)
      · exact h1map (h ▸ hmem)
      · exact hapart _ hmem h
  · intro x hx
    rw [he.marks x hx, mem_systemSectors, hmapSectors, huses]
    tauto

/-- A header that is stored is read back, without a next one. -/
theorem headerOn_stored {h : RawFileHeader} {x : ℕ} (hf : h.Fits)
    (hdisk : disk x = RawFileHeader.toSector { h with nextFileHeader := 0 }) :
    headerOn disk x = { h with nextFileHeader := 0 } := by
  rw [headerOn, hdisk]
  exact RawFileHeader.ofSector_toSector
    ⟨hf.numBytes, hf.numSectors, hf.dataSectors, hf.noMore, Nat.two_pow_pos 32⟩

/-- Memory that starts with two zero words, as a header. -/
theorem Zeroed.headerOk {memory : Sector} (h : Zeroed memory) :
    HeaderOk (RawFileHeader.ofSector memory) := by
  refine ⟨?_, ?_, fun j hj => ?_⟩
  · rw [h.1]
    exact Nat.zero_le _
  · rw [h.1, h.2]
    rfl
  · rw [h.2] at hj
    exact absurd hj (Nat.not_lt_zero j)

/-- What `Allocate` makes of such a header. -/
theorem Zeroed.grows {memory : Sector} (h : Zeroed memory) (freeMap : Bitmap) {n : ℕ}
    (hn : n ≤ headerBytes) (hfree : divRoundUp n sectorSize ≤ freeMap.countClear) :
    ∃ h' freeMap', (RawFileHeader.ofSector memory).allocate freeMap n = some (true, h', freeMap') ∧
      h'.Fits ∧ h'.numBytes = n ∧ h'.numSectors = divRoundUp n sectorSize ∧ h'.Distinct ∧
      (∀ x ∈ h'.sectors, x < numSectors ∧ freeMap x = false) ∧
      (∀ x, freeMap' x = true ↔ freeMap x = true ∨ x ∈ h'.sectors) ∧
      freeMap'.countClear + divRoundUp n sectorSize = freeMap.countClear := by
  have hsum : (RawFileHeader.ofSector memory).numBytes + n = n := by rw [h.1, Nat.zero_add]
  have hneeded : (RawFileHeader.ofSector memory).needed n ≤ freeMap.countClear := by
    rwa [RawFileHeader.needed, hsum, h.2]
  obtain ⟨h', freeMap', hal, hg⟩ :=
    RawFileHeader.allocate_grows h.headerOk (hsum.trans_le hn) hneeded
  have hsectors : h'.numSectors = divRoundUp n sectorSize := by rw [hg.numSectors_eq, hsum]
  have hzero : ∀ j, (RawFileHeader.ofSector memory).numSectors ≤ j := fun j => h.2 ▸ Nat.zero_le j
  refine ⟨h', freeMap', hal, hg.fits h.headerOk (RawFileHeader.fits_ofSector memory)
    (hsum.trans_le hn), hg.numBytes_eq.trans hsum, hsectors,
    fun i j hi hj => hg.distinct i j (hzero i) hi (hzero j) hj, fun x hx => ?_, fun x => ?_, ?_⟩
  · obtain ⟨j, hj, rfl⟩ := RawFileHeader.mem_sectors.mp hx
    exact hg.clear j (hzero j) hj
  · rw [hg.marks, RawFileHeader.mem_sectors]
    refine or_congr_right (exists_congr fun j => ?_)
    constructor
    · rintro ⟨-, hj, hx⟩
      exact ⟨hj, hx.symm⟩
    · rintro ⟨hj, hx⟩
      exact ⟨hzero j, hj, hx.symm⟩
  · have hcount := hg.count
    rw [hsectors, h.2, Nat.sub_zero] at hcount
    exact hcount

/-- The headers of the two files are on the disk, and `freeMap` marks all that is theirs. -/
structure Reserved (disk : ℕ → Sector) (freeMap : Bitmap) : Prop where
  mapHeader : (headerOn disk freeMapSector).Sized freeMapFileSize
  rootHeader : (headerOn disk directorySector).Sized directoryFileSize
  lt : ∀ x ∈ systemSectors disk, x < numSectors
  nodup : (systemSectors disk).Nodup
  marks : ∀ x, freeMap x = true ↔ x ∈ systemSectors disk

/-- The first two marks. -/
theorem mark_headers (x : ℕ) :
    (Bitmap.mark (Bitmap.mark (fun _ => false) freeMapSector) directorySector) x = true ↔
      x = freeMapSector ∨ x = directorySector := by
  rw [Bitmap.mark, Bitmap.mark]
  simp only [Function.update_apply]
  split
  · exact iff_of_true rfl (.inr ‹_›)
  · split
    · exact iff_of_true rfl (.inl ‹_›)
    · exact iff_of_false Bool.false_ne_true (by rintro (h | h) <;> contradiction)

/-- **Both files get their sectors**, one after the other. -/
theorem Zeroed.reserves (hmap : Zeroed mapMemory) (hdir : Zeroed dirMemory)
    (disk : ℕ → Sector) :
    ∃ mapH freeMap₁ dirH freeMap₂,
      (RawFileHeader.ofSector mapMemory).allocate (Bitmap.mark (Bitmap.mark (fun _ => false)
        freeMapSector) directorySector) freeMapFileSize = some (true, mapH, freeMap₁) ∧
      (RawFileHeader.ofSector dirMemory).allocate freeMap₁ directoryFileSize =
        some (true, dirH, freeMap₂) ∧
      Reserved (headersStored disk { mapH with nextFileHeader := 0 }
        { dirH with nextFileHeader := 0 }) freeMap₂ := by
  have hstart := countClear_start
  have hns : numSectors = 1024 := rfl
  have hone : divRoundUp freeMapFileSize sectorSize = 1 := rfl
  have hthree : divRoundUp directoryFileSize sectorSize = 3 := rfl
  have hreserved := mark_headers
  generalize Bitmap.mark (Bitmap.mark (fun _ => false) freeMapSector) directorySector =
    freeMap₀ at hstart hreserved ⊢
  obtain ⟨mapH, freeMap₁, halloc, hfits, hbytes, hsectors, hdistinct, hclear, hmarks, hcount⟩ :=
    hmap.grows freeMap₀ (show freeMapFileSize ≤ headerBytes by decide) (by omega)
  obtain ⟨dirH, freeMap₂, halloc', hfits', hbytes', hsectors', hdistinct', hclear', hmarks', -⟩ :=
    hdir.grows freeMap₁ (show directoryFileSize ≤ headerBytes by decide) (by omega)
  refine ⟨mapH, freeMap₁, dirH, freeMap₂, halloc, halloc', ?_⟩
  generalize hd : headersStored disk { mapH with nextFileHeader := 0 }
    { dirH with nextFileHeader := 0 } = stored
  have hhead0 : headerOn stored freeMapSector = { mapH with nextFileHeader := 0 } :=
    headerOn_stored hfits (by rw [← hd]; rfl)
  have hhead1 : headerOn stored directorySector = { dirH with nextFileHeader := 0 } :=
    headerOn_stored hfits' (by rw [← hd]; rfl)
  have hsec0 : (headerOn stored freeMapSector).sectors = mapH.sectors := by
    rw [hhead0]
    rfl
  have hsec1 : (headerOn stored directorySector).sectors = dirH.sectors := by
    rw [hhead1]
    rfl
  -- new sectors are none of the two headers
  have hnot : ∀ x, freeMap₀ x = false → x ≠ freeMapSector ∧ x ≠ directorySector := by
    intro x hx
    rw [← not_or, ← hreserved, hx]
    exact Bool.false_ne_true
  have hlater : ∀ x, freeMap₁ x = false → freeMap₀ x = false ∧ x ∉ mapH.sectors := by
    intro x hx
    rw [← Bool.not_eq_true, ← not_or, ← hmarks, hx]
    exact Bool.false_ne_true
  have hmapNot : ∀ x ∈ mapH.sectors, x ≠ freeMapSector ∧ x ≠ directorySector :=
    fun x hx => hnot x (hclear x hx).2
  have hdirNot : ∀ x ∈ dirH.sectors, x ≠ freeMapSector ∧ x ≠ directorySector :=
    fun x hx => hnot x (hlater x (hclear' x hx).2).1
  refine ⟨?_, ?_, fun x hx => ?_, ?_, fun x => ?_⟩
  · rw [hhead0]
    exact ⟨hbytes, hsectors, rfl⟩
  · rw [hhead1]
    exact ⟨hbytes', hsectors', rfl⟩
  · rcases mem_systemSectors.mp hx with rfl | rfl | hx | hx
    · decide
    · decide
    · exact (hclear x (hsec0 ▸ hx)).1
    · exact (hclear' x (hsec1 ▸ hx)).1
  · rw [nodup_systemSectors, hsec0, hsec1]
    refine ⟨⟨fun h => (hmapNot _ h).1 rfl, fun h => (hdirNot _ h).1 rfl⟩,
      ⟨fun h => (hmapNot _ h).2 rfl, fun h => (hdirNot _ h).2 rfl⟩, ?_, ?_, fun x hx hx' => ?_⟩
    · rw [hhead0]
      exact hdistinct
    · rw [hhead1]
      exact hdistinct'
    · exact (hlater x (hclear' x hx').2).2 hx
  · rw [hmarks', hmarks, hreserved, mem_systemSectors, hsec0, hsec1]
    tauto

/-- **The files are filled**, which makes the volume an empty one. -/
theorem Reserved.filled {freeMap : Bitmap} (hr : Reserved disk freeMap) :
    (System.opened disk heap fields).Ends (fillFiles freeMap) fun _ s =>
      ∃ disk', s = System.opened disk' heap fields ∧ EmptyVolume disk' ∧ Formatted disk' := by
  refine (fillFiles_ends hr.mapHeader hr.rootHeader hr.lt hr.nodup freeMap).mono ?_
  rintro _ _ ⟨disk', rfl, hbits, htable, hout⟩
  obtain ⟨⟨h0map, h0root⟩, ⟨h1map, h1root⟩, -⟩ := nodup_systemSectors.mp hr.nodup
  have hsame0 : headerOn disk' freeMapSector = headerOn disk freeMapSector := by
    rw [headerOn, headerOn, hout _ h0map h0root]
  have hsame1 : headerOn disk' directorySector = headerOn disk directorySector := by
    rw [headerOn, headerOn, hout _ h1map h1root]
  have hsystem := systemSectors_congr hsame0 hsame1
  have hon : TableOn disk' [directorySector] (Directory.new heap numDirEntries) := by
    rw [← hsame1] at htable
    exact .of_new (hsame1 ▸ hr.rootHeader.numBytes) htable
  have hentries : ∀ j, j < numDirEntries →
      (DirectoryEntry.ofBytes (fileByte disk' [directorySector])
        (DirectoryEntry.size * j)).inUse = false ∧
      (DirectoryEntry.ofBytes (fileByte disk' [directorySector])
        (DirectoryEntry.size * j)).isDirectory = false := by
    intro j hj
    rw [hon.entry j (by rwa [Directory.length_new])]
    exact Directory.slot_onHeap _ _ j
  have he : EmptyVolume disk' := by
    refine ⟨hsame0 ▸ hr.mapHeader, hsame1 ▸ hr.rootHeader, hsystem ▸ hr.lt, hsystem ▸ hr.nodup,
      fun x hx => ?_, fun j hj => (hentries j hj).1⟩
    have hsector : mapSector disk' = mapSector disk := by rw [mapSector, mapSector, hsame0]
    rw [mapAt, hsector, hbits x hx, hsystem]
    exact hr.marks x
  exact ⟨disk', opened_withDisk hsame0 hsame1, he, he.formatted fun j hj => (hentries j hj).2⟩

/-- **Zeroed headers give an empty volume**, with both files just opened. -/
theorem format_ends (hmap : Zeroed mapMemory) (hdir : Zeroed dirMemory) :
    (System.unset disk heap fields).Ends (FileSystem.format mapMemory dirMemory) fun _ s =>
      ∃ disk', s = System.opened disk' heap fields ∧ EmptyVolume disk' ∧ Formatted disk' := by
  obtain ⟨mapH, freeMap₁, dirH, freeMap₂, halloc, halloc', hr⟩ := hmap.reserves hdir disk
  unfold FileSystem.format
  dsimp only
  rw [halloc]
  dsimp only
  rw [halloc']
  exact ends_storeVolume.mpr hr.filled

end Sufficient

/-! ## The file system is opened again -/

section Reopened
variable {disk : ℕ → Sector} {heap : ℕ → UInt8} {fields : FileSystemMemory}

/-- The size of the root is found out, and only its object changes. -/
theorem Formatted.tableSize (hf : Formatted disk) :
    (System.opened disk heap fields).Ends (Directory.tableSize 1) fun n s' =>
      n = numDirEntries ∧ Rereads (System.opened disk heap fields) 1 s' := by
  have hreads : ReadsAt disk [directorySector] { (System.opened disk heap fields).openFile 1 with
      hdr := headerOn disk ((System.opened disk heap fields).openFile 1).sector
      seekPosition := 0 } 0 :=
    ⟨0, hf.root.pos, rfl, rfl, Nat.zero_le _, fun _ => .inl rfl⟩
  have hread : ((System.opened disk heap fields).writing 1 disk _).Ends
      (OpenFile.read 1 (fun _ => 0) (maxDirEntries * DirectoryEntry.size % 2 ^ 32) false) _ :=
    read_ends hf.root hreads (by decide) (by decide) (.inr (by decide))
  have hlt : ((System.opened disk heap fields).openFile 1).sector < numSectors := by
    rw [opened_root]
    show directorySector < numSectors
    decide
  unfold Directory.tableSize Directory.fetchFrom
  simp only [Prog.ends_bind, ends_assert, Prog.ends_pure]
  refine ⟨by decide, ((read_directory hlt hread).and_yields read_yields).mono ?_⟩
  rintro ⟨n, bytes⟩ s' ⟨⟨hn, -⟩, -, hre⟩
  rw [hf.length] at hn
  refine ⟨?_, hre⟩
  dsimp only at hn ⊢
  rw [hn]
  rfl

/-- **`FileSystem(false)`** on a formatted disk. -/
theorem Formatted.boot_ends (hf : Formatted disk) (fields : FileSystemMemory) :
    (System.unset disk heap fields).Ends FileSystem.boot fun _ s => ∃ o : OpenFile,
      o.sector = directorySector ∧ o.currentSector = directorySector ∧
      s = System.putOpenFile { System.opened disk heap fields with directorySize := numDirEntries }
        1 o := by
  refine ends_boot.mpr (hf.tableSize.mono ?_)
  rintro _ _ ⟨rfl, o, rfl, hsector, hcurrent⟩
  exact ⟨o, hsector, hcurrent, rfl⟩

/-- **The states differ in the root directory's object only.** -/
theorem Formatted.reopens (hf : Formatted disk) (hsize : fields.directorySize = numDirEntries) :
    Reopens (System.opened disk heap fields) := by
  intro fields'
  obtain ⟨_, s', hrun, o, hsector, hcurrent, hs'⟩ := hf.boot_ends fields'
  refine ⟨s', hrun, fun requests => ?_⟩
  have hput : s' = (System.opened disk heap fields).putOpenFile 1 o := by
    rw [hs', ← hsize]
    rfl
  have haside : Aside 1 (System.opened disk heap fields) s' :=
    ⟨Nat.zero_ne_one, Nat.lt_succ_self 1, o, hsector, hcurrent, hput⟩
  exact (blind_serve (fun f hf => by cases hf) requests _ _ haside).eq

end Reopened

section Formats
variable {disk : ℕ → Sector} {heap : ℕ → UInt8} {fields : FileSystemMemory}
  {mapMemory dirMemory : Sector}

/-- What `FileSystem(true)` cannot do without. -/
theorem Formats.needs (h : Formats disk heap mapMemory dirMemory fields) :
    Zeroed mapMemory ∧ Zeroed dirMemory ∧ fields.directorySize = numDirEntries := by
  obtain ⟨s, hrun, he, hsize, -⟩ := h
  obtain ⟨hkept, hzeroed⟩ := format_yields _ _ hrun
  exact ⟨(hzeroed he).1, (hzeroed he).2, hkept.symm.trans hsize⟩

end Formats

/-- **`FileSystem(true)` makes an empty volume** exactly from zeroed headers, with a `directorySize`
that happens to be right. -/
theorem format_iff (disk : ℕ → Sector) (heap : ℕ → UInt8) (mapMemory dirMemory : Sector)
    (fields : FileSystemMemory) :
    Formats disk heap mapMemory dirMemory fields ↔
      Zeroed mapMemory ∧ Zeroed dirMemory ∧ fields.directorySize = numDirEntries := by
  refine ⟨Formats.needs, ?_⟩
  rintro ⟨hmap, hdir, hsize⟩
  obtain ⟨_, s, hrun, disk', rfl, he, hf⟩ := format_ends hmap hdir
  exact ⟨_, hrun, he, hsize, hf.reopens hsize⟩

/-- A `FileSystem` object in zeroed memory has no entries, and a header in memory that holds
anything else keeps it. -/
theorem format_in_memory :
    ¬ Formats (fun _ _ => 0) (fun _ => 0) (fun _ => 0) (fun _ => 0) ⟨0, 0, 0⟩ ∧
    ¬ Formats (fun _ _ => 0) (fun _ => 0) (fun _ => 1) (fun _ => 0) ⟨0, 0, 10⟩ := by
  refine ⟨fun h => ?_, fun h => ?_⟩
  · have hsize : 0 = numDirEntries := h.needs.2.2
    exact absurd hsize (by decide)
  · have hbytes : word (fun _ => 1) 0 = 0 := h.needs.1.1
    exact absurd hbytes (by decide)

end PaldOs
