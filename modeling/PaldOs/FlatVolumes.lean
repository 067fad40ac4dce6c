import PaldOs.Checker

/-! # What a passed check says

`Check` adds up errors that it finds one after the other, in headers and entries of any content, and
marks the sectors it comes across in the shadow map.  If there is no error at the end, every sector
was marked once, so the sectors of the files are different and on the disk; and the free map agrees
with the shadow map.

This is for a disk whose files have a single header each, with the root as the current directory and
ten entries in it (`FlatImage`).  Nothing else is known of the disk, and the check need not get to
its end: a sector number that is too big stops it where the sector is read.
-/
namespace PaldOs

open Sys

/-! ## The disk -/

/-- All sectors of the file at `h`, with a header or with data. -/
def sectorsOf (disk : ℕ → Sector) (h : ℕ) : List ℕ :=
  (chainOn disk h).flatMap (FileSystem.footprint disk)

/-- The files: the free map, the root, and those in its entries. -/
def filesOn (disk : ℕ → Sector) : List ℕ :=
  freeMapSector :: directorySector :: FileSystem.heads (tableAt disk directorySector)

/-- **A flat disk**: every header that is looked at is the last of its file, and the root has ten
entries. -/
structure FlatImage (disk : ℕ → Sector) : Prop where
  single : ∀ h ∈ filesOn disk, (headerOn disk h).nextFileHeader = 0
  entries : (tableAt disk directorySector).length = numDirEntries

/-- **A consistent disk.** -/
structure ConsistentImage (disk : ℕ → Sector) : Prop where
  /-- All sectors of files are on the disk. -/
  lt : ∀ x ∈ (filesOn disk).flatMap (sectorsOf disk), x < numSectors
  /-- None is used twice. -/
  nodup : ((filesOn disk).flatMap (sectorsOf disk)).Nodup
  /-- The free map marks these and no others. -/
  marks : ∀ x, x < numSectors →
    (mapAt disk x = true ↔ x ∈ (filesOn disk).flatMap (sectorsOf disk))
  /-- No two files have the same name. -/
  names : (((tableAt disk directorySector).filter DirectoryEntry.inUse).map
    DirectoryEntry.string).Nodup
  /-- Every header has sectors for its bytes. -/
  enough : ∀ h ∈ filesOn disk, ∀ x ∈ chainOn disk h,
    divRoundUp (headerOn disk x).numBytes sectorSize ≤ (headerOn disk x).numSectors

/-- **The file system is open on the disk**, and the root is the current directory. -/
structure AtRoot (disk : ℕ → Sector) (s : System) : Prop where
  onDisk : s.disk = disk
  freeMap : (s.openFile s.freeMapFile).hdr = headerOn disk freeMapSector
  directory : (s.openFile s.directoryFile).sector = directorySector
  size : s.directorySize = numDirEntries

section Image
variable {disk : ℕ → Sector} {h : ℕ}

theorem chainOn_of_last (hlast : (headerOn disk h).nextFileHeader = 0) : chainOn disk h = [h] := by
  have hpos : numSectors = 1023 + 1 := rfl
  rw [chainOn, hpos, chainFrom, if_pos hlast]

theorem FlatImage.chainOn_eq (hflat : FlatImage disk) (hh : h ∈ filesOn disk) :
    chainOn disk h = [h] := chainOn_of_last (hflat.single h hh)

theorem FlatImage.sectorsOf_eq (hflat : FlatImage disk) (hh : h ∈ filesOn disk) :
    sectorsOf disk h = FileSystem.footprint disk h := by
  rw [sectorsOf, hflat.chainOn_eq hh, List.flatMap_singleton]

theorem FlatImage.root_chain (hflat : FlatImage disk) : chainOn disk directorySector =
    [directorySector] :=
  hflat.chainOn_eq (List.mem_cons_of_mem _ List.mem_cons_self)

theorem fileLength_single : fileLength disk [h] = (headerOn disk h).numBytes := by
  rw [fileLength]
  show headerBytes * 0 + (headerOf disk [h] 0).numBytes = _
  rw [Nat.mul_zero, Nat.zero_add]
  rfl

theorem fileByte_single {p : ℕ} (hp : p < headerBytes) :
    fileByte disk [h] p = (headerOn disk h).byte disk p := by
  have hindex : p / sectorSize < numDirect := (Nat.div_lt_iff_lt_mul (by decide)).mpr hp
  rw [fileByte, dataSector, Nat.div_eq_of_lt hindex, Nat.mod_eq_of_lt hindex]
  rfl

/-- The root has the bytes of ten entries, and fewer than of eleven. -/
theorem FlatImage.root_bytes (hflat : FlatImage disk) :
    (headerOn disk directorySector).numBytes / DirectoryEntry.size = numDirEntries := by
  have h := hflat.entries
  rw [tableAt, Directory.length_ofBytes, hflat.root_chain, fileLength_single] at h
  exact h

end Image

/-! ## The parts of the check -/

section Parts
variable {disk : ℕ → Sector} {s : System} {f : ℕ}

/-- **The loop of `CheckDirectory`, without an error at the end**: the names were different, and the
sectors of all entries were checked. -/
theorem FileSystem.checkEntries_yields (es : List DirectoryEntry) (known : List (List UInt8))
    (error : Bool) (shadowMap : Bitmap) (hknown : known.Nodup) :
    s.Yields (checkEntries es known error shadowMap) (fun r s' => s' = s ∧ (r.1 = false →
      error = false ∧ (∀ h ∈ heads es, SmallHeader (headerOn s.disk h)) ∧
      (known ++ (es.filter DirectoryEntry.inUse).map DirectoryEntry.string).Nodup ∧
      (checkSectors ((heads es).flatMap (footprint s.disk)) shadowMap).1 = false ∧
      r.2 = (checkSectors ((heads es).flatMap (footprint s.disk)) shadowMap).2)) := by
  induction es generalizing known error shadowMap with
  | nil =>
    refine Prog.yields_pure.mpr ⟨rfl, fun herror => ⟨herror, ?_, ?_, rfl, rfl⟩⟩
    · simp [heads]
    · simpa using hknown
  | cons e es ih =>
    rw [checkEntries]
    by_cases hu : e.inUse = true
    · have hheads : heads (e :: es) = e.sector :: heads es := by
        rw [heads, List.filter_cons_of_pos hu, List.map_cons, heads]
      rw [if_pos hu, List.filter_cons_of_pos hu, List.map_cons, hheads, List.flatMap_cons,
        footprint, List.cons_append, checkSectors_cons, checkSectors_append]
      dsimp only
      refine Prog.yields_bind.mpr (yields_readSector.mpr fun _ => ?_)
      by_cases hrepeated : e.string ∈ known
      -- a name that is there already is an error
      · rw [if_pos (List.contains_iff_mem.mpr hrepeated)]
        refine (ih known _ _ hknown).mono ?_
        rintro r s' ⟨hs, hr⟩
        refine ⟨hs, fun herror => ?_⟩
        have := (hr herror).1
        rw [List.contains_iff_mem.mpr hrepeated] at this
        simp at this
      · have hnew : known.contains e.string = false := by
          rw [Bool.eq_false_iff, ne_eq, List.contains_iff_mem]
          exact hrepeated
        have hknown' : (known ++ [e.string]).Nodup := by
          rw [List.nodup_append_comm, List.singleton_append]
          exact List.nodup_cons.mpr ⟨hrepeated, hknown⟩
        rw [hnew, if_neg Bool.false_ne_true]
        refine (ih _ _ _ hknown').mono ?_
        rintro r s' ⟨hs, hr⟩
        refine ⟨hs, fun herror => ?_⟩
        obtain ⟨hflags, hsmall, hnames, hrest, hmap⟩ := hr herror
        rw [List.append_assoc, List.singleton_append] at hnames
        simp only [Bool.or_eq_false_iff, checkFileHeader_error] at hflags
        obtain ⟨⟨⟨⟨hbefore, -⟩, -⟩, hsector⟩, hheader, hdata⟩ := hflags
        refine ⟨hbefore, List.forall_mem_cons.mpr ⟨hheader, hsmall⟩, hnames, ?_, hmap⟩
        exact Bool.or_eq_false_iff.mpr ⟨hsector, Bool.or_eq_false_iff.mpr ⟨hdata, hrest⟩⟩
    · have hheads : heads (e :: es) = heads es := by rw [heads, List.filter_cons_of_neg hu, heads]
      rw [if_neg hu, List.filter_cons_of_neg hu, hheads]
      exact ih known error shadowMap hknown

/-- The header of the root, when it was accepted. -/
theorem FlatImage.root_covered (hflat : FlatImage disk)
    (hsmall : FileSystem.SmallHeader (headerOn disk directorySector))
    (hlt : ∀ j, j < (headerOn disk directorySector).numSectors →
      (headerOn disk directorySector).dataSectors j < numSectors) :
    (headerOn disk directorySector).Covered := by
  have hbytes := hflat.root_bytes
  have hes : DirectoryEntry.size = 32 := rfl
  have hten : numDirEntries = 10 := rfl
  have hss : sectorSize = 128 := rfl
  rw [hes] at hbytes
  refine ⟨by omega, fun j hj => hlt j (lt_of_lt_of_le ?_ hsmall.1)⟩
  exact (lt_divRoundUp_iff (by decide)).mpr hj

/-- A read that stays within the first header. -/
theorem read_within (hc : (s.openFile f).hdr.Covered) (hstart : (s.openFile f).seekPosition = 0)
    {into : ℕ → UInt8} {n : ℕ} (hn : 0 < n) (hle : n ≤ (s.openFile f).hdr.numBytes) :
    s.Ends (OpenFile.read f into n false) (fun r s' => s'.disk = s.disk ∧
      ∀ i, i < n → r.2 i = (s.openFile f).hdr.byte s.disk i) := by
  have hshort := hc.short
  have hsum : (0 + n) % 2 ^ 32 = n := by
    rw [Nat.zero_add, Nat.mod_eq_of_lt (by omega)]
  unfold OpenFile.read OpenFile.rewindRead
  refine Prog.ends_bind.mpr (ends_assert.mpr ⟨hn, ?_⟩)
  rw [if_neg Bool.false_ne_true]
  refine Prog.ends_bind.mpr (Prog.ends_pure.mpr ?_)
  refine Prog.ends_bind.mpr (ends_getOpenFile.mpr ?_)
  rw [hstart, hsum]
  refine Prog.ends_bind.mpr ((readAt_slice hc hn (by omega)).mono ?_)
  rintro ⟨k, data⟩ s' ⟨hs, hk, hdata⟩
  obtain rfl := hs.symm
  refine Prog.ends_bind.mpr (ends_getOpenFile.mpr ?_)
  refine Prog.ends_bind.mpr (ends_setOpenFile.mpr ?_)
  rw [if_neg (Nat.not_lt.mpr hle)]
  refine Prog.ends_pure.mpr ⟨rfl, fun i hi => ?_⟩
  have hik : i < k := by
    have hk : k = min n ((s.openFile f).hdr.numBytes - 0) := hk
    omega
  have hbyte := hdata i hik
  rw [Nat.zero_add] at hbyte
  dsimp only
  rw [blit, if_pos (by omega), Nat.sub_zero]
  exact hbyte

/-- The table that is read is the one on the disk. -/
theorem AtRoot.currentTable (hat : AtRoot disk s) (hflat : FlatImage disk)
    (hcovered : (headerOn disk directorySector).Covered) :
    s.Ends FileSystem.currentTable
      (fun d s' => d = tableAt disk directorySector ∧ s'.disk = disk) := by
  have hbytes := hflat.root_bytes
  have hes : DirectoryEntry.size = 32 := rfl
  have hten : numDirEntries = 10 := rfl
  have hsize : numDirEntries * DirectoryEntry.size % 2 ^ 32 = 320 := rfl
  unfold FileSystem.currentTable Directory.fetchFrom
  refine Prog.ends_bind.mpr (ends_getDirectorySize.mpr ?_)
  refine Prog.ends_bind.mpr (ends_getDirectoryFile.mpr ?_)
  rw [hat.size, hsize]
  refine Prog.ends_bind.mpr (Prog.ends_bind.mpr (ends_assert.mpr ⟨by decide, ?_⟩))
  refine Prog.ends_bind.mpr ?_
  refine read_directory (by rw [hat.directory]; decide) ?_
  rw [hat.directory, hat.onDisk]
  refine (read_within (by rw [System.writing_self]; exact hcovered) (by rw [System.writing_self])
    (by decide) ?_).mono ?_
  · rw [hes] at hbytes
    rw [System.writing_self]
    show _ ≤ (headerOn disk directorySector).numBytes
    omega
  rintro ⟨n, bytes⟩ s' ⟨hdisk, hdata⟩
  refine Prog.ends_pure.mpr (Prog.ends_pure.mpr ⟨?_, hdisk⟩)
  rw [System.writing_self] at hdata
  rw [tableAt, hflat.root_chain, fileLength_single, hbytes]
  refine List.map_congr_left fun j hj => DirectoryEntry.ofBytes_congr fun o ho => ?_
  have hj' := List.mem_range.mp hj
  have hhb : headerBytes = 3712 := rfl
  rw [hes] at ho ⊢
  rw [fileByte_single (by omega)]
  exact hdata _ (by omega)

end Parts

/-! ## The file system is opened -/

section Opened
variable {disk : ℕ → Sector} {s : System} {f : ℕ}

theorem yields_setFreeMapFile {Q : Unit → System → Prop} :
    s.Yields (setFreeMapFile f) Q ↔ Q () { s with freeMapFile := f } :=
  (Prog.yields_of_ends fun _ => by rw [true_and]; exact ends_setFreeMapFile).trans true_imp_iff

theorem yields_setDirectoryFile {Q : Unit → System → Prop} :
    s.Yields (setDirectoryFile f) Q ↔ Q () { s with directoryFile := f } :=
  (Prog.yields_of_ends fun _ => by rw [true_and]; exact ends_setDirectoryFile).trans true_imp_iff

theorem yields_setDirectorySize {n : ℕ} {Q : Unit → System → Prop} :
    s.Yields (setDirectorySize n) Q ↔ Q () { s with directorySize := n } :=
  (Prog.yields_of_ends fun _ => by rw [true_and]; exact ends_setDirectorySize).trans true_imp_iff

/-- How many bytes `ReadAt` reads. -/
theorem readAt_length {n position : ℕ} (hsum : position + n < 2 ^ 32) :
    s.Yields (OpenFile.readAt f n position) (fun r _ =>
      r.1 = min n ((s.openFile f).hdr.numBytes - position)) := by
  unfold OpenFile.readAt
  refine Prog.yields_bind.mpr (yields_assert.mpr fun _ => ?_)
  refine Prog.yields_bind.mpr (yields_getOpenFile.mpr ?_)
  dsimp only
  split
  · refine Prog.yields_pure.mpr ?_
    dsimp only
    omega
  · refine Prog.yields_bind.mpr (Prog.yields_of_forall fun _ _ => ?_)
    refine Prog.yields_bind.mpr (Prog.yields_of_forall fun _ _ => ?_)
    refine Prog.yields_pure.mpr ?_
    dsimp only
    rw [Nat.mod_eq_of_lt hsum]
    split <;> omega

/-- How many bytes `Read` reads of a directory with one header. -/
theorem read_length (hlast : (headerOn s.disk (s.openFile f).sector).nextFileHeader = 0)
    {into : ℕ → UInt8} {n : ℕ} (hn : n < 2 ^ 32) :
    s.Yields (OpenFile.read f into n true) (fun r _ =>
      r.1 = min n (headerOn s.disk (s.openFile f).sector).numBytes) := by
  unfold OpenFile.read OpenFile.rewindRead OpenFile.fetchHeader
  refine Prog.yields_bind.mpr (yields_assert.mpr fun _ => ?_)
  rw [if_pos rfl]
  refine Prog.yields_bind.mpr (Prog.yields_bind.mpr (yields_getOpenFile.mpr ?_))
  refine Prog.yields_bind.mpr (Prog.yields_bind.mpr (yields_readSector.mpr fun _ => ?_))
  refine Prog.yields_bind.mpr (yields_getOpenFile.mpr (yields_setOpenFile.mpr ?_))
  refine Prog.yields_bind.mpr (yields_getOpenFile.mpr (yields_setOpenFile.mpr ?_))
  rw [System.putOpenFile_putOpenFile, System.putOpenFile_self]
  refine Prog.yields_bind.mpr (yields_getOpenFile.mpr ?_)
  rw [System.putOpenFile_self]
  dsimp only
  refine Prog.yields_bind.mpr ?_
  intro r s' hrun
  have hcount := readAt_length (by omega) r s' hrun
  obtain rfl := readAt_yields r s' hrun
  rw [System.putOpenFile_self, Nat.sub_zero] at hcount
  refine Prog.yields_bind.mpr (yields_getOpenFile.mpr ?_)
  refine Prog.yields_bind.mpr (yields_setOpenFile.mpr ?_)
  rw [System.putOpenFile_putOpenFile, System.putOpenFile_self]
  split
  · refine Prog.yields_bind.mpr (yields_getOpenFile.mpr ?_)
    have hnone : ¬ ((headerOn s.disk (s.openFile f).sector).nextFileHeader ≠ 0 ∧ 0 < n - r.1) :=
      fun h => h.1 hlast
    have hfuel : numSectors + 1 = 1024 + 1 := rfl
    rw [System.putOpenFile_self, hfuel, OpenFile.readNext]
    split
    · rename_i hnext
      exact absurd hnext hnone
    · exact Prog.yields_pure.mpr hcount
  · exact Prog.yields_pure.mpr hcount

theorem FlatImage.root_single (hflat : FlatImage disk) :
    (headerOn disk directorySector).nextFileHeader = 0 :=
  hflat.single _ (List.mem_cons_of_mem _ List.mem_cons_self)

/-- **`FileSystem(false)`** opens any flat disk at its root. -/
theorem boot_atRoot (hflat : FlatImage disk) :
    (System.start disk).Yields FileSystem.boot (fun _ s => AtRoot disk s) := by
  have hes : DirectoryEntry.size = 32 := rfl
  have hten : numDirEntries = 10 := rfl
  have hmax : maxDirEntries * DirectoryEntry.size % 2 ^ 32 = 126720 := rfl
  have hbytes := hflat.root_bytes
  unfold FileSystem.boot Directory.tableSize Directory.fetchFrom
  refine Prog.yields_bind.mpr ((make_ends (by decide)).yields.mono fun g s₁ h₁ => ?_)
  refine Prog.yields_bind.mpr (yields_setFreeMapFile.mpr ?_)
  refine Prog.yields_bind.mpr ((make_ends (by decide)).yields.mono fun f s₂ h₂ => ?_)
  refine Prog.yields_bind.mpr (yields_setDirectoryFile.mpr ?_)
  refine Prog.yields_bind.mpr (Prog.yields_bind.mpr (Prog.yields_bind.mpr (yields_assert.mpr
    fun _ => Prog.yields_bind.mpr ?_)))
  rw [hmax]
  have hdisk : s₂.disk = disk := h₂.disk.trans h₁.disk
  have hself : s₂.openFile f =
      ⟨directorySector, directorySector, 0, headerOn s₁.disk directorySector⟩ := by
    rw [h₂.openFile, Function.update_self]
  have hsector : (s₂.openFile f).sector = directorySector := by rw [hself]
  have hne : g ≠ f := by
    rw [h₂.handle, h₁.handle]
    show _ ≠ s₁.nextOpenFile
    rw [h₁.next]
    exact (Nat.succ_ne_self _).symm
  have hmap : (s₂.openFile g).hdr = headerOn disk freeMapSector := by
    rw [h₂.openFile, Function.update_of_ne hne]
    show (s₁.openFile g).hdr = _
    rw [h₁.openFile, Function.update_self]
    rfl
  have hroot : (headerOn s₂.disk (s₂.openFile f).sector).nextFileHeader = 0 := by
    rw [hsector, hdisk]
    exact hflat.root_single
  intro r s₃ hrun
  have hcount := read_length (by exact hroot) (by decide) r s₃ hrun
  obtain ⟨-, o, rfl, ho, -⟩ := read_yields r s₃ hrun
  refine Prog.yields_pure.mpr (Prog.yields_pure.mpr (yields_setDirectorySize.mpr ?_))
  have hcount : r.1 = min 126720 (headerOn s₂.disk (s₂.openFile f).sector).numBytes := hcount
  have ho : o.sector = (s₂.openFile f).sector := ho
  refine ⟨hdisk, ?_, ?_, ?_⟩
  · show (Function.update s₂.openFile f o s₂.freeMapFile).hdr = _
    rw [h₂.freeMapFile]
    show (Function.update s₂.openFile f o g).hdr = _
    rw [Function.update_of_ne hne, hmap]
  · show (Function.update s₂.openFile f o f).sector = _
    rw [Function.update_self, ho, hsector]
  · show r.1 / DirectoryEntry.size = numDirEntries
    rw [hsector, hdisk] at hcount
    rw [hes] at hbytes ⊢
    omega

end Opened

/-! ## The verdict -/

section Verdict
variable {disk : ℕ → Sector} {s : System}

/-- The sectors that are checked one after the other: the data of the free map and of the root, and
the files of the entries. -/
def checkedSectors (disk : ℕ → Sector) : List ℕ :=
  (List.range (headerOn disk freeMapSector).numSectors).map
      (headerOn disk freeMapSector).dataSectors ++
    ((List.range (headerOn disk directorySector).numSectors).map
      (headerOn disk directorySector).dataSectors ++
    (FileSystem.heads (tableAt disk directorySector)).flatMap (FileSystem.footprint disk))

/-- With the two sectors that are marked first, these are all sectors of files. -/
theorem FlatImage.perm (hflat : FlatImage disk) :
    ((filesOn disk).flatMap (sectorsOf disk)).Perm
      (freeMapSector :: directorySector :: checkedSectors disk) := by
  have hflatten : (filesOn disk).flatMap (sectorsOf disk) =
      (filesOn disk).flatMap (FileSystem.footprint disk) :=
    List.flatMap_congr fun h hh => hflat.sectorsOf_eq hh
  rw [hflatten, filesOn, List.flatMap_cons, List.flatMap_cons, checkedSectors,
    FileSystem.footprint, FileSystem.footprint, List.cons_append, List.cons_append]
  exact List.Perm.cons _ List.perm_middle

/-- **All flags are down**: the disk is consistent. -/
theorem FlatImage.consistent (hflat : FlatImage disk)
    (hsmall : ∀ h ∈ filesOn disk, FileSystem.SmallHeader (headerOn disk h))
    (hnames : (((tableAt disk directorySector).filter DirectoryEntry.inUse).map
      DirectoryEntry.string).Nodup)
    (hmarks : (FileSystem.checkSectors (checkedSectors disk)
      (Bitmap.mark (Bitmap.mark (fun _ => false) freeMapSector) directorySector)).1 = false)
    (hmap : ∀ x, x < numSectors → mapAt disk x = (FileSystem.checkSectors (checkedSectors disk)
      (Bitmap.mark (Bitmap.mark (fun _ => false) freeMapSector) directorySector)).2 x) :
    ConsistentImage disk := by
  obtain ⟨hnodup, hall⟩ := FileSystem.checkSectors_error.mp hmarks
  have hfirst : ∀ x ∈ checkedSectors disk, x < numSectors ∧ x ≠ freeMapSector ∧
      x ≠ directorySector := by
    intro x hx
    obtain ⟨hlt, hmark⟩ := hall x hx
    rw [Bool.eq_false_iff, ne_eq, firstMarks_iff, not_or] at hmark
    exact ⟨hlt, hmark.1, hmark.2⟩
  refine ⟨fun x hx => ?_, ?_, fun x hx => ?_, hnames, fun h hh x hx => ?_⟩
  · rw [hflat.perm.mem_iff, List.mem_cons, List.mem_cons] at hx
    rcases hx with rfl | rfl | hx
    · decide
    · decide
    · exact (hfirst x hx).1
  · rw [hflat.perm.nodup_iff, List.nodup_cons, List.nodup_cons, List.mem_cons, not_or]
    exact ⟨⟨by decide, fun h => (hfirst _ h).2.1 rfl⟩, fun h => (hfirst _ h).2.2 rfl, hnodup⟩
  · rw [hmap x hx, FileSystem.checkSectors_map, firstMarks_iff, hflat.perm.mem_iff, List.mem_cons,
      List.mem_cons, and_iff_left hx, or_assoc]
  · rw [hflat.chainOn_eq hh, List.mem_singleton] at hx
    rw [hx]
    exact (hsmall h hh).1

/-- **A passed check means a consistent disk.** -/
theorem check_sound (hflat : FlatImage disk) (hat : AtRoot disk s) :
    s.Yields FileSystem.check (fun r _ => r = true → ConsistentImage disk) := by
  unfold FileSystem.check
  refine Prog.yields_bind.mpr (yields_readSector.mpr fun _ => ?_)
  refine Prog.yields_bind.mpr (yields_readSector.mpr fun _ => ?_)
  rw [hat.onDisk]
  dsimp only
  by_cases hflags : ((headerOn disk freeMapSector).numBytes != freeMapFileSize ||
      (headerOn disk freeMapSector).numSectors != freeMapFileSize / sectorSize) = false ∧
    (FileSystem.checkFileHeader (headerOn disk freeMapSector)
      (Bitmap.mark (Bitmap.mark (fun _ => false) freeMapSector) directorySector)).1 = false ∧
    (FileSystem.checkFileHeader (headerOn disk directorySector)
      (FileSystem.checkFileHeader (headerOn disk freeMapSector)
        (Bitmap.mark (Bitmap.mark (fun _ => false) freeMapSector) directorySector)).2).1 = false
  · obtain ⟨hsize, hmapHeader, hrootHeader⟩ := hflags
    rw [FileSystem.checkFileHeader_error] at hmapHeader hrootHeader
    rw [FileSystem.checkFileHeader_map] at hrootHeader
    obtain ⟨hsmallMap, hmapMarks⟩ := hmapHeader
    obtain ⟨hsmallRoot, hrootMarks⟩ := hrootHeader
    have hcovered := hflat.root_covered hsmallRoot fun j hj =>
      ((FileSystem.checkSectors_error.mp hrootMarks).2 _
        (List.mem_map_of_mem (List.mem_range.mpr hj))).1
    simp only [Bool.or_eq_false_iff, bne_eq_false_iff_eq] at hsize
    obtain ⟨hbytes, hone⟩ := hsize
    have hfree : FreeMapOk s (mapSector disk) := by
      refine ⟨?_, ?_, ?_, ?_⟩
      · rw [hat.freeMap, hbytes]
      · rw [hat.freeMap, hone]
        rfl
      · rw [hat.freeMap]
        rfl
      · refine ((FileSystem.checkSectors_error.mp hmapMarks).2 _
          (List.mem_map_of_mem (List.mem_range.mpr ?_))).1
        rw [hone]
        decide
    refine Prog.yields_bind.mpr ((fetchFreeMap_ends hfree).yields.mono ?_)
    rintro freeMap s' ⟨hs, hmap⟩
    obtain rfl := hs.symm
    refine Prog.yields_bind.mpr ((hat.currentTable hflat hcovered).yields.mono ?_)
    rintro d s' ⟨rfl, hdisk⟩
    unfold FileSystem.checkDirectory
    refine Prog.yields_bind.mpr (Prog.yields_bind.mpr (yields_assert.mpr fun _ => ?_))
    rw [List.take_of_length_le hflat.entries.le]
    refine (FileSystem.checkEntries_yields _ [] false _ List.nodup_nil).mono ?_
    rintro r _ ⟨-, hr⟩
    refine Prog.yields_pure.mpr fun hpassed => ?_
    rw [Bool.not_eq_true', Bool.or_eq_false_iff, Bool.or_eq_false_iff] at hpassed
    obtain ⟨⟨-, hdirectory⟩, hbitmaps⟩ := hpassed
    obtain ⟨-, hsmall, hnames, hentries, hshadow⟩ := hr hdirectory
    rw [hdisk] at hsmall hentries hshadow
    rw [hshadow, checkBitmaps_iff] at hbitmaps
    refine hflat.consistent ?_ hnames ?_ ?_
    · exact List.forall_mem_cons.mpr ⟨hsmallMap, List.forall_mem_cons.mpr ⟨hsmallRoot, hsmall⟩⟩
    · rw [checkedSectors, FileSystem.checkSectors_append, FileSystem.checkSectors_append,
        hmapMarks, hrootMarks]
      exact hentries
    · intro x hx
      rw [checkedSectors, FileSystem.checkSectors_append, FileSystem.checkSectors_append]
      refine Eq.trans ?_ (hbitmaps x hx)
      rw [hmap x hx, hat.onDisk]
      rfl
  · refine Prog.yields_bind.mpr (Prog.yields_of_forall fun _ _ => ?_)
    refine Prog.yields_bind.mpr (Prog.yields_of_forall fun _ _ => ?_)
    refine Prog.yields_bind.mpr (Prog.yields_of_forall fun _ _ => ?_)
    refine Prog.yields_pure.mpr fun hpassed => absurd ?_ hflags
    rw [Bool.not_eq_true', Bool.or_eq_false_iff, Bool.or_eq_false_iff, Bool.or_eq_false_iff,
      Bool.or_eq_false_iff] at hpassed
    obtain ⟨⟨⟨⟨hsize, hmapHeader⟩, hrootHeader⟩, -⟩, -⟩ := hpassed
    exact ⟨hsize, hmapHeader, hrootHeader⟩

end Verdict

/-! ## Files in the root -/

/-- **Up to ten empty files in the root** make a flat disk. -/
theorem Crowded.flat {k free : ℕ} {w : World} {V : Volume} {rest : List (ℕ × ℕ)}
    (h : Crowded k free w V rest) (hempty : Untouched k w V) (hk : k ≤ numDirEntries) :
    FlatImage w.sys.disk := by
  have hi := h.live.idle
  have hd := hi.ready.disk
  have hten : numDirEntries = 10 := rfl
  have hsize := h.size
  obtain ⟨chain, t, ha⟩ := hi.dir
  have htable : tableAt w.sys.disk directorySector = t := hd.tableAt_eq ha.file
  have hlong := hi.ready.tree.long _ _ _ ha.file
  have hle := ha.le
  have hlength : (tableAt w.sys.disk directorySector).length = numDirEntries := by
    rw [htable]
    omega
  refine ⟨fun x hx => ?_, hlength⟩
  rw [filesOn, List.mem_cons, List.mem_cons] at hx
  rcases hx with rfl | hx
  · exact hd.mapHeader.2.2.2
  have hfile : (V.files x).isSome = true := by
    rw [h.file_iff hempty]
    refine hx.imp_right fun hx => ?_
    rw [← List.take_of_length_le hlength.le,
      mem_heads hlength.ge fun q => hd.slot_eq hi.kind q] at hx
    obtain ⟨q, -, hu, hsector⟩ := hx
    exact ⟨q, (h.used q).mp hu, hsector⟩
  obtain ⟨i, hx⟩ := Option.isSome_iff_exists.mp hfile
  exact (h.small hempty (by omega) hx).2.2

/-- Two files are created; the check passes when the disk is opened again. -/
theorem check_sound_reopened : ∃ w₀ w s, World.boot blankDisk = some w₀ ∧
    Session World.Legal w₀ (crowd 2) w ∧
    FileSystem.boot.run System.act (System.start w.sys.disk) = some ((), s) ∧
    FlatImage w.sys.disk ∧ AtRoot w.sys.disk s ∧
    s.Ends FileSystem.check (fun r _ => r = true ∧ ConsistentImage w.sys.disk) := by
  obtain ⟨w₀, w, V, rest, hboot, hs, h, hempty⟩ := crowded (k := 2) (by decide)
  have hflat := h.flat hempty (by decide)
  obtain ⟨V', c', rest', hl, hno⟩ := blankDisk_formatted.keeping hboot
    (hs.mono fun _ _ _ hg => ⟨hg.2.1, hg.2.2.1⟩)
  obtain ⟨chain, t, hroot⟩ := hl.idle.ready.tree.rootTable
  obtain ⟨a, s, hrun, ⟨_, hl₀, hdisk, -⟩, hat⟩ := (hl.idle.ready.disk.boot hl.idle.ready.tree
    hl.idle.reached hroot).and_yields (boot_atRoot hflat)
  have hcheck : s.Ends FileSystem.check (fun r _ => r = true ↔ Checkable s.disk directorySector) :=
    hl₀.idle.check fun x _ => hno x
  refine ⟨w₀, w, s, hboot, hs.mono fun _ _ _ hg => hg.1, hrun, hflat, hat,
    (hcheck.and_yields (check_sound hflat hat)).mono ?_⟩
  rintro r _ ⟨hr, hsound⟩
  rw [hdisk] at hr
  have hpassed := hr.mpr (h.checkable hempty (by decide))
  exact ⟨hpassed, hsound hpassed⟩

end PaldOs
