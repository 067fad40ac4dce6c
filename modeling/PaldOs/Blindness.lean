import PaldOs.FileSystem
import PaldOs.Transfers
import PaldOs.Twins

/-! # Where a directory file is read from

Two states differ in the `OpenFile` object of a directory: where it was last read and which of its
headers is in memory.  No operation can tell.  A directory is read and written from its start, with
the header fetched again, and of a file that is closed only its sector matters.

The operations on other objects do not look at it (`Aside`).
-/
namespace PaldOs

open Sys Prog

/-- **The states differ in the object `g`** only, and not in its sectors.  It is not the free map,
and no new object is in its place. -/
structure Aside (g : ℕ) (s t : System) : Prop where
  freeMapFile : s.freeMapFile ≠ g
  lt : g < s.nextOpenFile
  put : ∃ o : OpenFile, o.sector = (s.openFile g).sector ∧
    o.currentSector = (s.openFile g).currentSector ∧ t = s.putOpenFile g o

/-- The program cannot tell the states apart; `P` holds of the result while they differ. -/
abbrev System.Blind {α : Type} (g : ℕ) (P : α → Prop) (p : Sys α) : Prop :=
  Prog.Blind System.act (Aside g) P p

/-- The program cannot tell the states apart. -/
abbrev System.Unseeing {α : Type} (g : ℕ) (p : Sys α) : Prop := System.Blind g (fun _ => True) p

/-! ## Single accesses -/

section Accesses
variable {g n f l : ℕ} {s t : System}

theorem putOpenFile_comm (s : System) {f : ℕ} (hf : f ≠ g) (o o' : OpenFile) :
    (s.putOpenFile g o').putOpenFile f o = (s.putOpenFile f o).putOpenFile g o' :=
  congrArg (fun openFile => { s with openFile := openFile }) (Function.update_comm hf.symm ..)

theorem blind_readSector : System.Unseeing g (readSector n) := by
  refine .call ?_
  rintro s _ ⟨hm, hlt, o, h1, h2, rfl⟩
  show Option.Rel _ (if n < numSectors then some (s.disk n, s) else none)
    (if n < numSectors then some (s.disk n, s.putOpenFile g o) else none)
  split
  · exact .some ⟨rfl, .inr ⟨⟨hm, hlt, o, h1, h2, rfl⟩, trivial⟩⟩
  · exact .none

theorem blind_writeSector {data : Sector} : System.Unseeing g (writeSector n data) := by
  refine .call ?_
  rintro s _ ⟨hm, hlt, o, h1, h2, rfl⟩
  show Option.Rel _ (if n < numSectors then some ((), s.putSector n data) else none)
    (if n < numSectors then some ((), (s.putOpenFile g o).putSector n data) else none)
  split
  · exact .some ⟨rfl, .inr ⟨⟨hm, hlt, o, h1, h2, rfl⟩, trivial⟩⟩
  · exact .none

theorem blind_getEntry : System.Unseeing g (getEntry n) := by
  refine .call ?_
  rintro s _ ⟨hm, hlt, o, h1, h2, rfl⟩
  exact .some ⟨rfl, .inr ⟨⟨hm, hlt, o, h1, h2, rfl⟩, trivial⟩⟩

theorem blind_setEntry {e : OpenFileEntry} : System.Unseeing g (setEntry n e) := by
  refine .call ?_
  rintro s _ ⟨hm, hlt, o, h1, h2, rfl⟩
  exact .some ⟨rfl, .inr ⟨⟨hm, hlt, o, h1, h2, rfl⟩, trivial⟩⟩

theorem blind_getOpenFile (hf : f ≠ g) : System.Unseeing g (getOpenFile f) := by
  refine .call ?_
  rintro s _ ⟨hm, hlt, o, h1, h2, rfl⟩
  exact .some ⟨(Function.update_of_ne hf ..).symm, .inr ⟨⟨hm, hlt, o, h1, h2, rfl⟩, trivial⟩⟩

theorem blind_setOpenFile (hf : f ≠ g) {o : OpenFile} : System.Unseeing g (setOpenFile f o) := by
  refine .call ?_
  rintro s _ ⟨hm, hlt, o', h1, h2, rfl⟩
  have hself : (s.putOpenFile f o).openFile g = s.openFile g := Function.update_of_ne hf.symm ..
  refine .some ⟨rfl, .inr ⟨⟨hm, hlt, o', ?_, ?_, putOpenFile_comm s hf o o'⟩, trivial⟩⟩
  · exact h1.trans (congrArg OpenFile.sector hself).symm
  · exact h2.trans (congrArg OpenFile.currentSector hself).symm

/-- A new object is another one. -/
theorem blind_newOpenFile {o : OpenFile} : System.Blind g (· ≠ g) (newOpenFile o) := by
  refine .call ?_
  rintro s _ ⟨hm, hlt, o', h1, h2, rfl⟩
  have hne : s.nextOpenFile ≠ g := hlt.ne'
  have hself : (s.putOpenFile s.nextOpenFile o).openFile g = s.openFile g :=
    Function.update_of_ne hne.symm ..
  refine .some ⟨rfl, .inr ⟨⟨hm, hlt.trans (Nat.lt_succ_self _), o', ?_, ?_, ?_⟩, hne⟩⟩
  · exact h1.trans (congrArg OpenFile.sector hself).symm
  · exact h2.trans (congrArg OpenFile.currentSector hself).symm
  · exact congrArg (fun s : System => { s with nextOpenFile := s.nextOpenFile + 1 })
      (putOpenFile_comm s hne o o')

theorem blind_getFreeMapFile : System.Blind g (· ≠ g) getFreeMapFile := by
  refine .call ?_
  rintro s _ ⟨hm, hlt, o, h1, h2, rfl⟩
  exact .some ⟨rfl, .inr ⟨⟨hm, hlt, o, h1, h2, rfl⟩, hm⟩⟩

theorem blind_getDirectoryFile : System.Unseeing g getDirectoryFile := by
  refine .call ?_
  rintro s _ ⟨hm, hlt, o, h1, h2, rfl⟩
  exact .some ⟨rfl, .inr ⟨⟨hm, hlt, o, h1, h2, rfl⟩, trivial⟩⟩

theorem blind_setDirectoryFile : System.Unseeing g (setDirectoryFile n) := by
  refine .call ?_
  rintro s _ ⟨hm, hlt, o, h1, h2, rfl⟩
  exact .some ⟨rfl, .inr ⟨⟨hm, hlt, o, h1, h2, rfl⟩, trivial⟩⟩

theorem blind_getDirectorySize : System.Unseeing g getDirectorySize := by
  refine .call ?_
  rintro s _ ⟨hm, hlt, o, h1, h2, rfl⟩
  exact .some ⟨rfl, .inr ⟨⟨hm, hlt, o, h1, h2, rfl⟩, trivial⟩⟩

theorem blind_setDirectorySize : System.Unseeing g (setDirectorySize n) := by
  refine .call ?_
  rintro s _ ⟨hm, hlt, o, h1, h2, rfl⟩
  exact .some ⟨rfl, .inr ⟨⟨hm, hlt, o, h1, h2, rfl⟩, trivial⟩⟩

theorem blind_newLock : System.Unseeing g newLock := by
  refine .call ?_
  rintro s _ ⟨hm, hlt, o, h1, h2, rfl⟩
  exact .some ⟨rfl, .inr ⟨⟨hm, hlt, o, h1, h2, rfl⟩, trivial⟩⟩

theorem blind_getHeap : System.Unseeing g getHeap := by
  refine .call ?_
  rintro s _ ⟨hm, hlt, o, h1, h2, rfl⟩
  exact .some ⟨rfl, .inr ⟨⟨hm, hlt, o, h1, h2, rfl⟩, trivial⟩⟩

theorem blind_acquire : System.Unseeing g (acquire l) := by
  refine .call ?_
  rintro s _ ⟨hm, hlt, o, h1, h2, rfl⟩
  show Option.Rel _ (if s.held l then none else some ((), s.putHeld l true))
    (if s.held l then none else some ((), (s.putOpenFile g o).putHeld l true))
  split
  · exact .none
  · exact .some ⟨rfl, .inr ⟨⟨hm, hlt, o, h1, h2, rfl⟩, trivial⟩⟩

theorem blind_release : System.Unseeing g (release l) := by
  refine .call ?_
  rintro s _ ⟨hm, hlt, o, h1, h2, rfl⟩
  show Option.Rel _ (if s.held l then some ((), s.putHeld l false) else none)
    (if s.held l then some ((), (s.putOpenFile g o).putHeld l false) else none)
  split
  · exact .some ⟨rfl, .inr ⟨⟨hm, hlt, o, h1, h2, rfl⟩, trivial⟩⟩
  · exact .none

theorem blind_awaitMessage : System.Unseeing g awaitMessage := .call fun _ _ _ => .none

theorem blind_fail : System.Unseeing g fail := .call fun _ _ _ => .none

theorem blind_assert {c : Prop} [Decidable c] : System.Unseeing g (assert c) :=
  .ite (fun _ => .pure trivial) (fun _ => blind_fail)

theorem blind_acquireAt {lock : Option ℕ} : System.Unseeing g (acquireAt lock) := by
  cases lock with
  | none => exact blind_fail
  | some l => exact blind_acquire

theorem blind_releaseAt {lock : Option ℕ} : System.Unseeing g (releaseAt lock) := by
  cases lock with
  | none => exact blind_fail
  | some l => exact blind_release

/-- Any object may be looked at for its sectors. -/
theorem blind_getOpenFile_bind {α : Type} {P : α → Prop} {k : OpenFile → Sys α}
    (hk : ∀ o, System.Blind g P (k o))
    (hsame : ∀ o o' : OpenFile, o'.sector = o.sector → o'.currentSector = o.currentSector →
      k o = k o') :
    System.Blind g P (getOpenFile f >>= k) := by
  by_cases hf : f = g
  · subst hf
    intro s t haside
    obtain ⟨o, h1, h2, rfl⟩ := haside.put
    show Option.Rel _ ((k (s.openFile f)).run _ s)
      ((k ((s.putOpenFile f o).openFile f)).run _ (s.putOpenFile f o))
    have hget : (s.putOpenFile f o).openFile f = o := Function.update_self ..
    rw [hget, ← hsame _ _ h1 h2]
    exact hk _ _ _ haside
  · exact (blind_getOpenFile hf).bind fun o _ => hk o

end Accesses

/-! ## Other objects -/

section Others
variable {g f : ℕ} (hf : f ≠ g)
include hf

theorem blind_fetchHeader {sector : ℕ} : System.Unseeing g (OpenFile.fetchHeader f sector) :=
  blind_readSector.bind fun _ _ => (blind_getOpenFile hf).bind fun _ _ => blind_setOpenFile hf

theorem blind_writeBackHeader {sector : ℕ} :
    System.Unseeing g (OpenFile.writeBackHeader f sector) :=
  (blind_getOpenFile hf).bind fun _ _ => blind_writeSector

theorem blind_readSectors {buf : ℕ → UInt8} {offset i n : ℕ} :
    System.Unseeing g (OpenFile.readSectors f buf offset i n) := by
  induction n generalizing buf offset i with
  | zero => exact .pure trivial
  | succ n ih => exact (blind_getOpenFile hf).bind fun _ _ => blind_readSector.bind fun _ _ => ih

theorem blind_readAt {n position : ℕ} : System.Unseeing g (OpenFile.readAt f n position) := by
  refine blind_assert.bind fun _ _ => (blind_getOpenFile hf).bind fun o _ => .ite
    (fun _ => .pure trivial) fun _ => ?_
  exact (blind_readSectors hf).bind fun _ _ => blind_assert.bind fun _ _ => .pure trivial

theorem blind_writeSectors {buf : ℕ → UInt8} {offset i n : ℕ} :
    System.Unseeing g (OpenFile.writeSectors f buf offset i n) := by
  induction n generalizing offset i with
  | zero => exact .pure trivial
  | succ n ih => exact (blind_getOpenFile hf).bind fun _ _ => blind_writeSector.bind fun _ _ => ih

theorem blind_readPartial {needed : Bool} {buf : ℕ → UInt8} {offset sector : ℕ} :
    System.Unseeing g (OpenFile.readPartial f needed buf offset sector) :=
  .ite (fun _ => (blind_readAt hf).bind fun _ _ => .pure trivial) fun _ => .pure trivial

theorem blind_writeAt {src : ℕ → UInt8} {n position : ℕ} :
    System.Unseeing g (OpenFile.writeAt f src n position) := by
  refine blind_assert.bind fun _ _ => (blind_getOpenFile hf).bind fun o _ => .ite
    (fun _ => .pure trivial) fun _ => ?_
  refine (blind_readPartial hf).bind fun _ _ => (blind_readPartial hf).bind fun _ _ => ?_
  exact blind_assert.bind fun _ _ => (blind_writeSectors hf).bind fun _ _ => .pure trivial

theorem blind_readNext {fuel nextSector result n : ℕ} {into : ℕ → UInt8} :
    System.Unseeing g (OpenFile.readNext f fuel nextSector into result n) := by
  induction fuel generalizing nextSector into result n with
  | zero => exact blind_fail.bind fun _ _ => .pure trivial
  | succ fuel ih =>
    refine .ite (fun _ => ?_) fun _ => .pure trivial
    refine (blind_getOpenFile hf).bind fun _ _ => (blind_setOpenFile hf).bind fun _ _ => ?_
    refine (blind_fetchHeader hf).bind fun _ _ => (blind_getOpenFile hf).bind fun _ _ => ?_
    refine (blind_readAt hf).bind fun _ _ => (blind_getOpenFile hf).bind fun _ _ => ?_
    exact (blind_setOpenFile hf).bind fun _ _ => (blind_getOpenFile hf).bind fun _ _ => ih

theorem blind_rewindRead {isDirectory : Bool} :
    System.Unseeing g (OpenFile.rewindRead f isDirectory) :=
  .ite (fun _ => (blind_getOpenFile hf).bind fun _ _ => (blind_fetchHeader hf).bind fun _ _ =>
    (blind_getOpenFile hf).bind fun _ _ => blind_setOpenFile hf) fun _ => .pure trivial

theorem blind_read_of_ne {into : ℕ → UInt8} {n : ℕ} {isDirectory : Bool} :
    System.Unseeing g (OpenFile.read f into n isDirectory) := by
  refine blind_assert.bind fun _ _ => (blind_rewindRead hf).bind fun _ _ => ?_
  refine (blind_getOpenFile hf).bind fun _ _ => (blind_readAt hf).bind fun _ _ => ?_
  refine (blind_getOpenFile hf).bind fun _ _ => (blind_setOpenFile hf).bind fun _ _ => ?_
  exact .ite (fun _ => (blind_getOpenFile hf).bind fun _ _ => blind_readNext hf)
    fun _ => .pure trivial

end Others

/-! ## The free map -/

section FreeMap
variable {g : ℕ}

theorem blind_fetchFreeMap : System.Unseeing g fetchFreeMap :=
  blind_getFreeMapFile.bind fun _ hf => (blind_readAt hf).bind fun _ _ => .pure trivial

theorem blind_writeBackFreeMap {freeMap : Bitmap} :
    System.Unseeing g (writeBackFreeMap freeMap) :=
  blind_getFreeMapFile.bind fun _ hf => (blind_writeAt hf).bind fun _ _ => .pure trivial

end FreeMap

/-! ## Writing to other objects -/

section Writes
variable {g f : ℕ} (hf : f ≠ g)
include hf

theorem blind_growHeader {sector n : ℕ} {w : Pending} :
    System.Unseeing g (OpenFile.growHeader f sector n w) := by
  refine (blind_getOpenFile hf).bind fun o _ => ?_
  cases o.hdr.allocate w.freeMap n with
  | none => exact blind_fail.bind fun _ _ => .pure trivial
  | some r =>
    obtain ⟨found, hdr, freeMap⟩ := r
    cases found with
    | false => exact (blind_setOpenFile hf).bind fun _ _ => .pure trivial
    | true =>
      refine (blind_setOpenFile hf).bind fun _ _ => blind_writeBackFreeMap.bind fun _ _ => ?_
      exact (blind_writeBackHeader hf).bind fun _ _ => .pure trivial

theorem blind_growTo {sector target : ℕ} {w : Pending} :
    System.Unseeing g (OpenFile.growTo f sector target w) :=
  (blind_getOpenFile hf).bind fun _ _ => .ite (fun _ => blind_growHeader hf) fun _ => .pure trivial

theorem blind_transfer {n : ℕ} {w : Pending} : System.Unseeing g (OpenFile.transfer f n w) :=
  (blind_getOpenFile hf).bind fun _ _ => (blind_writeAt hf).bind fun _ _ =>
    (blind_getOpenFile hf).bind fun _ _ => (blind_setOpenFile hf).bind fun _ _ => .pure trivial

theorem blind_writeCurrent {w : Pending} : System.Unseeing g (OpenFile.writeCurrent f w) :=
  (blind_getOpenFile hf).bind fun _ _ => .ite
    (fun _ => (blind_growTo hf).bind fun _ _ => .ite (fun _ => blind_transfer hf)
      fun _ => .pure trivial) fun _ => .pure trivial

theorem blind_writeNext {fuel iterFh : ℕ} {w : Pending} :
    System.Unseeing g (OpenFile.writeNext f fuel iterFh w) := by
  induction fuel generalizing iterFh w with
  | zero => exact blind_fail.bind fun _ _ => .pure trivial
  | succ fuel ih =>
    refine .ite (fun _ => ?_) fun _ => .pure trivial
    refine (blind_fetchHeader hf).bind fun _ _ => (blind_growTo hf).bind fun _ _ => ?_
    refine .ite (fun _ => ?_) fun _ => .pure trivial
    refine (blind_getOpenFile hf).bind fun _ _ => (blind_setOpenFile hf).bind fun _ _ => ?_
    exact (blind_transfer hf).bind fun _ _ => (blind_getOpenFile hf).bind fun _ _ => ih

omit hf in
theorem blind_reserve {freeMap : Bitmap} {n : ℕ} :
    System.Unseeing g (OpenFile.reserve freeMap n) := by
  induction n generalizing freeMap with
  | zero => exact .pure trivial
  | succ n ih =>
    unfold OpenFile.reserve
    cases freeMap.find with
    | none => exact blind_fail.bind fun _ _ => .pure trivial
    | some r => exact blind_writeBackFreeMap.bind fun _ _ => ih.bind fun _ _ => .pure trivial

theorem blind_appendHeader {previous sector n : ℕ} {hdr : RawFileHeader} {w : Pending} :
    System.Unseeing g (OpenFile.appendHeader f previous sector hdr n w) := by
  refine blind_writeBackFreeMap.bind fun _ _ => blind_writeSector.bind fun _ _ => ?_
  refine (blind_getOpenFile hf).bind fun _ _ => (blind_setOpenFile hf).bind fun _ _ => ?_
  refine (blind_writeBackHeader hf).bind fun _ _ => (blind_getOpenFile hf).bind fun _ _ => ?_
  exact (blind_setOpenFile hf).bind fun _ _ => blind_transfer hf

theorem blind_writeHeaders {previous : ℕ} {sectors : List ℕ} {w : Pending} :
    System.Unseeing g (OpenFile.writeHeaders f previous sectors w) := by
  induction sectors generalizing previous w with
  | nil => exact .pure trivial
  | cons sector rest ih =>
    unfold OpenFile.writeHeaders
    dsimp only
    refine .ite (fun _ => ?_) fun _ => .pure trivial
    split
    · exact blind_fail.bind fun _ _ => .pure trivial
    · exact .pure trivial
    · exact (blind_appendHeader hf).bind fun _ _ => ih

theorem blind_writeNew {w : Pending} : System.Unseeing g (OpenFile.writeNew f w) := by
  unfold OpenFile.writeNew
  refine .ite (fun _ => .pure trivial) fun _ => blind_reserve.bind fun r _ => ?_
  obtain ⟨sectors, freeMap⟩ := r
  cases sectors with
  | nil => exact .pure trivial
  | cons first rest =>
    dsimp only
    split
    · exact blind_fail.bind fun _ _ => .pure trivial
    · exact .pure trivial
    · refine (blind_getOpenFile hf).bind fun _ _ => (blind_appendHeader hf).bind fun _ _ => ?_
      refine (blind_writeHeaders hf).bind fun _ _ => (blind_getOpenFile hf).bind fun _ _ => ?_
      exact (blind_setOpenFile hf).bind fun _ _ => .pure trivial

theorem blind_writeBeyond {w : Pending} : System.Unseeing g (OpenFile.writeBeyond f w) :=
  .ite (fun _ => (blind_getOpenFile hf).bind fun _ _ => (blind_writeNext hf).bind fun _ _ =>
    .ite (fun _ => blind_writeNew hf) fun _ => .pure trivial) fun _ => .pure trivial

theorem blind_rewindWrite {isDirectory : Bool} :
    System.Unseeing g (OpenFile.rewindWrite f isDirectory) :=
  .ite (fun _ => (blind_getOpenFile hf).bind fun _ _ => blind_setOpenFile hf)
    fun _ => .pure trivial

theorem blind_write_of_ne {src : ℕ → UInt8} {n : ℕ} {isDirectory : Bool} :
    System.Unseeing g (OpenFile.write f src n isDirectory) := by
  refine blind_assert.bind fun _ _ => (blind_getOpenFile hf).bind fun _ _ => ?_
  refine blind_getEntry.bind fun _ _ => blind_acquireAt.bind fun _ _ => ?_
  refine (blind_rewindWrite hf).bind fun _ _ => (blind_getOpenFile hf).bind fun _ _ => ?_
  refine (blind_fetchHeader hf).bind fun _ _ => blind_fetchFreeMap.bind fun _ _ => ?_
  refine (blind_writeCurrent hf).bind fun _ _ => (blind_writeBeyond hf).bind fun _ _ => ?_
  exact blind_getEntry.bind fun _ _ => blind_releaseAt.bind fun _ _ => .pure trivial

end Writes

/-! ## The object in which the states differ -/

section Rewound
variable {g f : ℕ}

/-- The object is closed by its sector. -/
theorem blind_close : System.Unseeing g (OpenFile.close f) := by
  refine blind_getOpenFile_bind (fun o => ?_) fun o o' h _ => ?_
  · refine blind_getEntry.bind fun _ _ => blind_acquireAt.bind fun _ _ => ?_
    refine blind_getEntry.bind fun e _ => .ite (fun _ => ?_) fun _ => blind_releaseAt
    refine blind_setEntry.bind fun _ _ => blind_getEntry.bind fun _ _ => ?_
    refine blind_releaseAt.bind fun _ _ => blind_getEntry.bind fun _ _ => ?_
    exact .ite (fun _ => blind_awaitMessage) fun _ => .pure trivial
  · rw [h]

/-- What is read from its start is in memory as it is on disk. -/
theorem ends_rewindRead {s : System} {Q : Unit → System → Prop} :
    s.Ends (OpenFile.rewindRead f true) Q ↔ (s.openFile f).sector < numSectors ∧
      Q () (s.putOpenFile f ⟨(s.openFile f).sector, (s.openFile f).currentSector, 0,
        .ofSector (s.disk (s.openFile f).sector)⟩) := by
  unfold OpenFile.rewindRead OpenFile.fetchHeader
  simp only [if_true, Prog.ends_bind, ends_getOpenFile, ends_readSector, ends_setOpenFile,
    System.putOpenFile_self, System.putOpenFile_putOpenFile]

/-- **Reading a directory** from its start makes the states equal. -/
theorem blind_rewindRead_self : System.Blind g (fun _ => False) (OpenFile.rewindRead g true) := by
  rintro s _ ⟨-, -, o, h1, h2, rfl⟩
  refine .of_run (run_eq_of_ends fun Q => ?_)
  refine ends_rewindRead.trans (Iff.trans ?_ ends_rewindRead.symm)
  rw [System.putOpenFile_self, h1, h2, System.putOpenFile_putOpenFile, System.putOpenFile_disk]

/-- **`Read`** of a directory. -/
theorem blind_read {into : ℕ → UInt8} {n : ℕ} :
    System.Unseeing g (OpenFile.read f into n true) := by
  by_cases hf : f = g
  · subst hf
    exact blind_assert.bind fun _ _ => blind_rewindRead_self.bind_of_eq
  · exact blind_read_of_ne hf

/-- **`Write`** of a directory.  The header is fetched again after the object is rewound. -/
theorem blind_write {src : ℕ → UInt8} {n : ℕ} :
    System.Unseeing g (OpenFile.write f src n true) := by
  by_cases hf : f = g
  · subst hf
    refine blind_assert.bind fun _ _ => ?_
    refine blind_getOpenFile_bind (fun o => ?_) fun o o' h _ => by rw [h]
    refine blind_getEntry.bind fun _ _ => blind_acquireAt.bind fun _ _ => ?_
    rintro s _ ⟨-, -, o, h1, -, rfl⟩
    refine .of_run (run_eq_of_ends fun Q => ?_)
    unfold OpenFile.rewindWrite OpenFile.fetchHeader
    simp only [if_true, Prog.ends_bind, ends_getOpenFile, ends_readSector, ends_setOpenFile,
      System.putOpenFile_self, System.putOpenFile_putOpenFile, System.putOpenFile_disk, h1]
  · exact blind_write_of_ne hf

end Rewound

/-! ## Directories -/

section Directories
variable {g f n : ℕ} {d : Directory}

theorem blind_lockOrNew {lock : Option ℕ} : System.Unseeing g (OpenFile.lockOrNew lock) := by
  cases lock with
  | none => exact blind_newLock
  | some l => exact .pure trivial

/-- A file is opened as another object. -/
theorem blind_make {sector : ℕ} : System.Blind g (· ≠ g) (OpenFile.make sector) := by
  refine blind_readSector.bind fun _ _ => ?_
  have hlocks : System.Unseeing g (OpenFile.makeLocks sector) :=
    blind_getEntry.bind fun _ _ => .ite
      (fun _ => blind_newLock.bind fun _ _ => blind_lockOrNew.bind fun _ _ =>
        blind_lockOrNew.bind fun _ _ => blind_setEntry) fun _ => .pure trivial
  exact hlocks.bind fun _ _ => blind_getEntry.bind fun _ _ => blind_setEntry.bind fun _ _ =>
    blind_newOpenFile

theorem blind_fetchFrom : System.Unseeing g (Directory.fetchFrom f n) :=
  blind_assert.bind fun _ _ => blind_read.bind fun _ _ => .pure trivial

theorem blind_tableSize : System.Unseeing g (Directory.tableSize f) :=
  blind_fetchFrom.bind fun _ _ => .pure trivial

theorem blind_writeBack : System.Unseeing g (d.writeBack f) :=
  blind_write.bind fun _ _ => .pure trivial

theorem blind_add {name : List UInt8} {newSector : ℕ} {isDirectory : Bool} :
    System.Unseeing g (d.add name newSector isDirectory) := by
  unfold Directory.add
  split
  · exact .pure trivial
  · have hnote : ∀ d', System.Unseeing g (Directory.noteSize d d') := fun _ =>
      .ite (fun _ => blind_setDirectorySize) fun _ => .pure trivial
    exact blind_getHeap.bind fun _ _ => (hnote _).bind fun _ _ => .pure trivial

theorem blind_currentTable : System.Unseeing g FileSystem.currentTable :=
  blind_getDirectorySize.bind fun _ _ => blind_getDirectoryFile.bind fun _ _ =>
    blind_fetchFrom.bind fun _ _ => .pure trivial

theorem blind_refreshSize : System.Unseeing g FileSystem.refreshSize :=
  blind_getDirectoryFile.bind fun _ _ => blind_tableSize.bind fun _ _ =>
    blind_setDirectorySize.bind fun _ _ => .pure trivial

end Directories

/-! ## The operations of the file system -/

section Operations
variable {g : ℕ} {name : List UInt8}

/-- **`Open`** gives another object. -/
theorem blind_openFile :
    System.Blind g (fun r => ∀ f, r = some f → f ≠ g) (FileSystem.openFile name) := by
  refine blind_currentTable.bind fun dir _ => ?_
  cases dir.find name with
  | none => exact .pure fun f hf => nomatch hf
  | some sector =>
    refine blind_getEntry.bind fun _ _ => .ite (fun _ => .pure fun f hf => nomatch hf) fun _ => ?_
    refine blind_make.bind fun f hf => .pure fun f' hf' => ?_
    rw [← Option.some.inj hf']
    exact hf

theorem blind_openExisting : System.Unseeing g (FileSystem.openExisting name) := by
  refine blind_openFile.bind fun r _ => ?_
  cases r with
  | none => exact blind_fail.bind fun _ _ => .pure trivial
  | some f => exact .pure trivial

theorem blind_walk {dir : Directory} {names : List (List UInt8)} :
    System.Unseeing g (FileSystem.walk dir names) := by
  induction names generalizing dir with
  | nil => exact .pure trivial
  | cons name rest ih =>
    refine .ite (fun _ => ?_) fun _ => .pure trivial
    refine blind_getDirectoryFile.bind fun _ _ => blind_openExisting.bind fun _ _ => ?_
    refine blind_setDirectoryFile.bind fun _ _ => blind_close.bind fun _ _ => ?_
    refine blind_refreshSize.bind fun _ _ => blind_getDirectoryFile.bind fun _ _ => ?_
    exact blind_fetchFrom.bind fun _ _ => ih

theorem blind_endWalk {success onlyChange : Bool} {f n : ℕ} :
    System.Unseeing g (FileSystem.endWalk success onlyChange f n) :=
  .ite (fun _ => .ite (fun _ => blind_close) fun _ => .pure trivial) fun _ =>
    blind_setDirectoryFile.bind fun _ _ => blind_setDirectorySize

theorem blind_changeDirFromRoot {onlyChange : Bool} :
    System.Unseeing g (FileSystem.changeDirFromRoot name onlyChange) := by
  refine blind_assert.bind fun _ _ => blind_assert.bind fun _ _ => ?_
  refine blind_getDirectoryFile.bind fun _ _ => blind_getDirectorySize.bind fun _ _ => ?_
  refine blind_make.bind fun _ _ => blind_tableSize.bind fun _ _ => ?_
  refine blind_fetchFrom.bind fun _ _ => blind_setDirectoryFile.bind fun _ _ => ?_
  refine blind_setDirectorySize.bind fun _ _ => blind_walk.bind fun _ _ => ?_
  exact blind_endWalk.bind fun _ _ => .pure trivial

/-- **`ChangeDir`.** -/
theorem blind_changeDir {onlyChange : Bool} :
    System.Unseeing g (FileSystem.changeDir name onlyChange) := by
  refine .ite (fun _ => blind_changeDirFromRoot) fun _ => blind_currentTable.bind fun _ _ => ?_
  refine .ite (fun _ => ?_) fun _ => .pure trivial
  refine blind_openExisting.bind fun _ _ => blind_getDirectoryFile.bind fun _ _ => ?_
  refine blind_setDirectoryFile.bind fun _ _ => blind_close.bind fun _ _ => ?_
  exact blind_refreshSize.bind fun _ _ => .pure trivial

theorem blind_enterParent : System.Unseeing g (FileSystem.enterParent name) := by
  refine .ite (fun _ => .ite (fun _ => .pure trivial) fun _ => ?_) fun _ => .pure trivial
  refine blind_assert.bind fun _ _ => blind_getDirectoryFile.bind fun _ _ => ?_
  exact blind_changeDir.bind fun _ _ => .ite (fun _ => .pure trivial) fun _ => .pure trivial

theorem blind_leaveParent {backup : Option ℕ} :
    System.Unseeing g (FileSystem.leaveParent backup) := by
  cases backup with
  | none => exact .pure trivial
  | some f =>
    refine blind_getDirectoryFile.bind fun _ _ => blind_setDirectoryFile.bind fun _ _ => ?_
    exact blind_close.bind fun _ _ => blind_refreshSize.bind fun _ _ => .pure trivial

theorem blind_resetEntry {sector : ℕ} : System.Unseeing g (FileSystem.resetEntry sector) :=
  blind_newLock.bind fun _ _ => blind_setEntry

theorem blind_storeFile {sector : ℕ} {freeMap : Bitmap} {dir : Directory} :
    System.Unseeing g (FileSystem.storeFile sector freeMap dir) :=
  blind_writeSector.bind fun _ _ => blind_writeBackFreeMap.bind fun _ _ =>
    blind_getDirectoryFile.bind fun _ _ => blind_writeBack.bind fun _ _ =>
      blind_resetEntry.bind fun _ _ => .pure trivial

theorem blind_storeDirectory {sector : ℕ} {freeMap : Bitmap} {dir : Directory} :
    System.Unseeing g (FileSystem.storeDirectory sector freeMap dir) := by
  unfold FileSystem.storeDirectory
  split
  · exact blind_fail.bind fun _ _ => .pure trivial
  · exact .pure trivial
  · refine blind_writeSector.bind fun _ _ => blind_writeBackFreeMap.bind fun _ _ => ?_
    refine blind_make.bind fun f hf => ?_
    have hfirst : ∀ d : Directory, System.Unseeing g (d.writeBackFirst f) := fun _ =>
      (blind_writeAt hf).bind fun _ _ => .pure trivial
    refine blind_getHeap.bind fun _ _ => (hfirst _).bind fun _ _ =>
      blind_getDirectoryFile.bind fun _ _ => ?_
    exact blind_writeBack.bind fun _ _ => blind_resetEntry.bind fun _ _ => .pure trivial

/-- **`Create` and `CreateDir`.** -/
theorem blind_createWith {isDirectory : Bool}
    {store : ℕ → Bitmap → Directory → Sys (Option Bool)}
    (hstore : ∀ sector freeMap dir, System.Unseeing g (store sector freeMap dir)) :
    System.Unseeing g (FileSystem.createWith isDirectory store name) := by
  refine blind_acquire.bind fun _ _ => blind_enterParent.bind fun r _ => ?_
  cases r with
  | none => exact blind_release.bind fun _ _ => .pure trivial
  | some r =>
    obtain ⟨name, backup⟩ := r
    refine blind_currentTable.bind fun dir _ => ?_
    have hadd : System.Unseeing g (FileSystem.addFile dir name isDirectory store) := by
      refine .ite (fun _ => .pure trivial) fun _ => blind_fetchFreeMap.bind fun freeMap _ => ?_
      split
      · exact blind_add.bind fun _ _ => .pure trivial
      · refine blind_add.bind fun r _ => ?_
        cases r with
        | none => exact .pure trivial
        | some dir => exact hstore _ _ _
    refine hadd.bind fun r _ => ?_
    cases r with
    | none => exact blind_release.bind fun _ _ => .pure trivial
    | some success =>
      exact blind_leaveParent.bind fun _ _ => blind_release.bind fun _ _ => .pure trivial

theorem blind_clearHeader {header : RawFileHeader} {sector : ℕ} {freeMap : Bitmap} :
    System.Unseeing g (FileSystem.clearHeader header sector freeMap) := by
  unfold FileSystem.clearHeader
  split
  · exact .pure trivial
  · exact blind_fail.bind fun _ _ => .pure trivial

theorem blind_clearNext {fuel nextSector : ℕ} {freeMap : Bitmap} :
    System.Unseeing g (FileSystem.clearNext fuel nextSector freeMap) := by
  induction fuel generalizing nextSector freeMap with
  | zero => exact blind_fail.bind fun _ _ => .pure trivial
  | succ fuel ih =>
    exact .ite (fun _ => blind_readSector.bind fun _ _ => blind_clearHeader.bind fun _ _ => ih)
      fun _ => .pure trivial

theorem blind_awaitClosed {sector : ℕ} : System.Unseeing g (FileSystem.awaitClosed sector) :=
  blind_getEntry.bind fun _ _ => .ite (fun _ => blind_awaitMessage) fun _ => .pure trivial

theorem blind_acquireIfAny {lock : Option ℕ} :
    System.Unseeing g (FileSystem.acquireIfAny lock) := by
  cases lock with
  | none => exact .pure trivial
  | some l => exact blind_acquire

theorem blind_releaseIfAny {lock : Option ℕ} :
    System.Unseeing g (FileSystem.releaseIfAny lock) := by
  cases lock with
  | none => exact .pure trivial
  | some l => exact blind_release

theorem blind_removeFile {dir : Directory} {sector : ℕ} :
    System.Unseeing g (FileSystem.removeFile dir name sector) := by
  refine blind_readSector.bind fun _ _ => blind_fetchFreeMap.bind fun _ _ => ?_
  refine blind_getEntry.bind fun _ _ => blind_setEntry.bind fun _ _ => ?_
  refine blind_awaitClosed.bind fun _ _ => blind_clearHeader.bind fun _ _ => ?_
  refine blind_clearNext.bind fun _ _ => blind_writeBackFreeMap.bind fun _ _ => ?_
  refine blind_getDirectoryFile.bind fun _ _ => blind_writeBack.bind fun _ _ => ?_
  refine blind_getEntry.bind fun _ _ => blind_setEntry.bind fun _ _ => ?_
  refine blind_getEntry.bind fun _ _ => blind_releaseIfAny.bind fun _ _ => ?_
  exact blind_getEntry.bind fun _ _ => blind_setEntry.bind fun _ _ => .pure trivial

/-- **`Remove`.** -/
theorem blind_remove {callingFromRemoveDir : Bool} :
    System.Unseeing g (FileSystem.remove name callingFromRemoveDir) := by
  refine blind_currentTable.bind fun dir _ => ?_
  cases dir.find name with
  | none => exact .pure trivial
  | some sector =>
    refine .ite (fun _ => .pure trivial) fun _ => blind_getEntry.bind fun _ _ => ?_
    refine blind_acquireIfAny.bind fun _ _ => blind_getEntry.bind fun _ _ => ?_
    exact .ite (fun _ => blind_releaseAt.bind fun _ _ => .pure trivial) fun _ => blind_removeFile

/-- **`RemoveDir`.** -/
theorem blind_removeDir : System.Unseeing g (FileSystem.removeDir name) := by
  refine blind_currentTable.bind fun dir _ => .ite (fun _ => ?_) fun _ => .pure trivial
  refine blind_openExisting.bind fun _ _ => blind_tableSize.bind fun _ _ => ?_
  refine blind_fetchFrom.bind fun _ _ => .ite (fun _ => ?_) fun _ => ?_
  · exact blind_close.bind fun _ _ => .pure trivial
  · exact blind_close.bind fun _ _ => blind_remove.bind fun _ _ => .pure trivial

/-- **`Ls`.** -/
theorem blind_ls : System.Unseeing g FileSystem.ls :=
  blind_currentTable.bind fun _ _ => .pure trivial

theorem blind_checkEntries {entries : List DirectoryEntry} {knownNames : List (List UInt8)}
    {error : Bool} {shadowMap : Bitmap} :
    System.Unseeing g (FileSystem.checkEntries entries knownNames error shadowMap) := by
  induction entries generalizing knownNames error shadowMap with
  | nil => exact .pure trivial
  | cons e rest ih =>
    exact .ite (fun _ => blind_readSector.bind fun _ _ => ih) fun _ => ih

/-- **`Check`.** -/
theorem blind_check : System.Unseeing g FileSystem.check := by
  refine blind_readSector.bind fun _ _ => blind_readSector.bind fun _ _ => ?_
  refine blind_fetchFreeMap.bind fun _ _ => blind_currentTable.bind fun dir _ => ?_
  have hdirectory : ∀ shadowMap, System.Unseeing g (FileSystem.checkDirectory dir shadowMap) :=
    fun _ => blind_assert.bind fun _ _ => blind_checkEntries
  exact (hdirectory _).bind fun _ _ => .pure trivial

end Operations

/-! ## One request after another -/

/-- What is asked of the file system.  An open file is named by its place among those open. -/
inductive Request where
  | create (name : List UInt8)
  | createDir (name : List UInt8)
  | changeDir (name : List UInt8)
  | openFile (name : List UInt8)
  | remove (name : List UInt8)
  | removeDir (name : List UInt8)
  | ls
  | check
  | read (i n : ℕ)
  | write (i : ℕ) (src : ℕ → UInt8) (n : ℕ)
  | close (i : ℕ)

/-- What it returns. -/
inductive Reply where
  | success (b : Bool)
  | opened (f : Option ℕ)
  | code (n : ℤ)
  | text (bytes : List UInt8)
  | bytes (n : ℕ) (into : ℕ → UInt8)
  | count (n : ℕ)
  | closed
  | notOpen

/-- A request, with the files that are open. -/
def Request.perform (handles : List ℕ) : Request → Sys (Reply × List ℕ)
  | .create name => do
      let b ← FileSystem.create name
      return (.success b, handles)
  | .createDir name => do
      let b ← FileSystem.createDir name
      return (.success b, handles)
  | .changeDir name => do
      let b ← FileSystem.changeDir name true
      return (.success b, handles)
  | .openFile name => do
      let r ← FileSystem.openFile name
      return (.opened r, handles ++ r.toList)
  | .remove name => do
      let b ← FileSystem.remove name false
      return (.success b, handles)
  | .removeDir name => do
      let n ← FileSystem.removeDir name
      return (.code n, handles)
  | .ls => do
      let text ← FileSystem.ls
      return (.text text, handles)
  | .check => do
      let b ← FileSystem.check
      return (.success b, handles)
  | .read i n =>
      match handles[i]? with
      | none => return (.notOpen, handles)
      | some f => do
          let (n, into) ← OpenFile.read f (fun _ => 0) n false
          return (.bytes n into, handles)
  | .write i src n =>
      match handles[i]? with
      | none => return (.notOpen, handles)
      | some f => do
          let n ← OpenFile.write f src n false
          return (.count n, handles)
  | .close i =>
      match handles[i]? with
      | none => return (.notOpen, handles)
      | some f => do
          OpenFile.close f
          return (.closed, handles.eraseIdx i)

/-- The requests one after the other. -/
def serve (handles : List ℕ) : List Request → Sys (List Reply)
  | [] => return []
  | request :: rest => do
      let (reply, handles) ← request.perform handles
      let replies ← serve handles rest
      return reply :: replies

section Requests
variable {g : ℕ} {handles : List ℕ}

theorem blind_perform (h : ∀ f ∈ handles, f ≠ g) (request : Request) :
    System.Blind g (fun r => ∀ f ∈ r.2, f ≠ g) (request.perform handles) := by
  cases request with
  | create name => exact (blind_createWith fun _ _ _ => blind_storeFile).bind fun _ _ => .pure h
  | createDir name =>
    exact (blind_createWith fun _ _ _ => blind_storeDirectory).bind fun _ _ => .pure h
  | changeDir name => exact blind_changeDir.bind fun _ _ => .pure h
  | openFile name =>
    refine blind_openFile.bind fun r hr => .pure fun f hf => ?_
    rcases List.mem_append.mp hf with hf | hf
    · exact h f hf
    · exact hr f (Option.mem_toList.mp hf)
  | remove name => exact blind_remove.bind fun _ _ => .pure h
  | removeDir name => exact blind_removeDir.bind fun _ _ => .pure h
  | ls => exact blind_ls.bind fun _ _ => .pure h
  | check => exact blind_check.bind fun _ _ => .pure h
  | read i n =>
    unfold Request.perform
    dsimp only
    split
    · exact .pure h
    · rename_i f hf
      exact (blind_read_of_ne (h f (List.mem_of_getElem? hf))).bind fun _ _ => .pure h
  | write i src n =>
    unfold Request.perform
    dsimp only
    split
    · exact .pure h
    · rename_i f hf
      exact (blind_write_of_ne (h f (List.mem_of_getElem? hf))).bind fun _ _ => .pure h
  | close i =>
    unfold Request.perform
    dsimp only
    split
    · exact .pure h
    · exact blind_close.bind fun _ _ => .pure fun f hf => h f (List.mem_of_mem_eraseIdx hf)

/-- **No sequence of requests tells the states apart.** -/
theorem blind_serve (h : ∀ f ∈ handles, f ≠ g) (requests : List Request) :
    System.Unseeing g (serve handles requests) := by
  induction requests generalizing handles with
  | nil => exact .pure trivial
  | cons request rest ih =>
    exact (blind_perform h request).bind fun r hr => (ih hr).bind fun _ _ => .pure trivial

end Requests
end PaldOs
