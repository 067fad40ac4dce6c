import PaldOs.DiskLayout
import PaldOs.Programs

/-! # Open files

The operations on file headers and open files as programs over the disk and the memory
that threads share: the table of open files, the `OpenFile` objects, the current
directory and the locks.  What is private to a call, such as a copy of the free map,
is a value.

Every access to a sector and every access to one of those places is an access of its
own.  An access fails for ever where the source does not survive it: a failed
assertion, a null pointer, memory past the end of a buffer.  It has to wait, which
alone is for ever too, for a lock that is held and for a message.

Memory from the heap reads as zero, but for the entries of a new table of a directory, which
are what `heap` says.  Numbers of bytes are `unsigned`: a sum that can pass `2 ^ 32` is taken
modulo that.
-/
namespace PaldOs

/-- `NUM_DIR_ENTRIES`. -/
def numDirEntries : ℕ := 10

/-- `MAX_DIR_ENTRIES`. -/
def maxDirEntries : ℕ := 3960

/-- `FREE_MAP_SECTOR`. -/
def freeMapSector : ℕ := 0

/-- `DIRECTORY_SECTOR`. -/
def directorySector : ℕ := 1

/-- `FREE_MAP_FILE_SIZE`. -/
def freeMapFileSize : ℕ := numSectors / 8

/-- `DIRECTORY_FILE_SIZE`. -/
def directoryFileSize : ℕ := DirectoryEntry.size * numDirEntries

/-- `FILE_PATH_MAX_LEN`. -/
def filePathMaxLen : ℕ := 200

/-- `MAX_DIR_LEVEL`. -/
def maxDirLevel : ℕ := 10

/-! ## The shared state -/

/-- An entry of `openFilesTable`.  A lock is named by its address. -/
structure OpenFileEntry where
  removeLock : Option ℕ
  writeLock : Option ℕ
  closeLock : Option ℕ
  removed : Bool
  removing : Bool
  count : ℕ

/-- An `OpenFile` object. -/
structure OpenFile where
  sector : ℕ
  currentSector : ℕ
  seekPosition : ℕ
  hdr : RawFileHeader

/-- The disk and what the threads share, and what there is in memory that a new table gets. -/
structure System where
  disk : ℕ → Sector
  openFilesTable : ℕ → OpenFileEntry
  openFile : ℕ → OpenFile
  nextOpenFile : ℕ
  freeMapFile : ℕ
  directoryFile : ℕ
  directorySize : ℕ
  held : ℕ → Bool
  nextLock : ℕ
  heap : ℕ → UInt8

namespace System

/-- A sector is written. -/
def putSector (s : System) (n : ℕ) (data : Sector) : System :=
  { s with disk := Function.update s.disk n data }

/-- An `OpenFile` object is changed. -/
def putOpenFile (s : System) (f : ℕ) (o : OpenFile) : System :=
  { s with openFile := Function.update s.openFile f o }

/-- An entry of `openFilesTable` is changed. -/
def putEntry (s : System) (n : ℕ) (e : OpenFileEntry) : System :=
  { s with openFilesTable := Function.update s.openFilesTable n e }

/-- A lock is taken or given back. -/
def putHeld (s : System) (l : ℕ) (b : Bool) : System :=
  { s with held := Function.update s.held l b }

end System

/-- The lock `filesysCreateLock`. -/
def filesysCreateLock : ℕ := 0

/-- The accesses. -/
inductive Access where
  | readSector (s : ℕ)
  | writeSector (s : ℕ) (data : Sector)
  | getEntry (s : ℕ)
  | setEntry (s : ℕ) (e : OpenFileEntry)
  | getOpenFile (f : ℕ)
  | setOpenFile (f : ℕ) (o : OpenFile)
  | newOpenFile (o : OpenFile)
  | getFreeMapFile
  | setFreeMapFile (f : ℕ)
  | getDirectoryFile
  | setDirectoryFile (f : ℕ)
  | getDirectorySize
  | setDirectorySize (n : ℕ)
  | newLock
  | getHeap
  | acquire (l : ℕ)
  | release (l : ℕ)
  | awaitMessage
  | fail

/-- What an access returns. -/
def Access.Result : Access → Type
  | .readSector _ => Sector
  | .getEntry _ => OpenFileEntry
  | .getOpenFile _ => OpenFile
  | .newOpenFile _ | .getFreeMapFile | .getDirectoryFile | .getDirectorySize | .newLock => ℕ
  | .getHeap => ℕ → UInt8
  | _ => Unit

/-- **What an access does.** -/
def System.act (o : Access) (s : System) : Option (o.Result × System) :=
  match o with
  | .readSector n => if n < numSectors then some (s.disk n, s) else none
  | .writeSector n data =>
      if n < numSectors then some ((), s.putSector n data) else none
  | .getEntry n => some (s.openFilesTable n, s)
  | .setEntry n e => some ((), s.putEntry n e)
  | .getOpenFile f => some (s.openFile f, s)
  | .setOpenFile f o => some ((), s.putOpenFile f o)
  | .newOpenFile o =>
      some (s.nextOpenFile, { s.putOpenFile s.nextOpenFile o with
        nextOpenFile := s.nextOpenFile + 1 })
  | .getFreeMapFile => some (s.freeMapFile, s)
  | .setFreeMapFile f => some ((), { s with freeMapFile := f })
  | .getDirectoryFile => some (s.directoryFile, s)
  | .setDirectoryFile f => some ((), { s with directoryFile := f })
  | .getDirectorySize => some (s.directorySize, s)
  | .setDirectorySize n => some ((), { s with directorySize := n })
  | .newLock => some (s.nextLock, { s.putHeld s.nextLock false with nextLock := s.nextLock + 1 })
  | .getHeap => some (s.heap, s)
  | .acquire l => if s.held l then none else some ((), s.putHeld l true)
  | .release l => if s.held l then some ((), s.putHeld l false) else none
  | .awaitMessage => none
  | .fail => none

/-- A program of the file system. -/
abbrev Sys : Type → Type := Prog Access.Result

/-- A single access. -/
def Access.call (o : Access) : Sys o.Result := Prog.call o

namespace Sys

def readSector (n : ℕ) : Sys Sector := (Access.readSector n).call
def writeSector (n : ℕ) (data : Sector) : Sys Unit := (Access.writeSector n data).call
def getEntry (n : ℕ) : Sys OpenFileEntry := (Access.getEntry n).call
def setEntry (n : ℕ) (e : OpenFileEntry) : Sys Unit := (Access.setEntry n e).call
def getOpenFile (f : ℕ) : Sys OpenFile := (Access.getOpenFile f).call
def setOpenFile (f : ℕ) (o : OpenFile) : Sys Unit := (Access.setOpenFile f o).call
def newOpenFile (o : OpenFile) : Sys ℕ := (Access.newOpenFile o).call
def getFreeMapFile : Sys ℕ := Access.getFreeMapFile.call
def setFreeMapFile (f : ℕ) : Sys Unit := (Access.setFreeMapFile f).call
def getDirectoryFile : Sys ℕ := Access.getDirectoryFile.call
def setDirectoryFile (f : ℕ) : Sys Unit := (Access.setDirectoryFile f).call
def getDirectorySize : Sys ℕ := Access.getDirectorySize.call
def setDirectorySize (n : ℕ) : Sys Unit := (Access.setDirectorySize n).call
def newLock : Sys ℕ := Access.newLock.call
def getHeap : Sys (ℕ → UInt8) := Access.getHeap.call
def acquire (l : ℕ) : Sys Unit := (Access.acquire l).call
def release (l : ℕ) : Sys Unit := (Access.release l).call
def awaitMessage : Sys Unit := Access.awaitMessage.call
def fail : Sys Unit := Access.fail.call

/-- `ASSERT`. -/
def assert (c : Prop) [Decidable c] : Sys Unit := if c then pure () else fail

/-- `Acquire` through a pointer. -/
def acquireAt : Option ℕ → Sys Unit
  | some l => acquire l
  | none => fail

/-- `Release` through a pointer. -/
def releaseAt : Option ℕ → Sys Unit
  | some l => release l
  | none => fail

end Sys

open Sys

/-! ## File headers -/

namespace RawFileHeader

/-- A header just allocated, with `numBytes`, `numSectors` and `nextFileHeader` set to 0. -/
def empty : RawFileHeader := ⟨0, 0, fun _ => 0, 0⟩

/-- `-1` as an `unsigned`. -/
def minusOne : ℕ := 4294967295

/-- The loop of `Allocate`: `n` data sectors, from index `i` on. -/
def takeSectors (h : RawFileHeader) (freeMap : Bitmap) (i : ℕ) : ℕ → RawFileHeader × Bitmap
  | 0 => (h, freeMap)
  | n + 1 =>
      match freeMap.find with
      | some (sector, freeMap) =>
          takeSectors { h with dataSectors := Function.update h.dataSectors i sector } freeMap
            (i + 1) n
      | none =>
          takeSectors { h with dataSectors := Function.update h.dataSectors i minusOne } freeMap
            (i + 1) n

/-- `FileHeader::Allocate`.  The size is checked first; the header is changed even where
there is no space.  The loop does not survive an index past the end of the header. -/
def allocate (h : RawFileHeader) (freeMap : Bitmap) (fileSize : ℕ) :
    Option (Bool × RawFileHeader × Bitmap) :=
  if fileSize ≤ (headerBytes + 2 ^ 32 - h.numBytes) % 2 ^ 32 then
    let numBytes := (h.numBytes + fileSize) % 2 ^ 32
    let newSectors := (divRoundUp numBytes sectorSize + 2 ^ 32 - h.numSectors) % 2 ^ 32
    let grown := { h with
      numBytes := numBytes
      numSectors := divRoundUp numBytes sectorSize }
    if newSectors ≠ 0 ∧ freeMap.countClear < newSectors then some (false, grown, freeMap)
    else if numDirect < grown.numSectors ∧ h.numSectors < grown.numSectors then none
    else some (true, takeSectors grown freeMap h.numSectors (grown.numSectors - h.numSectors))
  else none

/-- `FileHeader::Deallocate`, of the data sectors from index `i` on. -/
def deallocateFrom (h : RawFileHeader) (freeMap : Bitmap) (i : ℕ) : ℕ → Option Bitmap
  | 0 => some freeMap
  | n + 1 =>
      if h.dataSectors i < PaldOs.numSectors ∧ freeMap (h.dataSectors i) = true then
        deallocateFrom h (freeMap.clear (h.dataSectors i)) (i + 1) n
      else none

/-- `FileHeader::Deallocate`. -/
def deallocate (h : RawFileHeader) (freeMap : Bitmap) : Option Bitmap :=
  h.deallocateFrom freeMap 0 h.numSectors

/-- `FileHeader::ByteToSector`. -/
def byteToSector (h : RawFileHeader) (offset : ℕ) : ℕ := h.dataSectors (offset / sectorSize)

end RawFileHeader

/-! ## Open files -/

namespace OpenFile

/-- The lock there is, or a new one. -/
def lockOrNew : Option ℕ → Sys ℕ
  | some l => return l
  | none => newLock

/-- The locks of a file that nobody has open. -/
def makeLocks (sector : ℕ) : Sys Unit := do
  let e ← getEntry sector
  if e.count = 0 then
    let writeLock ← newLock
    let removeLock ← lockOrNew e.removeLock
    let closeLock ← lockOrNew e.closeLock
    setEntry sector { e with
      writeLock := some writeLock
      removeLock := some removeLock
      closeLock := some closeLock }

/-- The constructor of `OpenFile`. -/
def make (sector : ℕ) : Sys ℕ := do
  let data ← readSector sector
  makeLocks sector
  let e ← getEntry sector
  setEntry sector { e with count := e.count + 1 }
  newOpenFile ⟨sector, sector, 0, .ofSector data⟩

/-- The destructor of `OpenFile`, `Close`.  The last one to close a file that is being
removed sends a message to the remover and waits until it is received. -/
def close (f : ℕ) : Sys Unit := do
  let o ← getOpenFile f
  let e ← getEntry o.sector
  acquireAt e.closeLock
  let e ← getEntry o.sector
  if 0 < e.count then
    setEntry o.sector { e with count := e.count - 1 }
    let e ← getEntry o.sector
    releaseAt e.closeLock
    let e ← getEntry o.sector
    if e.count = 0 ∧ e.removing = true then awaitMessage
  else
    releaseAt e.closeLock

/-- `hdr->FetchFrom(sector)`. -/
def fetchHeader (f sector : ℕ) : Sys Unit := do
  let data ← readSector sector
  let o ← getOpenFile f
  setOpenFile f { o with hdr := .ofSector data }

/-- `hdr->WriteBack(sector)`. -/
def writeBackHeader (f sector : ℕ) : Sys Unit := do
  let o ← getOpenFile f
  writeSector sector o.hdr.toSector

/-- The loop of `ReadAt`: sectors `i`, `i + 1`, ... of the file. -/
def readSectors (f : ℕ) (buf : ℕ → UInt8) (offset i : ℕ) : ℕ → Sys (ℕ → UInt8)
  | 0 => pure buf
  | n + 1 => do
      let o ← getOpenFile f
      let data ← readSector (o.hdr.byteToSector (i * sectorSize))
      readSectors f (blit buf offset sectorSize data) (offset + sectorSize) (i + 1) n

/-- `OpenFile::ReadAt`: how many bytes are read, and the bytes. -/
def readAt (f numBytes position : ℕ) : Sys (ℕ × (ℕ → UInt8)) := do
  assert (0 < numBytes)
  let o ← getOpenFile f
  let fileLength := o.hdr.numBytes
  if fileLength ≤ position then return (0, fun _ => 0)
  let numBytes :=
    if fileLength < (position + numBytes) % 2 ^ 32 then fileLength - position else numBytes
  let firstSector := position / sectorSize
  let lastSector := (position + numBytes + 2 ^ 32 - 1) % 2 ^ 32 / sectorSize
  let size := (1 + lastSector + 2 ^ 32 - firstSector) * sectorSize % 2 ^ 32
  let buf ← readSectors f (fun _ => 0) 0 firstSector (lastSector + 1 - firstSector)
  assert (position - firstSector * sectorSize + numBytes ≤ size)
  return (numBytes, fun i => buf (position - firstSector * sectorSize + i))

/-- The loop of `WriteAt`. -/
def writeSectors (f : ℕ) (buf : ℕ → UInt8) (offset i : ℕ) : ℕ → Sys Unit
  | 0 => pure ()
  | n + 1 => do
      let o ← getOpenFile f
      writeSector (o.hdr.byteToSector (i * sectorSize)) (fun j => buf (offset + j))
      writeSectors f buf (offset + sectorSize) (i + 1) n

/-- A sector of the file is read into the buffer, if it is `needed`. -/
def readPartial (f : ℕ) (needed : Bool) (buf : ℕ → UInt8) (offset sector : ℕ) :
    Sys (ℕ → UInt8) :=
  if needed then do
    let (n, data) ← readAt f sectorSize (sector * sectorSize)
    return blit buf offset n data
  else return buf

/-- `OpenFile::WriteAt`: how many bytes are written. -/
def writeAt (f : ℕ) (fromBuffer : ℕ → UInt8) (numBytes position : ℕ) : Sys ℕ := do
  assert (0 < numBytes)
  let o ← getOpenFile f
  let fileLength := o.hdr.numBytes
  if fileLength ≤ position then return 0
  let numBytes :=
    if fileLength < (position + numBytes) % 2 ^ 32 then fileLength - position else numBytes
  let firstSector := position / sectorSize
  let lastSector := (position + numBytes + 2 ^ 32 - 1) % 2 ^ 32 / sectorSize
  let size := (1 + lastSector + 2 ^ 32 - firstSector) * sectorSize % 2 ^ 32
  let firstAligned : Bool := position == firstSector * sectorSize
  let lastAligned : Bool := (position + numBytes) % 2 ^ 32 == (lastSector + 1) * sectorSize
  -- the first and the last sector are read if they are to be partially modified
  let buf ← readPartial f (!firstAligned) (fun _ => 0) 0 firstSector
  let buf ← readPartial f (!lastAligned && (firstSector != lastSector || firstAligned)) buf
    ((lastSector - firstSector) * sectorSize) lastSector
  assert (position - firstSector * sectorSize + numBytes ≤ size)
  let buf := blit buf (position - firstSector * sectorSize) numBytes fromBuffer
  writeSectors f buf 0 firstSector (lastSector + 1 - firstSector)
  return numBytes

/-- The loop of `Read`: the headers from `nextSector` on, until `numBytes` are read.  The
headers of a file are at most as many as the sectors of the disk. -/
def readNext (f : ℕ) : ℕ → ℕ → (ℕ → UInt8) → ℕ → ℕ → Sys (ℕ × (ℕ → UInt8))
  | 0, _, into, result, _ => do
      fail
      return (result, into)
  | fuel + 1, nextSector, into, result, numBytes =>
      if nextSector ≠ 0 ∧ 0 < numBytes then do
        let o ← getOpenFile f
        setOpenFile f { o with seekPosition := 0 }
        fetchHeader f nextSector
        let o ← getOpenFile f
        let (n, data) ← readAt f numBytes o.seekPosition
        let o ← getOpenFile f
        setOpenFile f { o with seekPosition := (o.seekPosition + n) % 2 ^ 32 }
        let o ← getOpenFile f
        readNext f fuel o.hdr.nextFileHeader (blit into result n data) (result + n) (numBytes - n)
      else return (result, into)

/-- A directory is read from its start, by the header on disk. -/
def rewindRead (f : ℕ) (isDirectory : Bool) : Sys Unit :=
  if isDirectory then do
    let o ← getOpenFile f
    fetchHeader f o.sector
    let o ← getOpenFile f
    setOpenFile f { o with seekPosition := 0 }
  else return ()

/-- `OpenFile::Read`: how many bytes are read, and the buffer. -/
def read (f : ℕ) (into : ℕ → UInt8) (numBytes : ℕ) (isDirectory : Bool) :
    Sys (ℕ × (ℕ → UInt8)) := do
  assert (0 < numBytes)
  rewindRead f isDirectory
  let o ← getOpenFile f
  let (n, data) ← readAt f numBytes o.seekPosition
  let after ← getOpenFile f
  setOpenFile f { after with seekPosition := (after.seekPosition + n) % 2 ^ 32 }
  if o.hdr.numBytes < (o.seekPosition + numBytes) % 2 ^ 32 then
    let after ← getOpenFile f
    readNext f (numSectors + 1) after.hdr.nextFileHeader (blit into 0 n data) n (numBytes - n)
  else return (n, blit into 0 n data)

end OpenFile

/-! ## The free map -/

/-- `freeMap->FetchFrom(freeMapFile)`, into a new bitmap. -/
def fetchFreeMap : Sys Bitmap := do
  let f ← getFreeMapFile
  let (n, map) ← OpenFile.readAt f freeMapFileSize 0
  return Bitmap.ofBytes (blit (fun _ => 0) 0 n map)

/-- `freeMap->WriteBack(freeMapFile)`. -/
def writeBackFreeMap (freeMap : Bitmap) : Sys Unit := do
  let f ← getFreeMapFile
  let _ ← OpenFile.writeAt f freeMap.toBytes freeMapFileSize 0

/-! ## Writing -/

/-- The local variables of `Write`: its copy of the free map, the bytes still to be
written and the number of those written. -/
structure Pending where
  freeMap : Bitmap
  fromBuffer : ℕ → UInt8
  numBytes : ℕ
  result : ℕ
  success : Bool

/-- `n` more bytes are written. -/
def Pending.advance (w : Pending) (n : ℕ) : Pending :=
  { w with
    fromBuffer := fun i => w.fromBuffer (n + i)
    numBytes := w.numBytes - n
    result := w.result + n }

namespace OpenFile

/-- Space for more bytes in the header in memory, which is that of `sector`: the free map
and the header are flushed if there is. -/
def growHeader (f sector bytesToAllocate : ℕ) (w : Pending) : Sys Pending := do
  let o ← getOpenFile f
  match o.hdr.allocate w.freeMap bytesToAllocate with
  | none =>
      fail
      return w
  | some (false, hdr, freeMap) =>
      setOpenFile f { o with hdr := hdr }
      return { w with freeMap := freeMap, success := false }
  | some (true, hdr, freeMap) =>
      setOpenFile f { o with hdr := hdr }
      writeBackFreeMap freeMap
      writeBackHeader f sector
      return { w with freeMap := freeMap }

/-- The header in memory gets space for `target` bytes, if it has less. -/
def growTo (f sector target : ℕ) (w : Pending) : Sys Pending := do
  let o ← getOpenFile f
  if o.hdr.numBytes < target then growHeader f sector (target - o.hdr.numBytes) w else return w

/-- `bytesToWrite` bytes are written at the seek position, which moves on. -/
def transfer (f bytesToWrite : ℕ) (w : Pending) : Sys Pending := do
  let o ← getOpenFile f
  let n ← writeAt f w.fromBuffer bytesToWrite o.seekPosition
  let o ← getOpenFile f
  setOpenFile f { o with seekPosition := o.seekPosition + n }
  return w.advance n

/-- The first part of `Write`: what fits in the current header. -/
def writeCurrent (f : ℕ) (w : Pending) : Sys Pending := do
  let o ← getOpenFile f
  let maxBytesToWrite := (headerBytes + 2 ^ 32 - o.seekPosition) % 2 ^ 32
  let bytesToWrite := min w.numBytes maxBytesToWrite
  if 0 < bytesToWrite then
    let w ← growTo f o.currentSector ((o.seekPosition + bytesToWrite) % 2 ^ 32) w
    if w.success then transfer f bytesToWrite w else return w
  else return w

/-- The second part of `Write`: the headers after the current one.  Every turn writes at
least one byte. -/
def writeNext (f : ℕ) : ℕ → ℕ → Pending → Sys Pending
  | 0, _, w => do
      fail
      return w
  | fuel + 1, iterFh, w =>
      if 0 < w.numBytes ∧ iterFh ≠ 0 then do
        fetchHeader f iterFh
        let bytesToWrite := min w.numBytes headerBytes
        let w ← growTo f iterFh bytesToWrite w
        if w.success then
          let o ← getOpenFile f
          setOpenFile f { o with currentSector := iterFh, seekPosition := 0 }
          let w ← transfer f bytesToWrite w
          let o ← getOpenFile f
          writeNext f fuel o.hdr.nextFileHeader w
        else return w
      else return w

/-- Sectors for new headers, the free map flushed after each. -/
def reserve (freeMap : Bitmap) : ℕ → Sys (List ℕ × Bitmap)
  | 0 => return ([], freeMap)
  | n + 1 =>
      match freeMap.find with
      | some (sector, freeMap) => do
          writeBackFreeMap freeMap
          let (sectors, freeMap) ← reserve freeMap n
          return (sector :: sectors, freeMap)
      | none => do
          fail
          return ([], freeMap)

/-- A new header, with its data, at `sector`, linked from the header in memory, which is
that of `previous`. -/
def appendHeader (f previous sector : ℕ) (hdr : RawFileHeader) (bytes : ℕ) (w : Pending) :
    Sys Pending := do
  writeBackFreeMap w.freeMap
  writeSector sector hdr.toSector
  let o ← getOpenFile f
  setOpenFile f { o with hdr := { o.hdr with nextFileHeader := sector } }
  writeBackHeader f previous
  let o ← getOpenFile f
  setOpenFile f { o with hdr := hdr, seekPosition := 0 }
  transfer f bytes w

/-- The loop of the third part of `Write`, after the header at `previous`.  It returns the
last header that was written.  Those that were not are cleared in the copy of the
free map, which nobody writes back. -/
def writeHeaders (f previous : ℕ) : List ℕ → Pending → Sys (ℕ × Pending)
  | [], w => return (previous, w)
  | sector :: rest, w => do
      let bytesToAllocate := min w.numBytes headerBytes
      let bytesToAllocate :=
        if w.freeMap.countClear < divRoundUp bytesToAllocate sectorSize then
          w.freeMap.countClear * sectorSize
        else bytesToAllocate
      if 0 < bytesToAllocate then
        match RawFileHeader.empty.allocate w.freeMap bytesToAllocate with
        | none =>
            fail
            return (previous, w)
        | some (false, _, _) => return (previous, { w with success := false })
        | some (true, hdr, freeMap) =>
            let w ← appendHeader f previous sector hdr bytesToAllocate { w with freeMap := freeMap }
            writeHeaders f sector rest w
      else return (previous, { w with success := false })

/-- The third part of `Write`: new headers. -/
def writeNew (f : ℕ) (w : Pending) : Sys Pending := do
  let totalSectors := divRoundUp w.numBytes sectorSize
  let fileHeaderSectors := divRoundUp totalSectors numDirect
  if w.freeMap.countClear < fileHeaderSectors then return w
  let (sectors, freeMap) ← reserve w.freeMap fileHeaderSectors
  match sectors with
  | [] => return w
  | first :: rest =>
      let bytesToAllocate := min w.numBytes headerBytes
      match RawFileHeader.empty.allocate freeMap bytesToAllocate with
      | none =>
          fail
          return w
      | some (false, _, _) => return w
      | some (true, hdr, freeMap) =>
          let o ← getOpenFile f
          let w ← appendHeader f o.currentSector first hdr bytesToAllocate
            { w with freeMap := freeMap }
          let (last, w) ← writeHeaders f first rest w
          let o ← getOpenFile f
          setOpenFile f { o with currentSector := last }
          return w

/-- What comes after the first part of `Write`, if it went well. -/
def writeBeyond (f : ℕ) (w : Pending) : Sys Pending :=
  if w.success then do
    let o ← getOpenFile f
    let w ← writeNext f (w.numBytes + 1) o.hdr.nextFileHeader w
    if w.success && 0 < w.numBytes then writeNew f w else return w
  else return w

/-- A directory is written from its start. -/
def rewindWrite (f : ℕ) (isDirectory : Bool) : Sys Unit :=
  if isDirectory then do
    let o ← getOpenFile f
    setOpenFile f { o with seekPosition := 0, currentSector := o.sector }
  else return ()

/-- `OpenFile::Write`: how many bytes are written. -/
def write (f : ℕ) (fromBuffer : ℕ → UInt8) (numBytes : ℕ) (isDirectory : Bool) : Sys ℕ := do
  assert (0 < numBytes)
  let o ← getOpenFile f
  let e ← getEntry o.sector
  acquireAt e.writeLock
  rewindWrite f isDirectory
  let o ← getOpenFile f
  fetchHeader f o.currentSector
  let freeMap ← fetchFreeMap
  let w ← writeCurrent f ⟨freeMap, fromBuffer, numBytes, 0, true⟩
  let w ← writeBeyond f w
  let e ← getEntry o.sector
  releaseAt e.writeLock
  return w.result

end OpenFile
end PaldOs
