import PaldOs.Directory

/-! # The file system

The operations of `FileSystem` as programs.  The current directory is an `OpenFile` object,
`directoryFile`, and the number of entries its table is expected to have, `directorySize`.

An absolute path makes `Create` and `CreateDir` change the current directory and, at the end,
change it back; they hold `filesysCreateLock` all the time, which nobody else takes.  `ChangeDir`
follows an absolute path from the root, one open file after the other.
-/
namespace PaldOs

open Sys

/-- The character `'/'`. -/
def slash : UInt8 := 47

/-- `strtok_r` with the delimiter `"/"`, until there are no more tokens. -/
def tokens (path : List UInt8) : List (List UInt8) :=
  (path.splitOn slash).filter (fun token => !token.isEmpty)

/-- Where the last `'/'` of the path is. -/
def lastSlashFound (path : List UInt8) : ℕ :=
  path.length - 1 - (path.reverse.findIdx (· == slash))

namespace FileSystem

/-- The constructor of `FileSystem`, on a disk that is formatted. -/
def boot : Sys Unit := do
  let freeMapFile ← OpenFile.make freeMapSector
  setFreeMapFile freeMapFile
  let directoryFile ← OpenFile.make directorySector
  setDirectoryFile directoryFile
  let size ← Directory.tableSize directoryFile
  setDirectorySize size

/-- The table of the current directory. -/
def currentTable : Sys Directory := do
  let size ← getDirectorySize
  let directoryFile ← getDirectoryFile
  let (_, dir) ← Directory.fetchFrom directoryFile size
  return dir

/-- `FileSystem::Open`. -/
def openFile (name : List UInt8) : Sys (Option ℕ) := do
  let dir ← currentTable
  match dir.find name with
  | none => return none
  | some sector =>
      let e ← getEntry sector
      if e.removing then return none
      else
        let f ← OpenFile.make sector
        return some f

/-- The result of `Open`, where it is used without a check. -/
def openExisting (name : List UInt8) : Sys ℕ := do
  match ← openFile name with
  | some f => return f
  | none =>
      fail
      return 0

/-- The number of entries of the current directory is found out again. -/
def refreshSize : Sys ℕ := do
  let directoryFile ← getDirectoryFile
  let size ← Directory.tableSize directoryFile
  setDirectorySize size
  return size

/-! ## Changing the directory -/

/-- The loop of `ChangeDir` over an absolute path, with the table of the directory it is in. -/
def walk (currDir : Directory) : List (List UInt8) → Sys Bool
  | [] => return true
  | name :: rest =>
      if currDir.findDir name then do
        let previous ← getDirectoryFile
        let next ← openExisting name
        setDirectoryFile next
        OpenFile.close previous
        let size ← refreshSize
        let directoryFile ← getDirectoryFile
        let (_, currDir) ← Directory.fetchFrom directoryFile size
        walk currDir rest
      else return false

/-- The end of `ChangeDir` with an absolute path.  The directory it started from is closed only
after a change that stays; without success it is the current directory again. -/
def endWalk (success onlyChange : Bool) (backupDirFile backupDirSize : ℕ) : Sys Unit :=
  if success then
    if onlyChange then OpenFile.close backupDirFile else return ()
  else do
    setDirectoryFile backupDirFile
    setDirectorySize backupDirSize

/-- `FileSystem::ChangeDir` with an absolute path, which comes without its first character. -/
def changeDirFromRoot (path : List UInt8) (onlyChange : Bool) : Sys Bool := do
  assert (path.length < filePathMaxLen)
  assert ((tokens path).length < maxDirLevel)
  let backupDirFile ← getDirectoryFile
  let backupDirSize ← getDirectorySize
  let rootDirFile ← OpenFile.make directorySector
  let size ← Directory.tableSize rootDirFile
  let (_, currDir) ← Directory.fetchFrom rootDirFile size
  setDirectoryFile rootDirFile
  setDirectorySize size
  let success ← walk currDir (tokens path)
  endWalk success onlyChange backupDirFile backupDirSize
  return success

/-- `FileSystem::ChangeDir`. -/
def changeDir (name : List UInt8) (onlyChange : Bool) : Sys Bool :=
  if name.head? = some slash then changeDirFromRoot name.tail onlyChange
  else do
    let dir ← currentTable
    if dir.findDir name then
      let next ← openExisting name
      let previous ← getDirectoryFile
      setDirectoryFile next
      OpenFile.close previous
      let _ ← refreshSize
      return true
    else return false

/-! ## Creating files and directories -/

/-- The change to the directory in which `Create` and `CreateDir` work: the name that is left of
the path, and the directory to come back to.  The root cannot be created. -/
def enterParent (name : List UInt8) : Sys (Option (List UInt8 × Option ℕ)) :=
  if name.head? = some slash then
    if name.tail = [] then return none
    else do
      assert (name.length < filePathMaxLen)
      let directoryFileBackup ← getDirectoryFile
      let found ← changeDir (if lastSlashFound name = 0 then [slash]
        else name.take (lastSlashFound name)) false
      if found then return some (name.drop (lastSlashFound name + 1), some directoryFileBackup)
      else return none
  else return some (name, none)

/-- The way back. -/
def leaveParent : Option ℕ → Sys Unit
  | none => return ()
  | some directoryFileBackup => do
      let temporary ← getDirectoryFile
      setDirectoryFile directoryFileBackup
      OpenFile.close temporary
      let _ ← refreshSize

/-- The entry of `openFilesTable` of a new file. -/
def resetEntry (sector : ℕ) : Sys Unit := do
  let removeLock ← newLock
  setEntry sector ⟨some removeLock, none, none, false, false, 0⟩

/-- What `Create` stores of a new file: its header, the free map and the directory. -/
def storeFile (sector : ℕ) (freeMap : Bitmap) (dir : Directory) : Sys (Option Bool) := do
  writeSector sector RawFileHeader.empty.toSector
  writeBackFreeMap freeMap
  let directoryFile ← getDirectoryFile
  dir.writeBack directoryFile
  resetEntry sector
  return some true

/-- What `CreateDir` stores of a new directory.  It returns at once, `none` here, if there is no
space for the entries; the file of the new directory stays open. -/
def storeDirectory (sector : ℕ) (freeMap : Bitmap) (dir : Directory) : Sys (Option Bool) :=
  match RawFileHeader.empty.allocate freeMap directoryFileSize with
  | none => do
      fail
      return none
  | some (false, _, _) => return none
  | some (true, dirHeader, freeMap) => do
      writeSector sector dirHeader.toSector
      writeBackFreeMap freeMap
      let newDirectoryFile ← OpenFile.make sector
      let heap ← getHeap
      (Directory.new heap numDirEntries).writeBackFirst newDirectoryFile
      let directoryFile ← getDirectoryFile
      dir.writeBack directoryFile
      resetEntry sector
      return some true

/-- The name is added, if it is new: a sector for the header, the entry in the directory, and
what `store` does with them.  The entry is added in memory even where there is no sector. -/
def addFile (dir : Directory) (name : List UInt8) (isDirectory : Bool)
    (store : ℕ → Bitmap → Directory → Sys (Option Bool)) : Sys (Option Bool) :=
  if (dir.find name).isSome then return some false
  else do
    let freeMap ← fetchFreeMap
    match freeMap.find with
    | none =>
        let _ ← dir.add name RawFileHeader.minusOne isDirectory
        return some false
    | some (sector, freeMap) =>
        match ← dir.add name sector isDirectory with
        | none => return some false
        | some dir => store sector freeMap dir

/-- The end of `Create` and `CreateDir`.  After an early return of `store` the lock is given back,
and nothing else. -/
def endCreate (backup : Option ℕ) : Option Bool → Sys Bool
  | none => do
      release filesysCreateLock
      return false
  | some success => do
      leaveParent backup
      release filesysCreateLock
      return success

/-- What `Create` and `CreateDir` have in common. -/
def createWith (isDirectory : Bool) (store : ℕ → Bitmap → Directory → Sys (Option Bool))
    (name : List UInt8) : Sys Bool := do
  acquire filesysCreateLock
  match ← enterParent name with
  | none =>
      release filesysCreateLock
      return false
  | some (name, backup) =>
      let dir ← currentTable
      let result ← addFile dir name isDirectory store
      endCreate backup result

/-- `FileSystem::Create`. -/
def create (name : List UInt8) : Sys Bool := createWith false storeFile name

/-- `FileSystem::CreateDir`. -/
def createDir (name : List UInt8) : Sys Bool := createWith true storeDirectory name

/-! ## Removing -/

/-- `Acquire` of a lock that may not be there. -/
def acquireIfAny : Option ℕ → Sys Unit
  | some l => acquire l
  | none => return ()

/-- `Release` of a lock that may not be there. -/
def releaseIfAny : Option ℕ → Sys Unit
  | some l => release l
  | none => return ()

/-- The sectors of a header, and the header's own, are cleared. -/
def clearHeader (header : RawFileHeader) (sector : ℕ) (freeMap : Bitmap) : Sys Bitmap :=
  match header.deallocate freeMap with
  | some freeMap => return freeMap.clear sector
  | none => do
      fail
      return freeMap

/-- The loop of `Remove` over the headers after the first. -/
def clearNext : ℕ → ℕ → Bitmap → Sys Bitmap
  | 0, _, freeMap => do
      fail
      return freeMap
  | fuel + 1, nextSector, freeMap =>
      if nextSector ≠ 0 then do
        let data ← readSector nextSector
        let freeMap ← clearHeader (.ofSector data) nextSector freeMap
        clearNext fuel (RawFileHeader.ofSector data).nextFileHeader freeMap
      else return freeMap

/-- The remover of a file that is open waits for the last one to close it. -/
def awaitClosed (sector : ℕ) : Sys Unit := do
  let e ← getEntry sector
  if 0 < e.count then awaitMessage else return ()

/-- `Remove`, from where it has the lock and the file is still there. -/
def removeFile (dir : Directory) (name : List UInt8) (sector : ℕ) : Sys Bool := do
  let data ← readSector sector
  let freeMap ← fetchFreeMap
  let e ← getEntry sector
  setEntry sector { e with removing := true }
  awaitClosed sector
  let freeMap ← clearHeader (.ofSector data) sector freeMap
  let freeMap ← clearNext (numSectors + 1) (RawFileHeader.ofSector data).nextFileHeader freeMap
  writeBackFreeMap freeMap
  let directoryFile ← getDirectoryFile
  (dir.remove name).writeBack directoryFile
  let e ← getEntry sector
  setEntry sector { e with removed := true }
  let e ← getEntry sector
  releaseIfAny e.removeLock
  let e ← getEntry sector
  setEntry sector { e with removing := false }
  return true

/-- `FileSystem::Remove`. -/
def remove (name : List UInt8) (callingFromRemoveDir : Bool) : Sys Bool := do
  let dir ← currentTable
  match dir.find name with
  | none => return false
  | some sector =>
      if dir.findDir name && !callingFromRemoveDir then return false
      else
        let e ← getEntry sector
        acquireIfAny e.removeLock
        let e ← getEntry sector
        if e.removed then
          releaseAt e.removeLock
          return false
        else removeFile dir name sector

/-- `FileSystem::RemoveDir`. -/
def removeDir (name : List UInt8) : Sys ℤ := do
  let dir ← currentTable
  if dir.findDir name then
    let directoryFileToRemove ← openExisting name
    let size ← Directory.tableSize directoryFileToRemove
    let (_, dirToRemove) ← Directory.fetchFrom directoryFileToRemove size
    if dirToRemove.any DirectoryEntry.inUse then
      OpenFile.close directoryFileToRemove
      return -1
    else
      OpenFile.close directoryFileToRemove
      let _ ← remove name true
      return 0
  else return -2

/-- `FileSystem::Ls`. -/
def ls : Sys (List UInt8) := do
  let dir ← currentTable
  return dir.printNames

/-! ## The consistency checker -/

/-- `CheckSector`: whether there is an error, and the shadow map. -/
def checkSector (sector : ℕ) (shadowMap : Bitmap) : Bool × Bitmap :=
  if sector < numSectors then (shadowMap sector, shadowMap.mark sector) else (true, shadowMap)

/-- The loop of `CheckFileHeader` over the data sectors. -/
def checkSectors (sectors : List ℕ) (shadowMap : Bitmap) : Bool × Bitmap :=
  sectors.foldl (fun r sector =>
    (r.1 || (checkSector sector r.2).1, (checkSector sector r.2).2)) (false, shadowMap)

/-- `CheckFileHeader`. -/
def checkFileHeader (rh : RawFileHeader) (shadowMap : Bitmap) : Bool × Bitmap :=
  let r := checkSectors ((List.range rh.numSectors).map rh.dataSectors) shadowMap
  (!(decide (divRoundUp rh.numBytes sectorSize ≤ rh.numSectors) &&
    decide (rh.numSectors < numDirect)) || r.1, r.2)

/-- The loop of `CheckDirectory`, with the names it has seen. -/
def checkEntries : List DirectoryEntry → List (List UInt8) → Bool → Bitmap → Sys (Bool × Bitmap)
  | [], _, error, shadowMap => return (error, shadowMap)
  | e :: rest, knownNames, error, shadowMap =>
      if e.inUse then do
        let tooLong : Bool := decide (fileNameMaxLen < e.string.length)
        let repeated : Bool := knownNames.contains e.string
        let (bad, shadowMap) := checkSector e.sector shadowMap
        let data ← readSector e.sector
        let (badHeader, shadowMap) := checkFileHeader (.ofSector data) shadowMap
        checkEntries rest (if repeated then knownNames else knownNames ++ [e.string])
          (error || tooLong || repeated || bad || badHeader) shadowMap
      else checkEntries rest knownNames error shadowMap

/-- `CheckDirectory`.  It looks at `NUM_DIR_ENTRIES` entries, however many there are. -/
def checkDirectory (dir : Directory) (shadowMap : Bitmap) : Sys (Bool × Bitmap) := do
  assert (numDirEntries ≤ dir.length)
  checkEntries (dir.take numDirEntries) [] false shadowMap

/-- `CheckBitmaps`. -/
def checkBitmaps (freeMap shadowMap : Bitmap) : Bool :=
  (List.range numSectors).any (fun i => freeMap i != shadowMap i)

/-- `FileSystem::Check`. -/
def check : Sys Bool := do
  let shadowMap := Bitmap.mark (Bitmap.mark (fun _ => false) freeMapSector) directorySector
  let bitData ← readSector freeMapSector
  let bitH := RawFileHeader.ofSector bitData
  let badSize : Bool := bitH.numBytes != freeMapFileSize ||
    bitH.numSectors != freeMapFileSize / sectorSize
  let (badMap, shadowMap) := checkFileHeader bitH shadowMap
  let dirData ← readSector directorySector
  let (badRoot, shadowMap) := checkFileHeader (.ofSector dirData) shadowMap
  let freeMap ← fetchFreeMap
  let dir ← currentTable
  let (badDirectory, shadowMap) ← checkDirectory dir shadowMap
  return !(badSize || badMap || badRoot || badDirectory || checkBitmaps freeMap shadowMap)

end FileSystem
end PaldOs
