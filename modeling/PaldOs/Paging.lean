import PaldOs.Table
import PaldOs.Bytes
import PaldOs.Runs

/-! # Virtual memory with a TLB, demand loading and swap

The build with `USE_TLB`, `DEMAND_LOADING` and `SWAP`: the page tables of the
address spaces, the TLB of the machine, the core map and the bitmap of the frames,
main memory and the swap files, with the operations that move them: `ReadMem` and
`WriteMem` of the MMU, the page-fault handler with `LoadPage` and `EvacuatePage`,
`SaveState` and `RestoreState` at a context switch, and the constructor and
destructor of an address space.

A thread is named by a number, its address in the source.  `runningProcesses`
gives a thread its `spaceId` when the thread is made and is never told when it is
destroyed.  The victim of an eviction is left open: `PickVictim` has three
policies, and nothing below depends on which.  `none` stands for what the source
does not survive: a failed assertion, a null `space`, a thread already deleted.
-/
namespace PaldOs

/-! ## Constants -/

/-- `PAGE_SIZE`. -/
def pageSize : ℕ := 128

/-- `NUM_PHYS_PAGES`. -/
def numPhysPages : ℕ := 16

/-- `TLB_SIZE`. -/
def tlbSize : ℕ := 8

/-- `INT_MAX`, the frame of a page that is not in main memory. -/
def intMax : ℕ := 2147483647

/-- `USER_STACK_SIZE`. -/
def userStackSize : ℕ := 2048

/-! ## Tables -/

/-- An entry of a page table or of the TLB. -/
structure TranslationEntry where
  virtualPage : ℕ
  physicalPage : ℕ
  valid : Bool
  readOnly : Bool
  use : Bool
  dirty : Bool
deriving DecidableEq

/-- What a frame is used for. -/
structure CoreMapEntry where
  spaceId : ℤ
  virtualPage : ℕ
deriving DecidableEq

/-- A segment of a NOFF file. -/
structure NoffSegment where
  virtualAddr : ℕ
  inFileAddr : ℕ
  size : ℕ

/-- An executable: its header and the whole file. -/
structure Executable where
  code : NoffSegment
  initData : NoffSegment
  uninitData : NoffSegment
  file : HostFile

/-- `Executable::GetSize`. -/
def Executable.getSize (exe : Executable) : ℕ :=
  (exe.code.size + exe.initData.size + exe.uninitData.size) % 2 ^ 32

/-- The parts of an address space that its constructor sets for good. -/
structure AddressSpace where
  addressSpaceId : ℤ
  codeSize : ℕ
  initDataSize : ℕ
  dataVirtualAddr : ℕ
  numPages : ℕ
  exeFile : Executable

/-- The constructor of `AddressSpace`. -/
def AddressSpace.make (exe : Executable) (spaceId : ℤ) : AddressSpace where
  addressSpaceId := spaceId
  codeSize := exe.code.size
  initDataSize := exe.initData.size
  dataVirtualAddr := exe.initData.virtualAddr
  numPages := divRoundUp ((exe.getSize + userStackSize) % 2 ^ 32) pageSize
  exeFile := exe

/-- A page-table entry as the constructor makes it. -/
def TranslationEntry.initial (i : ℕ) : TranslationEntry where
  virtualPage := i
  physicalPage := intMax
  valid := false
  readOnly := false
  use := false
  dirty := false

/-- A thread. -/
structure Thread where
  spaceId : ℤ
  numFaults : ℕ
  space : Option AddressSpace

/-- The state of the virtual memory.  `pageTable h` and `openSwapFile h` are those of
the address space of thread `h`. -/
structure Vm where
  runningProcesses : Table ℕ
  nextThread : ℕ
  thread : ℕ → Option Thread
  currentThread : ℕ
  pageTable : ℕ → ℕ → TranslationEntry
  openSwapFile : ℕ → HostFile
  tlb : ℕ → TranslationEntry
  coreMap : ℕ → CoreMapEntry
  addressesBitMap : ℕ → Bool
  mainMemory : ℕ → UInt8

/-- How many bytes are read or written at once. -/
inductive Width where
  | byte
  | half
  | word
deriving DecidableEq

/-- That number. -/
def Width.bytes : Width → ℕ
  | .byte => 1
  | .half => 2
  | .word => 4

/-- What `ReadMem` makes of the bytes at an address: a `char` is signed, a short is not,
and a word is an `int`. -/
def Width.load (mem : ℕ → UInt8) (a : ℕ) : Width → ℤ
  | .byte => Int.bmod (mem a).toNat 256
  | .half => (mem a).toNat + 256 * (mem (a + 1)).toNat
  | .word => Int.bmod ((mem a).toNat + 256 * (mem (a + 1)).toNat + 256 ^ 2 * (mem (a + 2)).toNat +
      256 ^ 3 * (mem (a + 3)).toNat) (2 ^ 32)

/-- The `i`th byte that `WriteMem` makes of a value. -/
def storeByte (value : ℤ) (i : ℕ) : UInt8 := UInt8.ofNat (value / 256 ^ i % 256).toNat

/-- The exceptions of the MMU. -/
inductive ExceptionType where
  | pageFault
  | readOnly
  | busError
  | addressError
deriving DecidableEq

namespace Vm

/-! ## The MMU -/

/-- `MMU::RetrievePageEntry`: the first valid slot of the TLB with the page. -/
def retrievePageEntry (k : Vm) (vpn : ℕ) : Option ℕ :=
  (List.range tlbSize).find? (fun i => (k.tlb i).valid && (k.tlb i).virtualPage == vpn)

/-- The `use` and `dirty` bits of slot `i` are set. -/
def touch (k : Vm) (i : ℕ) (writing : Bool) : Vm :=
  let entry := { k.tlb i with use := true, dirty := (k.tlb i).dirty || writing }
  { k with tlb := Function.update k.tlb i entry }

/-- `MMU::Translate`: the physical address, with the `use` and `dirty` bits set. -/
def translate (k : Vm) (virtAddr : ℕ) (w : Width) (writing : Bool) :
    Except ExceptionType (ℕ × Vm) :=
  if virtAddr % w.bytes ≠ 0 then .error .addressError
  else match k.retrievePageEntry (virtAddr / pageSize) with
    | none => .error .pageFault
    | some i =>
        let entry := k.tlb i
        if entry.readOnly && writing then .error .readOnly
        else if numPhysPages ≤ entry.physicalPage then .error .busError
        else .ok (entry.physicalPage * pageSize + virtAddr % pageSize, k.touch i writing)

/-- `MMU::ReadMem`. -/
def readMem (k : Vm) (addr : ℕ) (w : Width) : Except ExceptionType (ℤ × Vm) := do
  let (physicalAddress, k) ← k.translate addr w false
  return (w.load k.mainMemory physicalAddress, k)

/-- `MMU::WriteMem`. -/
def writeMem (k : Vm) (addr : ℕ) (w : Width) (value : ℤ) : Except ExceptionType Vm := do
  let (physicalAddress, k) ← k.translate addr w true
  return { k with mainMemory := blit k.mainMemory physicalAddress w.bytes (storeByte value) }

/-! ## Page tables and frames -/

/-- The address space of a thread. -/
def space (k : Vm) (h : ℕ) : Option AddressSpace := (k.thread h).bind Thread.space

/-- `*getPageTableEntry(v) = e`. -/
def setEntry (k : Vm) (h v : ℕ) (e : TranslationEntry) : Vm :=
  { k with pageTable := Function.update k.pageTable h (Function.update (k.pageTable h) v e) }

/-- `Bitmap::Find`, on the bitmap of the frames. -/
def find (k : Vm) : Option (ℕ × Vm) :=
  ((List.range numPhysPages).find? (fun f => !k.addressesBitMap f)).map
    (fun f => (f, { k with addressesBitMap := Function.update k.addressesBitMap f true }))

/-- `tlb[i].valid = false; *entry = tlb[i]`, for the entry of page `v`. -/
def saveSlot (k : Vm) (h v i : ℕ) : Vm :=
  ({ k with tlb := Function.update k.tlb i { k.tlb i with valid := false } }).setEntry h v
    { k.tlb i with valid := false }

/-- The loop over the TLB in `SaveState` and in `EvacuatePage`: the slots chosen by `sel`
are saved into the page table of thread `h`, each at its `page`. -/
def saveSlots (k : Vm) (sel : TranslationEntry → Bool) (h : ℕ) (page : Vm → ℕ → ℕ) : Vm :=
  (List.range tlbSize).foldl (fun k i => if sel (k.tlb i) then k.saveSlot h (page k i) i else k) k

/-- The part of `LoadPage` that reads the executable, into a page of memory already
cleared.  None of the sums wraps around: each is at most the length of the file. -/
def readExecutable (s : AddressSpace) (cleared : ℕ → UInt8)
    (physicalAddressToWrite vpnAddressToRead : ℕ) : ℕ → UInt8 :=
  let exe := s.exeFile
  let hasCode := 0 < s.codeSize ∧ vpnAddressToRead < s.codeSize
  let read := if hasCode then min (s.codeSize - vpnAddressToRead) pageSize else 0
  -- a whole page is read even where the code ends inside it
  let withCode :=
    if hasCode then
      exe.file.readAt cleared physicalAddressToWrite pageSize
        (exe.code.inFileAddr + vpnAddressToRead)
    else cleared
  let toRead := min (s.dataVirtualAddr + s.initDataSize - (vpnAddressToRead + read))
    (pageSize - read)
  if 0 < s.initDataSize ∧ vpnAddressToRead + read < s.dataVirtualAddr + s.initDataSize ∧
      read ≠ pageSize then
    if read ≠ 0 then
      exe.file.readAt withCode (physicalAddressToWrite + read) toRead exe.initData.inFileAddr
    else
      exe.file.readAt withCode physicalAddressToWrite toRead
        (exe.initData.inFileAddr + (vpnAddressToRead - s.codeSize))
  else withCode

/-- `AddressSpace::LoadPage`, after its assertions: the frame is cleared and filled from
the swap file, if the page is dirty, or from the executable. -/
def loadPage (k : Vm) (h : ℕ) (s : AddressSpace) (vpnAddress physicalPage : ℕ) : Vm :=
  let physicalAddressToWrite := physicalPage * pageSize
  let cleared := blit k.mainMemory physicalAddressToWrite pageSize (fun _ => 0)
  let vpn := vpnAddress / pageSize
  let vpnAddressToRead := vpn * pageSize
  { k with
    mainMemory :=
      if (k.pageTable h vpn).dirty then
        (k.openSwapFile h).readAt cleared physicalAddressToWrite pageSize (vpn * pageSize)
      else readExecutable s cleared physicalAddressToWrite vpnAddressToRead
    coreMap := Function.update k.coreMap physicalPage ⟨s.addressSpaceId, vpn⟩ }

/-- The part of `EvacuatePage` for a live owner: page `v` of thread `h` leaves frame
`victim`, through the swap file if it is dirty. -/
def takeOut (k : Vm) (h v victim : ℕ) : Vm :=
  let k := k.saveSlots (fun e => e.physicalPage == victim && e.valid) h (fun _ _ => v)
  let entry := k.pageTable h v
  let swapped := (k.openSwapFile h).writeAt
    (fun i => k.mainMemory (victim * pageSize + i)) pageSize (v * pageSize)
  let k :=
    if entry.dirty then { k with openSwapFile := Function.update k.openSwapFile h swapped }
    else k
  k.setEntry h v { entry with physicalPage := intMax, valid := false }

/-- `AddressSpace::EvacuatePage`, with the victim chosen. -/
def evacuatePage (k : Vm) (victim : ℕ) : Option Vm := do
  let victimSpace := (k.coreMap victim).spaceId
  if ← k.runningProcesses.hasKey victimSpace then
    let h ← k.runningProcesses.get victimSpace
    let _ ← k.space h
    return k.takeOut h (k.coreMap victim).virtualPage victim
  else return k

/-- The part of `TLBPageFaultHandler` for a page that is not in memory: it gets a frame,
a free one or that of the victim, and is loaded. -/
def bringIn (k : Vm) (s : AddressSpace) (vpnAddress victim : ℕ) : Option Vm := do
  let cur := k.currentThread
  let vpn := vpnAddress / pageSize
  let (frame, k) ← match k.find with
    | some r => some r
    | none => (k.evacuatePage victim).map (fun k => (victim, k))
  let k := k.setEntry cur vpn { k.pageTable cur vpn with physicalPage := frame }
  return k.loadPage cur s vpnAddress frame

/-- The part of `TLBPageFaultHandler` about the TLB: the slot in turn is saved if it is in
use, and the page takes it. -/
def fillSlot (k : Vm) (t : Thread) (vpn : ℕ) : Vm :=
  let cur := k.currentThread
  let slot := t.numFaults % tlbSize
  let k := if (k.tlb slot).valid then k.saveSlot cur (k.tlb slot).virtualPage slot else k
  { k with
    tlb := Function.update k.tlb slot (k.pageTable cur vpn)
    thread := Function.update k.thread cur (some { t with numFaults := t.numFaults + 1 }) }

/-- `TLBPageFaultHandler`. -/
def pageFaultHandler (k : Vm) (vpnAddress victim : ℕ) : Option Vm := do
  let cur := k.currentThread
  let t ← k.thread cur
  let s ← t.space
  let vpn := vpnAddress / pageSize
  let k := k.setEntry cur vpn { k.pageTable cur vpn with valid := true }
  let k ← if (k.pageTable cur vpn).physicalPage = intMax then k.bringIn s vpnAddress victim
    else some k
  return k.fillSlot t vpn

/-! ## Context switches, construction and destruction -/

/-- `AddressSpace::SaveState`, of the running thread's space. -/
def saveState (k : Vm) : Vm :=
  k.saveSlots TranslationEntry.valid k.currentThread
    (fun k i => (k.coreMap (k.tlb i).physicalPage).virtualPage)

/-- `AddressSpace::RestoreState`. -/
def restoreState (k : Vm) : Vm :=
  { k with tlb := fun i => if i < tlbSize then { k.tlb i with valid := false } else k.tlb i }

/-- The parts of `Scheduler::Run` about address spaces. -/
def switch (k : Vm) (next : ℕ) : Option Vm := do
  let _ ← k.thread next
  let k := if (k.space k.currentThread).isSome then k.saveState else k
  let k := { k with currentThread := next }
  return if (k.space next).isSome then k.restoreState else k

/-- The constructor of `Thread`, which asks for a `spaceId`. -/
def newThread (k : Vm) : Vm :=
  let (spaceId, runningProcesses) := k.runningProcesses.add k.nextThread
  { k with
    runningProcesses := runningProcesses
    nextThread := k.nextThread + 1
    thread := Function.update k.thread k.nextThread (some ⟨spaceId, 0, none⟩) }

/-- `space = new AddressSpace(executable, spaceId)` for thread `h`, with an empty swap
file. -/
def newSpace (k : Vm) (h : ℕ) (exe : Executable) : Option Vm := do
  let t ← k.thread h
  if t.space.isNone then
    return { k with
      thread := Function.update k.thread h
        (some { t with space := some (AddressSpace.make exe t.spaceId) })
      pageTable := Function.update k.pageTable h TranslationEntry.initial
      openSwapFile := Function.update k.openSwapFile h HostFile.empty }
  else none

/-- The destructor of `AddressSpace`, for thread `h`: each page in memory gives its frame
back, cleared. -/
def freeFrames (k : Vm) (h : ℕ) (s : AddressSpace) : Vm :=
  (List.range s.numPages).foldl (fun k v =>
    if (k.pageTable h v).physicalPage = intMax then k
    else { k with
      addressesBitMap := Function.update k.addressesBitMap (k.pageTable h v).physicalPage false
      mainMemory := blit k.mainMemory ((k.pageTable h v).physicalPage * pageSize) pageSize
        (fun _ => 0) }) k

/-- `if (space != nullptr) delete space`. -/
def deleteSpace (k : Vm) (h : ℕ) : Option AddressSpace → Vm
  | some s => k.freeFrames h s
  | none => k

/-- The destructor of `Thread`, for a thread that does not run. -/
def destroy (k : Vm) (h : ℕ) : Option Vm := do
  if h = k.currentThread then none
  else
    let t ← k.thread h
    let k := k.deleteSpace h t.space
    return { k with thread := Function.update k.thread h none }

/-! ## Runs -/

/-- What can happen: threads and address spaces are made and destroyed, the processor is
given to another thread, and the running thread reads or writes its memory; with
a read or a write goes the frame to be evicted if it comes to that. -/
inductive Action where
  | newThread
  | newSpace (h : ℕ) (exe : Executable)
  | destroy (h : ℕ)
  | switch (next : ℕ)
  | read (addr : ℕ) (w : Width) (victim : ℕ)
  | write (addr : ℕ) (w : Width) (value : ℤ) (victim : ℕ)

/-- An attempt at an access ends well, or in a page fault that the handler treats. -/
def afterAttempt (k : Vm) (addr victim : ℕ) : Except ExceptionType Vm → Option Vm
  | .ok k' => some k'
  | .error .pageFault => k.pageFaultHandler addr victim
  | .error _ => none

/-- **One step.** -/
def step (k : Vm) : Action → Option Vm
  | .newThread => some k.newThread
  | .newSpace h exe => k.newSpace h exe
  | .destroy h => k.destroy h
  | .switch next => k.switch next
  | .read addr w victim => k.afterAttempt addr victim ((k.readMem addr w).map Prod.snd)
  | .write addr w value victim => k.afterAttempt addr victim (k.writeMem addr w value)

/-- What is recorded: an address space is made; a read by a thread, with the value it
got, or a write ends well. -/
inductive Event where
  | made (h : ℕ) (exe : Executable)
  | read (h addr : ℕ) (w : Width) (value : ℤ)
  | wrote (h addr : ℕ) (w : Width) (value : ℤ)

/-- The events of an action. -/
def emit (k : Vm) : Action → List Event
  | .newSpace h exe => [.made h exe]
  | .read addr w _ =>
      match k.readMem addr w with
      | .ok (value, _) => [.read k.currentThread addr w value]
      | .error _ => []
  | .write addr w value _ =>
      match k.writeMem addr w value with
      | .ok _ => [.wrote k.currentThread addr w value]
      | .error _ => []
  | _ => []

/-- An access of the running thread inside its address space, aligned. -/
def InRange (k : Vm) (addr : ℕ) (w : Width) : Prop :=
  addr % w.bytes = 0 ∧ ∃ s, k.space k.currentThread = some s ∧ addr < s.numPages * pageSize

/-- The actions looked at: address spaces are made for threads that got a `spaceId`,
accesses are in range and aligned, and a victim is a frame. -/
def Allowed (k : Vm) : Action → Prop
  | .newSpace h _ => ∀ t, k.thread h = some t → t.spaceId ≠ -1
  | .read addr w victim => k.InRange addr w ∧ victim < numPhysPages
  | .write addr w _ victim => k.InRange addr w ∧ victim < numPhysPages
  | _ => True

instance (k : Vm) (addr : ℕ) (w : Width) : Decidable (k.InRange addr w) :=
  decidable_of_iff (addr % w.bytes = 0 ∧ (k.space k.currentThread).any
    (fun s => decide (addr < s.numPages * pageSize)) = true) (by simp [InRange, Option.any_eq_true])

instance (k : Vm) (a : Action) : Decidable (k.Allowed a) :=
  match a with
  | .newThread => .isTrue trivial
  | .newSpace h _ => decidable_of_iff ((k.thread h).all (fun t => decide (t.spaceId ≠ -1)) = true)
      (by simp [Allowed, Option.all_eq_true])
  | .destroy _ => .isTrue trivial
  | .switch _ => .isTrue trivial
  | .read addr w victim => inferInstanceAs (Decidable (k.InRange addr w ∧ victim < numPhysPages))
  | .write addr w _ victim => inferInstanceAs (Decidable (k.InRange addr w ∧ victim < numPhysPages))

/-- The machine at the start: one thread, `main`, without an address space, with nothing
in the TLB.  What `runningProcesses`, the TLB, the page tables and the core map hold
apart from that is whatever was in memory. -/
def initial (data : ℤ → ℕ) (pageTable : ℕ → ℕ → TranslationEntry)
    (tlb : ℕ → TranslationEntry) (coreMap : ℕ → CoreMapEntry) : Vm where
  runningProcesses := ((Table.empty data).add 0).2
  nextThread := 1
  thread := Function.update (fun _ => none) 0 (some ⟨0, 0, none⟩)
  currentThread := 0
  pageTable := pageTable
  openSwapFile _ := HostFile.empty
  tlb i := { tlb i with valid := false }
  coreMap := coreMap
  addressesBitMap _ := false
  mainMemory _ := 0

/-- The runs of the virtual memory whose actions are all allowed by `guard`. -/
def Runs (guard : List Event → Vm → Action → Prop) (start : Vm) : List Event → Vm → Prop :=
  Run step emit guard start

end Vm
end PaldOs
