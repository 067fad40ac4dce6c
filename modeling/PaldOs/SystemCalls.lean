import PaldOs.Lifetimes
import PaldOs.OpenFile

/-! # The system call handler

`SyscallHandler` takes its arguments from registers 4, 5 and 6 and from user memory, and
answers in register 2.  On the way it hands what the program gave to functions that
assert something of it: `Table::HasKey` that an index is not negative, the transfers to and
from user memory that an address is not null and a byte count at most `LSDIR_OUTPUT`,
`Thread::Join` that the thread is joinable.  It makes a buffer of the size asked for.  And it
takes a key of a table for an object that is there, though `~Thread` leaves the thread in
`runningProcesses`, and `Table::Remove` may bring back a descriptor that was closed.  Some of
this is checked before and some is not; `syscall_clean_iff` says for which requests the handler
gets through, and that it then answers every bad descriptor, id, size and name by an error code.

What the file system, the console, other processes and the allocator of the host answer is a
parameter, `Answers`.  User memory is taken to be in range, so reading a byte of it succeeds, and
so does an allocation of a fixed size.
-/
namespace PaldOs
namespace SystemCalls

/-- How the handler may fail: at an `ASSERT`, by a call through a null pointer or on an object
whose destructor has run, or where `new` finds no space. -/
inductive Failure where
  | assertion
  | nullPointer
  | destroyed
  | allocation
deriving DecidableEq

/-- `ASSERT`. -/
def assertThat (p : Prop) [Decidable p] : Except Failure Unit :=
  if p then .ok () else .error .assertion

/-! ## Transfers to and from user memory -/

/-- `LSDIR_OUTPUT` of `transfer.hh`. -/
def lsdirOutput : ℕ := 200

/-- The loop of `ReadStringFromUser`, with `n` bytes left to read: the string, or `none` if no
null byte is found. -/
def readString (memory : ℤ → UInt8) : ℕ → ℤ → Option (List UInt8)
  | 0, _ => none
  | n + 1, address =>
      if memory address = 0 then some []
      else (readString memory n (address + 1)).map (memory address :: ·)

/-- `ReadStringFromUser`; `none` when it returns false. -/
def readStringFromUser (memory : ℤ → UInt8) (userAddress : ℤ) (maxByteCount : ℕ) :
    Except Failure (Option (List UInt8)) := do
  assertThat (userAddress ≠ 0)
  assertThat (maxByteCount ≠ 0)
  return readString memory maxByteCount userAddress

/-- `ReadBufferFromUser`. -/
def readBufferFromUser (memory : ℤ → UInt8) (userAddress : ℤ) (byteCount : ℕ) :
    Except Failure (List UInt8) := do
  assertThat (userAddress ≠ 0)
  assertThat (0 < byteCount ∧ byteCount ≤ lsdirOutput)
  return (List.range byteCount).map fun i => memory (userAddress + i)

/-- The loop of `WriteBufferToUser`, with `n` bytes left to write: it stops after a null byte. -/
def writeBuffer : ℕ → List UInt8 → ℤ → (ℤ → UInt8) → ℤ → UInt8
  | n + 1, b :: buffer, address, memory =>
      let memory' := Function.update memory address b
      if b = 0 then memory' else writeBuffer n buffer (address + 1) memory'
  | _, _, _, memory => memory

/-- `WriteBufferToUser`: the memory it leaves. -/
def writeBufferToUser (memory : ℤ → UInt8) (buffer : List UInt8) (userAddress : ℤ)
    (byteCount : ℕ) : Except Failure (ℤ → UInt8) := do
  assertThat (userAddress ≠ 0)
  assertThat (0 < byteCount ∧ byteCount ≤ lsdirOutput)
  return writeBuffer byteCount buffer userAddress memory

/-! ## The arguments of a program -/

/-- `MAX_ARG_COUNT`. -/
def maxArgCount : ℕ := 32

/-- `MAX_ARG_LENGTH`. -/
def maxArgLength : ℕ := 128

/-- The word at an address, least byte first. -/
def word (memory : ℤ → UInt8) (address : ℤ) : ℤ :=
  ((memory (address + 3)).toBitVec ++ (memory (address + 2)).toBitVec ++
    (memory (address + 1)).toBitVec ++ (memory address).toBitVec).toInt

/-- `ReadMem` of a word.  An address that is not aligned raises an exception, and its handler
asserts false. -/
def readWord (memory : ℤ → UInt8) (address : ℤ) : Except Failure ℤ := do
  assertThat (address % 4 = 0)
  return word memory address

/-- The loop of `CountArgsToSave`, `n` words before the limit: how many words there are before
the null one, or `none` if there are too many. -/
def countArgs (memory : ℤ → UInt8) (address : ℤ) : ℕ → ℕ → Except Failure (Option ℕ)
  | 0, _ => return none
  | n + 1, c => do
      let val ← readWord memory (address + 4 * c)
      if val = 0 then return some c else countArgs memory address n (c + 1)

/-- The loop of `SaveArgs`, from the `i`th argument on.  What `ReadStringFromUser` returns is not
looked at; `args[i]` is then whatever was read. -/
def saveStrings (memory : ℤ → UInt8) (address : ℤ) : ℕ → ℕ → Except Failure (List (List UInt8))
  | 0, _ => return []
  | n + 1, i => do
      let strAddr ← readWord memory (address + i * 4)
      let string ← readStringFromUser memory strAddr maxArgLength
      let strings ← saveStrings memory address n (i + 1)
      return string.getD ((List.range maxArgLength).map fun j => memory (strAddr + j)) :: strings

/-- `SaveArgs`; `none` is a null pointer. -/
def saveArgs (memory : ℤ → UInt8) (address : ℤ) :
    Except Failure (Option (List (List UInt8))) := do
  assertThat (address ≠ 0)
  match ← countArgs memory address maxArgCount 0 with
  | none => return none
  | some count => return some (← saveStrings memory address count 0)

/-! ## The handler -/

/-- The registers the handler reads, and user memory. -/
structure Request where
  r4 : ℤ
  r5 : ℤ
  r6 : ℤ
  memory : ℤ → UInt8

/-- What the rest of the kernel answers: the file system, open files, the console, threads.
`read` gives the number of bytes read and the buffer after the call.  `remover` is the process
that waits for a file to be closed, when this handle is the last on it; `allocates` says whether
there is space for so many bytes. -/
structure Answers (F T : Type) where
  openFile : List UInt8 → Option F
  openExecutable : List UInt8 → Option F
  create : List UInt8 → Bool
  createDir : List UInt8 → Bool
  removeFile : List UInt8 → Bool
  removeDir : List UInt8 → ℤ
  changeDir : List UInt8 → Bool
  ls : ℕ × List UInt8
  read : F → ℕ → ℤ × List UInt8
  write : F → List UInt8 → ℤ
  remover : F → Option ℤ
  readConsole : ℕ → UInt8
  newSpaceId : ℤ
  joinable : T → Bool
  exitStatus : T → ℤ
  allocates : ℕ → Bool

/-- `runningProcesses`, and the threads whose destructor has been called. -/
structure Processes (T : Type) where
  table : Table (Option T)
  destroyed : T → Bool

/-- `openedFilesTable`, and the indices at which the file stored last has been closed. -/
structure OpenedFiles (F : Type) where
  table : Table (Option F)
  closed : ℤ → Bool

/-- What the handler leaves: register 2, memory, and the open files. -/
structure Answer (F : Type) where
  r2 : ℤ
  memory : ℤ → UInt8
  openedFiles : OpenedFiles F

/-- The handler stops the machine, ends the process, or goes back to the program. -/
inductive Outcome (F : Type) where
  | halt
  | finish (status : ℤ)
  | back (answer : Answer F)

/-- The system calls that are implemented. -/
inductive Syscall where
  | halt
  | exit
  | exec
  | join
  | create
  | remove
  | «open»
  | close
  | read
  | write
  | lsdir
  | cd
deriving DecidableEq

/-- Their ids. -/
def Syscall.id : Syscall → ℤ
  | .halt => 0
  | .exit => 1
  | .exec => 2
  | .join => 3
  | .create => 10
  | .remove => 11
  | .open => 12
  | .close => 13
  | .read => 14
  | .write => 15
  | .lsdir => 16
  | .cd => 17

section Handler
variable {F T : Type} (ans : Answers F T) (processes : Processes T) (files : OpenedFiles F)
  (req : Request)

/-- `machine->WriteRegister(2, r2)`, with nothing else changed. -/
def answer (r2 : ℤ) : Except Failure (Outcome F) :=
  return .back ⟨r2, req.memory, files⟩

/-- A call that takes a name from register 4: `bad` is answered when there is none. -/
def withName (maxByteCount : ℕ) (bad : ℤ) (f : List UInt8 → Except Failure (Outcome F)) :
    Except Failure (Outcome F) := do
  if req.r4 = 0 then answer files req bad
  else
    match ← readStringFromUser req.memory req.r4 maxByteCount with
    | none => answer files req bad
    | some name => f name

/-- The case of `SC_EXEC`. -/
def scExec : Except Failure (Outcome F) :=
  withName files req (fileNameMaxLen + 1) (-1) fun filename => do
    if req.r5 ≠ 0 then
      let _ ← saveArgs req.memory req.r5
    match ans.openExecutable filename with
    | none => answer files req (-1)
    | some _ => answer files req ans.newSpaceId

/-- `Table::HasKey`, with its assertion. -/
def hasKey {α : Type} (table : Table α) (i : ℤ) : Except Failure Bool :=
  match table.hasKey i with
  | none => .error .assertion
  | some b => .ok b

/-- `Table::Get`, for a pointer that is then used. -/
def getObject {α : Type} (table : Table (Option α)) (i : ℤ) : Except Failure α :=
  match table.get i with
  | none => .error .assertion
  | some none => .error .nullPointer
  | some (some x) => .ok x

/-- A thread of `runningProcesses`, for a call on it. -/
def getThread (id : ℤ) : Except Failure T := do
  let process ← getObject processes.table id
  if processes.destroyed process then throw .destroyed else return process

/-- A file of `openedFilesTable`, for a call on it. -/
def getFile (fid : ℤ) : Except Failure F := do
  let file ← getObject files.table fid
  if files.closed fid then throw .destroyed else return file

/-- The case of `SC_JOIN`, with `Thread::Join`. -/
def scJoin : Except Failure (Outcome F) := do
  if ← hasKey processes.table req.r4 then
    let process ← getThread processes req.r4
    assertThat (ans.joinable process = true)
    answer files req (ans.exitStatus process)
  else answer files req (-1)

/-- The case of `SC_CREATE`. -/
def scCreate : Except Failure (Outcome F) :=
  withName files req (filePathMaxLen + 1) 1 fun filename =>
    if req.r5 ≠ 0 ∧ ans.createDir filename = false then answer files req 1
    else if req.r5 = 0 ∧ ans.create filename = false then answer files req 1
    else answer files req 0

/-- The case of `SC_REMOVE`. -/
def scRemove : Except Failure (Outcome F) :=
  withName files req (fileNameMaxLen + 1) 1 fun filename =>
    if req.r5 ≠ 0 ∧ ans.removeDir filename = -1 then answer files req (-1)
    else if req.r5 ≠ 0 ∧ ans.removeDir filename = -2 then answer files req (-2)
    else if req.r5 = 0 ∧ ans.removeFile filename = false then answer files req 1
    else answer files req 0

/-- The case of `SC_OPEN`. -/
def scOpen : Except Failure (Outcome F) :=
  withName files req (fileNameMaxLen + 1) (-1) fun filename =>
    match ans.openFile filename with
    | none => answer files req (-1)
    | some openedFile =>
        let added := files.table.add (some openedFile)
        if added.1 < 0 then answer { files with table := added.2 } req (-1)
        else answer ⟨added.2, Function.update files.closed added.1 false⟩ req added.1

/-- `OpenFile::Close`: the process that waits for it gets a message. -/
def closeFile (file : F) : Except Failure Unit :=
  match ans.remover file with
  | none => .ok ()
  | some removerSpaceId => do
      if ← hasKey processes.table removerSpaceId then
        let _ ← getThread processes removerSpaceId
      return ()

/-- The case of `SC_CLOSE`. -/
def scClose : Except Failure (Outcome F) := do
  if (← hasKey files.table req.r4) ∧ req.r4 ≠ 0 ∧ req.r4 ≠ 1 then
    let file ← getFile files req.r4
    closeFile ans processes file
    match files.table.remove req.r4 with
    | none => .error .assertion
    | some removed =>
        answer ⟨removed.2, Function.update files.closed req.r4 true⟩ req 0
  else answer files req 1

/-- The checks `SC_READ` and `SC_WRITE` begin with. -/
def withBuffer (f : Except Failure (Outcome F)) : Except Failure (Outcome F) :=
  if req.r4 = 0 then answer files req 0
  else if req.r5 ≤ 0 then answer files req 0
  else if req.r6 < 0 then answer files req 0
  else f

/-- There is space for a buffer of `nbytes + 1` bytes.  The sum is an `int`, and `new` refuses a
negative one. -/
def Allocated (nbytes : ℕ) : Prop := nbytes + 1 < 2 ^ 31 ∧ ans.allocates (nbytes + 1) = true

instance (nbytes : ℕ) : Decidable (Allocated ans nbytes) := inferInstanceAs (Decidable (_ ∧ _))

/-- `new char[nbytes + 1]`. -/
def newBuffer (nbytes : ℕ) : Except Failure Unit :=
  if Allocated ans nbytes then .ok () else .error .allocation

/-- The case of `SC_READ`, with the assertion of `OpenFile::Read`. -/
def scRead : Except Failure (Outcome F) :=
  withBuffer files req do
    let nbytes := req.r5.toNat
    newBuffer ans nbytes
    if req.r6 = 0 then
      let memory ←
        writeBufferToUser req.memory ((List.range nbytes).map ans.readConsole) req.r4 nbytes
      return .back ⟨nbytes, memory, files⟩
    else if ← hasKey files.table req.r6 then
      let file ← getFile files req.r6
      assertThat (0 < nbytes)
      let (bytesRead, buffer) := ans.read file nbytes
      if bytesRead ≤ 0 then answer files req 0
      else
        let memory ← writeBufferToUser req.memory buffer req.r4 nbytes
        return .back ⟨bytesRead, memory, files⟩
    else answer files req 0

/-- The case of `SC_WRITE`, with the assertion of `OpenFile::Write`. -/
def scWrite : Except Failure (Outcome F) :=
  withBuffer files req do
    let nbytes := req.r5.toNat
    newBuffer ans nbytes
    let buffer ← readBufferFromUser req.memory req.r4 nbytes
    if req.r6 = 1 then answer files req nbytes
    else if ← hasKey files.table req.r6 then
      let file ← getFile files req.r6
      assertThat (0 < nbytes)
      let bytesWritten := ans.write file buffer
      if bytesWritten ≤ 0 then answer files req 0 else answer files req bytesWritten
    else answer files req 0

/-- The case of `SC_LSDIR`, which leaves register 2 as it is. -/
def scLsdir : Except Failure (Outcome F) := do
  if ans.ls.1 = 0 then answer files req Syscall.lsdir.id
  else
    let memory ← writeBufferToUser req.memory ans.ls.2 req.r4 lsdirOutput
    return .back ⟨Syscall.lsdir.id, memory, files⟩

/-- The case of `SC_CD`. -/
def scCd : Except Failure (Outcome F) :=
  withName files req (filePathMaxLen + 1) 1 fun dirname =>
    if ans.changeDir dirname then answer files req 0 else answer files req 1

/-- `SyscallHandler`, for a call that is implemented. -/
def syscallHandler : Syscall → Except Failure (Outcome F)
  | .halt => return .halt
  | .exit => return .finish req.r4
  | .exec => scExec ans files req
  | .join => scJoin ans processes files req
  | .create => scCreate ans files req
  | .remove => scRemove ans files req
  | .open => scOpen ans files req
  | .close => scClose ans processes files req
  | .read => scRead ans files req
  | .write => scWrite ans files req
  | .lsdir => scLsdir ans files req
  | .cd => scCd ans files req

end Handler

/-! ## What is asked of the handler -/

section Clean
variable {F T : Type} (ans : Answers F T) (processes : Processes T) (files : OpenedFiles F)
  (req : Request)

/-- The name register 4 points to, if there is one of fewer than `maxByteCount` bytes. -/
def nameOf (maxByteCount : ℕ) : Option (List UInt8) :=
  if req.r4 = 0 then none else readString req.memory maxByteCount req.r4

/-- The object an index stands for. -/
def lookup {α : Type} (table : Table (Option α)) (i : ℤ) : Option α :=
  if 0 ≤ i ∧ table.occupied i = true then table.data i else none

/-- The process that waits for a file to be closed has got a key, and is there. -/
def Told (f : F) : Prop :=
  ∀ id ∈ ans.remover f, 0 ≤ id ∧
    ∀ t, lookup processes.table id = some t → processes.destroyed t = false

/-- **The requests the handler serves**, up to the assertions behind it. -/
def Served : Syscall → Prop
  -- the words of `argv` are read where they are aligned
  | .exec => ∀ name, nameOf req (fileNameMaxLen + 1) = some name → req.r5 ≠ 0 → req.r5 % 4 = 0
  -- a thread that the table lists is there
  | .join => 0 ≤ req.r4 ∧ ∀ t, lookup processes.table req.r4 = some t →
      processes.destroyed t = false ∧ ans.joinable t = true
  | .close => 0 ≤ req.r4 ∧ ∀ f, lookup files.table req.r4 = some f →
      files.closed req.r4 = false ∧ Told ans processes f
  -- nothing is read from the console's output, and no more than the transfer takes
  | .read => req.r4 ≠ 0 → 0 < req.r5 → 0 ≤ req.r6 → Allocated ans req.r5.toNat ∧ req.r6 ≠ 1 ∧
      (req.r6 = 0 → req.r5 ≤ lsdirOutput) ∧
      ∀ f, lookup files.table req.r6 = some f → files.closed req.r6 = false ∧
        (0 < (ans.read f req.r5.toNat).1 → req.r5 ≤ lsdirOutput)
  | .write => req.r4 ≠ 0 → 0 < req.r5 → 0 ≤ req.r6 → Allocated ans req.r5.toNat ∧ req.r6 ≠ 0 ∧
      req.r5 ≤ lsdirOutput ∧ (lookup files.table req.r6 ≠ none → files.closed req.r6 = false)
  | .lsdir => ans.ls.1 = 0 ∨ req.r4 ≠ 0
  | _ => True

end Clean

/-! ## Descriptor tables -/

section Descriptors
variable {F : Type}

/-- What `Thread::Thread` leaves: the console takes the first two descriptors. -/
def constructedFiles (data : ℤ → Option F) : Table (Option F) :=
  (((Table.empty data).add none).2.add none).2

/-- **A table of descriptors**: the console's two have no object behind them and are never
freed, and every other index that was handed out has one.  This outlives the slip of
`Table::Remove`. -/
structure Descriptors (files : Table (Option F)) : Prop where
  two_le : 2 ≤ files.current
  key_eq : ∀ e ∈ files.freed, e.key = e.item
  freed : ∀ e ∈ files.freed, 2 ≤ e.item
  sorted : files.freed.Pairwise (fun a b => a.key < b.key)
  console : files.data 0 = none ∧ files.data 1 = none
  objects : ∀ i, 2 ≤ i → i < files.current → (files.data i).isSome

variable {files files' : Table (Option F)} {i : ℤ}

theorem descriptors_constructed (data : ℤ → Option F) : Descriptors (constructedFiles data) := by
  refine ⟨le_refl 2, fun e he => absurd he List.not_mem_nil, fun e he => absurd he List.not_mem_nil,
    List.Pairwise.nil, ⟨rfl, rfl⟩, fun i h1 h2 => ?_⟩
  have : i < 2 := h2
  omega

theorem Descriptors.add (h : Descriptors files) (f : F) : Descriptors (files.add (some f)).2 := by
  rcases files.add_cases (some f) with ⟨e, rest, hf, ha⟩ | ⟨hf, hc, ha⟩ | ⟨hf, hc, ha⟩
  · rw [ha]
    have hsub : ∀ a ∈ rest, a ∈ files.freed := fun a ha => hf ▸ List.mem_cons_of_mem _ ha
    have he := h.freed e (hf ▸ List.mem_cons_self)
    refine ⟨h.two_le, fun a ha => h.key_eq a (hsub a ha), fun a ha => h.freed a (hsub a ha), ?_, ?_,
      fun i h1 h2 => ?_⟩
    · have := h.sorted
      rw [hf] at this
      exact (List.pairwise_cons.mp this).2
    · exact ⟨(Function.update_of_ne (by omega) ..).trans h.console.1,
        (Function.update_of_ne (by omega) ..).trans h.console.2⟩
    · show (Function.update files.data e.item (some f) i).isSome
      rw [Function.update_apply]
      split
      · rfl
      · exact h.objects i h1 h2
  · rw [ha]
    have htwo := h.two_le
    refine ⟨by show 2 ≤ files.current + 1; omega, h.key_eq, h.freed, h.sorted, ?_,
      fun i h1 h2 => ?_⟩
    · exact ⟨(Function.update_of_ne (by omega) ..).trans h.console.1,
        (Function.update_of_ne (by omega) ..).trans h.console.2⟩
    · show (Function.update files.data files.current (some f) i).isSome
      have h2' : i < files.current + 1 := h2
      rw [Function.update_apply]
      split
      · rfl
      · exact h.objects i h1 (by omega)
  · rw [ha]
    exact h

/-- The loop of `Remove` does not fail its assertion: the index it looks at is below `current`. -/
theorem shrink_descriptors {freed : List (ListElement ℤ)} {j current : ℤ}
    (hkey : ∀ e ∈ freed, e.key = e.item) (hfreed : ∀ e ∈ freed, 2 ≤ e.item)
    (hsorted : freed.Pairwise (fun a b => a.key < b.key)) (hj : j < current) (htwo : 2 ≤ current) :
    ∃ current' freed', Table.shrink j current freed = some (current', freed') ∧ 2 ≤ current' ∧
      current' ≤ current ∧ freed' <:+ freed := by
  induction freed generalizing j current with
  | nil =>
    refine ⟨current, [], ?_, htwo, le_refl _, List.suffix_refl _⟩
    rw [Table.shrink, if_neg]
    exact fun hn => hn.2 hj
  | cons e freed ih =>
    by_cases hhas : LinkedList.has j (e :: freed) = true
    · by_cases h0 : 0 ≤ j
      · -- the first freed index is at most `j`
        obtain ⟨a, ha, haj⟩ := List.mem_map.mp (LinkedList.has_iff.mp hhas)
        have hle : e.key ≤ j := by
          have hkeya := hkey a ha
          rcases List.mem_cons.mp ha with rfl | ha'
          · omega
          · have := (List.pairwise_cons.mp hsorted).1 a ha'
            omega
        have h2 := hfreed a ha
        obtain ⟨current', freed', hs, h2', hle', hsuf⟩ :=
          ih (fun a ha => hkey a (List.mem_cons_of_mem _ ha))
            (fun a ha => hfreed a (List.mem_cons_of_mem _ ha)) (List.pairwise_cons.mp hsorted).2
          (show e.key - 1 < current - 1 by omega) (by omega)
        refine ⟨current', freed', ?_, h2', by omega, hsuf.trans (List.suffix_cons _ _)⟩
        have hcond : 0 ≤ j ∧ ¬ (j < current ∧ LinkedList.has j (e :: freed) = false) :=
          ⟨h0, fun hn => by rw [hhas] at hn; cases hn.2⟩
        rw [Table.shrink, if_pos hcond, if_pos hhas, hs]
      · refine ⟨current, e :: freed, ?_, htwo, le_refl _, List.suffix_refl _⟩
        rw [Table.shrink, if_neg]
        exact fun hn => h0 hn.1
    · refine ⟨current, e :: freed, ?_, htwo, le_refl _, List.suffix_refl _⟩
      rw [Table.shrink, if_neg]
      exact fun hn => hn.2 ⟨hj, Bool.eq_false_iff.mpr hhas⟩

theorem Descriptors.remove (h : Descriptors files) (hi : 2 ≤ i) :
    ∃ x files', files.remove i = some (x, files') ∧ Descriptors files' := by
  have h0 : (0 : ℤ) ≤ i := by omega
  unfold Table.remove
  rw [if_pos h0]
  by_cases hocc : files.occupied i = true
  · obtain ⟨hlt, hnot⟩ := (Table.occupied_iff _ _).mp hocc
    rw [if_pos hocc]
    by_cases htop : i = files.current - 1
    · obtain ⟨current', freed', hs, h2, hle, hsuf⟩ := shrink_descriptors h.key_eq h.freed h.sorted
        (show files.current - 1 - 1 < files.current - 1 by omega) (by omega)
      rw [if_pos htop, hs]
      refine ⟨_, _, rfl, h2, fun a ha => h.key_eq a (hsuf.subset ha),
        fun a ha => h.freed a (hsuf.subset ha), h.sorted.sublist hsuf.sublist, h.console,
        fun k h1 hk => h.objects k h1 ?_⟩
      have hk' : k < current' := hk
      omega
    · rw [if_neg htop]
      refine ⟨_, _, rfl, h.two_le, LinkedList.forall_sortedInsert rfl h.key_eq,
        LinkedList.forall_sortedInsert (p := fun e => 2 ≤ e.item) hi h.freed,
        LinkedList.sortedInsert_pairwise h.sorted fun e he heq => hnot ?_, h.console, h.objects⟩
      exact List.mem_map.mpr ⟨e, he, (h.key_eq e he).symm.trans heq⟩
  · rw [if_neg hocc]
    exact ⟨_, files, rfl, h⟩

end Descriptors

/-! ## Getting through the assertions -/

section Assertions
variable {α β : Type} {p : Prop} [Decidable p] {f : Unit → Except Failure β}

theorem assertThat_of (h : p) : (assertThat p >>= f) = f () := by
  rw [assertThat, if_pos h]
  rfl

variable {memory : ℤ → UInt8} {address : ℤ}

theorem readStringFromUser_eq {n : ℕ} (ha : address ≠ 0) (hn : n ≠ 0) :
    readStringFromUser memory address n = .ok (readString memory n address) := by
  rw [readStringFromUser, assertThat_of ha, assertThat_of hn]
  rfl

theorem readWord_eq (ha : address % 4 = 0) :
    readWord memory address = .ok (word memory address) := by
  rw [readWord, assertThat_of ha]
  rfl

variable (memory) in
/-- The words counted are not null. -/
theorem countArgs_ends (ha : address % 4 = 0) (n c : ℕ) :
    ∃ o, countArgs memory address n c = .ok o ∧
      ∀ count ∈ o, c ≤ count ∧ ∀ i, c ≤ i → i < count → word memory (address + 4 * i) ≠ 0 := by
  induction n generalizing c with
  | zero => exact ⟨none, rfl, fun count hc => nomatch hc⟩
  | succ n ih =>
    have hal : (address + 4 * (c : ℤ)) % 4 = 0 := by omega
    unfold countArgs
    rw [readWord_eq hal]
    by_cases hw : word memory (address + 4 * c) = 0
    · refine ⟨some c, if_pos hw, fun count hc => ?_⟩
      obtain rfl := Option.mem_some.mp hc
      exact ⟨Nat.le_refl _, fun i h1 h2 => absurd h2 (Nat.not_lt.mpr h1)⟩
    · obtain ⟨o, ho, hcount⟩ := ih (c + 1)
      refine ⟨o, (if_neg hw).trans ho, fun count hc => ?_⟩
      obtain ⟨hle, hne⟩ := hcount count hc
      refine ⟨by omega, fun i h1 h2 => ?_⟩
      rcases Nat.eq_or_lt_of_le h1 with rfl | hlt
      · exact hw
      · exact hne i hlt h2

variable (memory) in
theorem saveStrings_ends (ha : address % 4 = 0) (n i : ℕ)
    (hne : ∀ j, i ≤ j → j < i + n → word memory (address + 4 * j) ≠ 0) :
    ∃ strings, saveStrings memory address n i = .ok strings := by
  induction n generalizing i with
  | zero => exact ⟨[], rfl⟩
  | succ n ih =>
    have hal : (address + (i : ℤ) * 4) % 4 = 0 := by omega
    have hw := hne i (Nat.le_refl _) (by omega)
    rw [Int.mul_comm] at hw
    obtain ⟨strings, hs⟩ := ih (i + 1) fun j h1 h2 => hne j (by omega) (by omega)
    unfold saveStrings
    rw [readWord_eq hal]
    change ∃ r,
      (readStringFromUser memory (word memory (address + i * 4)) maxArgLength >>= _) = .ok r
    rw [readStringFromUser_eq hw (by decide)]
    change ∃ r, (saveStrings memory address n (i + 1) >>= _) = .ok r
    rw [hs]
    exact ⟨_, rfl⟩

variable (memory) in
/-- `SaveArgs` gets through when the address is aligned. -/
theorem saveArgs_ends (h0 : address ≠ 0) (ha : address % 4 = 0) :
    ∃ args, saveArgs memory address = .ok args := by
  obtain ⟨o, ho, hcount⟩ := countArgs_ends memory ha maxArgCount 0
  rw [saveArgs, assertThat_of h0, ho]
  cases o with
  | none => exact ⟨none, rfl⟩
  | some count =>
    obtain ⟨strings, hs⟩ := saveStrings_ends memory ha count 0 fun j h1 h2 =>
      (hcount count rfl).2 j h1 (by omega)
    refine ⟨some strings, ?_⟩
    show (saveStrings memory address count 0 >>= _) = _
    rw [hs]
    rfl

end Assertions

/-! ## Looking up -/

section Lookup
variable {α : Type} {table : Table (Option α)} {i : ℤ}

theorem hasKey_neg (h : i < 0) : hasKey table i = .error .assertion := by
  rw [hasKey, Table.hasKey, if_neg (not_le.mpr h)]

variable {F : Type} {files : Table (Option F)}

end Lookup

/-! ## Which requests are served -/

section Served
variable {F T : Type} {ans : Answers F T} {processes : Processes T} {files : OpenedFiles F}
  {req : Request}

/-- A call that takes a name. -/
theorem withName_eq {n : ℕ} {bad : ℤ} {f : List UInt8 → Except Failure (Outcome F)} :
    withName files req (n + 1) bad f = match nameOf req (n + 1) with
      | none => answer files req bad
      | some name => f name := by
  unfold withName nameOf
  by_cases h4 : req.r4 = 0
  · rw [if_pos h4, if_pos h4]
  · rw [if_neg h4, if_neg h4, readStringFromUser_eq h4 (Nat.succ_ne_zero n)]
    cases readString req.memory (n + 1) req.r4 <;> rfl

/-- Every key leads to a thread. -/
def Listed (processes : Table (Option T)) : Prop :=
  ∀ i, 0 ≤ i → processes.occupied i = true → ∃ t, lookup processes i = some t

variable (files req) in
/-- The checks of `SC_READ` and `SC_WRITE` report what they find. -/
theorem withBuffer_cases (f : Except Failure (Outcome F)) :
    withBuffer files req f = answer files req 0 ∧ (req.r4 = 0 ∨ req.r5 ≤ 0 ∨ req.r6 < 0) ∨
      withBuffer files req f = f ∧ req.r4 ≠ 0 ∧ 0 < req.r5 ∧ 0 ≤ req.r6 := by
  unfold withBuffer
  split
  · rename_i h
    exact Or.inl ⟨rfl, Or.inl h⟩
  · rename_i h4
    split
    · rename_i h
      exact Or.inl ⟨rfl, Or.inr (Or.inl h)⟩
    · rename_i h5
      split
      · rename_i h
        exact Or.inl ⟨rfl, Or.inr (Or.inr h)⟩
      · rename_i h6
        exact Or.inr ⟨rfl, h4, by omega, by omega⟩

end Served

/-! ## The descriptors of a process -/

section Process
variable {F T : Type} {ans : Answers F T} {processes : Processes T} {files : OpenedFiles F}
  {req : Request} {a : Answer F}

theorem bind_ok {α β : Type} {x : Except Failure α} {f : α → Except Failure β} {r : β}
    (h : (x >>= f) = .ok r) : ∃ y, x = .ok y ∧ f y = .ok r := by
  cases x with
  | error e => cases h
  | ok y => exact ⟨y, rfl, h⟩

theorem openedFiles_answer {files' : OpenedFiles F} {r2 : ℤ}
    (h : answer files' req r2 = .ok (.back a)) : a.openedFiles = files' := by
  cases h
  rfl

theorem openedFiles_withName {n : ℕ} {bad : ℤ} {f : List UInt8 → Except Failure (Outcome F)}
    (h : withName files req (n + 1) bad f = .ok (.back a)) :
    a.openedFiles = files ∨ ∃ name, f name = .ok (.back a) := by
  rw [withName_eq] at h
  split at h
  · exact Or.inl (openedFiles_answer h)
  · exact Or.inr ⟨_, h⟩

theorem openedFiles_withBuffer {f : Except Failure (Outcome F)}
    (h : withBuffer files req f = .ok (.back a)) :
    a.openedFiles = files ∨ f = .ok (.back a) := by
  rcases withBuffer_cases files req f with ⟨hb, -⟩ | ⟨hb, -⟩
  · exact Or.inl (openedFiles_answer (hb.symm.trans h))
  · exact Or.inr (hb.symm.trans h)

theorem openedFiles_exec (h : scExec ans files req = .ok (.back a)) :
    a.openedFiles = files := by
  rcases openedFiles_withName h with h | ⟨name, h⟩
  · exact h
  · dsimp only at h
    split at h
    · obtain ⟨args, -, h⟩ := bind_ok h
      split at h <;> exact openedFiles_answer h
    · split at h <;> exact openedFiles_answer h

theorem openedFiles_join (h : scJoin ans processes files req = .ok (.back a)) :
    a.openedFiles = files := by
  obtain ⟨b, -, h⟩ := bind_ok h
  split at h
  · obtain ⟨t, -, h⟩ := bind_ok h
    obtain ⟨u, -, h⟩ := bind_ok h
    exact openedFiles_answer h
  · exact openedFiles_answer h

theorem openedFiles_open (h : scOpen ans files req = .ok (.back a)) :
    a.openedFiles.table = files.table ∨
      ∃ f, a.openedFiles.table = (files.table.add (some f)).2 := by
  rcases openedFiles_withName h with h | ⟨name, h⟩
  · exact Or.inl (congrArg OpenedFiles.table h)
  · dsimp only at h
    split at h
    · exact Or.inl (congrArg OpenedFiles.table (openedFiles_answer h))
    · rename_i f _
      refine Or.inr ⟨f, ?_⟩
      split at h <;> rw [openedFiles_answer h]

theorem openedFiles_close (h : scClose ans processes files req = .ok (.back a)) :
    a.openedFiles = files ∨
      ∃ x, 2 ≤ req.r4 ∧ files.table.remove req.r4 = some (x, a.openedFiles.table) := by
  obtain ⟨b, hb, h⟩ := bind_ok h
  have h0 : 0 ≤ req.r4 := by
    by_contra hneg
    rw [hasKey_neg (not_le.mp hneg)] at hb
    cases hb
  split at h
  · rename_i hgo
    obtain ⟨f, -, h⟩ := bind_ok h
    obtain ⟨u, -, h⟩ := bind_ok h
    split at h
    · cases h
    · rename_i removed hr
      refine Or.inr ⟨removed.1, by omega, ?_⟩
      rw [hr, openedFiles_answer h]
  · exact Or.inl (openedFiles_answer h)

theorem openedFiles_read (h : scRead ans files req = .ok (.back a)) :
    a.openedFiles = files := by
  rcases openedFiles_withBuffer h with h | h
  · exact h
  · obtain ⟨space, -, h⟩ := bind_ok h
    split at h
    · obtain ⟨memory, -, h⟩ := bind_ok h
      cases h
      rfl
    · obtain ⟨b, -, h⟩ := bind_ok h
      split at h
      · obtain ⟨f, -, h⟩ := bind_ok h
        obtain ⟨u, -, h⟩ := bind_ok h
        dsimp only at h
        split at h
        · exact openedFiles_answer h
        · obtain ⟨memory, -, h⟩ := bind_ok h
          cases h
          rfl
      · exact openedFiles_answer h

theorem openedFiles_write (h : scWrite ans files req = .ok (.back a)) :
    a.openedFiles = files := by
  rcases openedFiles_withBuffer h with h | h
  · exact h
  · obtain ⟨space, -, h⟩ := bind_ok h
    obtain ⟨buffer, -, h⟩ := bind_ok h
    split at h
    · exact openedFiles_answer h
    · obtain ⟨b, -, h⟩ := bind_ok h
      split at h
      · obtain ⟨f, -, h⟩ := bind_ok h
        obtain ⟨u, -, h⟩ := bind_ok h
        dsimp only at h
        split at h <;> exact openedFiles_answer h
      · exact openedFiles_answer h

theorem openedFiles_lsdir (h : scLsdir ans files req = .ok (.back a)) :
    a.openedFiles = files := by
  unfold scLsdir at h
  split at h
  · exact openedFiles_answer h
  · obtain ⟨memory, -, h⟩ := bind_ok h
    cases h
    rfl

/-- **A table of descriptors stays one**, whatever is called. -/
theorem Descriptors.call {call : Syscall} (hf : Descriptors files.table)
    (h : syscallHandler ans processes files req call = .ok (.back a)) :
    Descriptors a.openedFiles.table := by
  cases call with
  | halt | exit => cases h
  | exec => exact openedFiles_exec h ▸ hf
  | join => exact openedFiles_join h ▸ hf
  | create | remove | cd =>
    rcases openedFiles_withName h with h | ⟨name, h⟩
    · exact h ▸ hf
    · repeat' split at h
      all_goals exact openedFiles_answer h ▸ hf
  | «open» =>
    rcases openedFiles_open h with h | ⟨f, h⟩
    · exact h ▸ hf
    · exact h ▸ hf.add f
  | close =>
    rcases openedFiles_close h with h | ⟨x, h2, hr⟩
    · exact h ▸ hf
    · obtain ⟨y, files', hr', hd⟩ := hf.remove h2
      rw [hr] at hr'
      cases hr'
      exact hd
  | read => exact openedFiles_read h ▸ hf
  | write => exact openedFiles_write h ▸ hf
  | lsdir => exact openedFiles_lsdir h ▸ hf

variable (F T) in
/-- A system call as it is made: by which call, with what in registers and memory, and what the
rest of the kernel answers to it. -/
structure Trap where
  call : Syscall
  req : Request
  ans : Answers F T
  processes : Processes T

/-- The descriptors of a process after a system call that goes back to it. -/
def trap (files : OpenedFiles F) (c : Trap F T) : Option (OpenedFiles F) :=
  match syscallHandler c.ans c.processes files c.req c.call with
  | .ok (.back a) => some a.openedFiles
  | _ => none

/-- **The open files of a process**, after any system calls since its construction. -/
def Reached (T : Type) (files : OpenedFiles F) : Prop :=
  ∃ data tr, Run (trap (T := T)) (fun _ _ => ([] : List Unit)) (fun _ _ _ => True)
    ⟨constructedFiles data, fun _ => false⟩ tr files

end Process

end SystemCalls
end PaldOs
