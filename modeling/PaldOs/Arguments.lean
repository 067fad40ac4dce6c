import PaldOs.UserMemory
import Mathlib.Tactic.NormNum

/-! # The arguments of a program

`SaveArgs` copies an array of pointers and the strings they point to out of the memory of the
process that calls `Exec`, and `WriteArgs` puts them on the stack of the process that was made: the
strings one below the other, then the array.  The stack pointer is an `int`; so the
remainder that is taken off to align it is negative where the stack lies above `INT_MAX`, and the
array then overlaps the string before it.

What `WriteArgs` writes is recorded as it goes.
-/
namespace PaldOs
namespace Vm

/-! ## Numbers -/

/-- The address that `WriteMem` makes of an `int`. -/
def toUnsigned (x : ℤ) : ℕ := (x % 2 ^ 32).toNat

/-- The value that is stored in an `int`. -/
def toInt (x : ℤ) : ℤ := Int.bmod x (2 ^ 32)

/-! ## Words -/

section Words
variable (pick : Vm → Fin numPhysPages)

/-- The tries to read a word: `val` after them. -/
def tryReadWord (val : ℤ) : ℕ → ℕ → Vm → Option (ℤ × Vm)
  | 0, _, k => some (val, k)
  | tries + 1, address, k =>
      match k.readMem address .word with
      | .ok (value, k) => some (value, k)
      | .error .pageFault => do
          let k ← k.pageFaultHandler address (pick k)
          tryReadWord val tries address k
      | .error _ => none

/-- The tries to write a word. -/
def tryWriteWord (value : ℤ) : ℕ → ℕ → Vm → Option Vm
  | 0, _, k => some k
  | tries + 1, address, k =>
      match k.writeMem address .word value with
      | .ok k => some k
      | .error .pageFault => do
          let k ← k.pageFaultHandler address (pick k)
          tryWriteWord value tries address k
      | .error _ => none

end Words

/-! ## Saving the arguments -/

section Saving
variable (pick : Vm → Fin numPhysPages)

/-- The loop of `CountArgsToSave` from the `c`th word on, with `left` words before the limit; `none`
if there are too many. -/
def countLoop (address : ℤ) : ℕ → ℕ → ℤ → Vm → Option (Option ℕ × Vm)
  | 0, _, _, k => some (none, k)
  | left + 1, c, val, k => do
      -- a word is tried once more than a byte
      let (val, k) ← tryReadWord pick val (numberOfTries + 1) (toUnsigned (address + 4 * c)) k
      if val ≠ 0 then countLoop address left (c + 1) val k else return (some c, k)

/-- `CountArgsToSave`.  `val` is not set at first. -/
def countArgsToSave (address val : ℤ) (k : Vm) : Option (Option ℕ × Vm) :=
  if address ≠ 0 then countLoop pick address SystemCalls.maxArgCount 0 val k else none

/-- The loop of `ReadStringFromUser`, with `left` bytes before the limit. -/
def readStringLoop : ℕ → ℤ → ℕ → Vm → Option (List UInt8 × Vm)
  | 0, _, _, k => some ([], k)
  | left + 1, temp, userAddress, k => do
      let (temp, userAddress, k) ← tryRead pick temp numberOfTries userAddress k
      if storeByte temp 0 ≠ 0 then
        let (bytes, k) ← readStringLoop left temp userAddress k
        return (storeByte temp 0 :: bytes, k)
      else return ([0], k)

/-- `ReadStringFromUser`: what it returns, and what it makes of `outString`. -/
def readStringFromUser (temp userAddress : ℤ) (outString : ℕ → UInt8) (maxByteCount : ℕ) (k : Vm) :
    Option (Bool × (ℕ → UInt8) × Vm) := do
  if userAddress ≠ 0 ∧ maxByteCount ≠ 0 then
    let (bytes, k) ← readStringLoop pick maxByteCount temp (toUnsigned userAddress) k
    return (bytes.getLast? == some 0, blit outString 0 bytes.length (fun j => bytes.getD j 0), k)
  else none

/-- The loop of `SaveArgs` from the `i`th argument on, with `left` to go.  `heap i` is what the
`i`th new buffer holds; `strAddr` and `temp` are not set at first.  What `ReadStringFromUser`
returns is not looked at. -/
def saveLoop (strAddr temp : ℤ) (heap : ℕ → ℕ → UInt8) (address : ℤ) :
    ℕ → ℕ → Vm → Option (List (ℕ → UInt8) × Vm)
  | 0, _, k => some ([], k)
  | left + 1, i, k => do
      let (strAddr, k) ←
        tryReadWord pick strAddr (numberOfTries + 1) (toUnsigned (address + i * 4)) k
      let (_, arg, k) ← readStringFromUser pick temp strAddr (heap i) SystemCalls.maxArgLength k
      let (args, k) ← saveLoop strAddr temp heap address left (i + 1) k
      return (arg :: args, k)

/-- `SaveArgs`: the buffers, or `none` for a null pointer.  `junk` is what variables hold that are
not set. -/
def saveArgs (junk : ℤ) (heap : ℕ → ℕ → UInt8) (address : ℤ) (k : Vm) :
    Option (Option (List (ℕ → UInt8)) × Vm) := do
  let (count, k) ← countArgsToSave pick address junk k
  match count with
  | none => return (none, k)
  | some count =>
      let (args, k) ← saveLoop pick junk junk heap address count 0 k
      return (some args, k)

end Saving

/-! ## Writing the arguments -/

/-- `strlen` of a buffer of `MAX_ARG_LENGTH` bytes; `none` where it would run over. -/
def strlen (string : ℕ → UInt8) : Option ℕ :=
  (List.range SystemCalls.maxArgLength).find? fun j => string j == 0

/-- The variables of `WriteArgs`, and what it wrote so far: addresses with the number of bytes
there, which is no variable of the source. -/
structure ArgsState where
  sp : ℤ
  argsAddress : List ℤ
  written : List (ℕ × ℕ)
  vm : Vm

section Writing
variable (pick : Vm → Fin numPhysPages)

/-- `WriteStringToUser`: the loop of `WriteBufferToUser` without a limit.  It ends after the zero
byte. -/
def writeStringToUser (string : ℕ → UInt8) (userAddress : ℤ) (k : Vm) : Option Vm := do
  if userAddress ≠ 0 then
    let length ← strlen string
    writeLoop pick string (length + 1) 0 (toUnsigned userAddress) k
  else none

/-- The first loop of `WriteArgs`: each string goes below the one before. -/
def writeStrings : List (ℕ → UInt8) → ArgsState → Option ArgsState
  | [], s => some s
  | arg :: args, s => do
      let length ← strlen arg
      let sp := toInt (s.sp - (length + 1))
      let vm ← writeStringToUser pick arg sp s.vm
      writeStrings args
        { sp := sp
          argsAddress := s.argsAddress ++ [sp]
          written := s.written ++ [(toUnsigned sp, length + 1)]
          vm := vm }

/-- The second loop of `WriteArgs`, from the `i`th word of the array on. -/
def writePointers : List ℤ → ℕ → ArgsState → Option ArgsState
  | [], _, s => some s
  | pointer :: pointers, i, s => do
      let vm ← tryWriteWord pick pointer (numberOfTries + 1) (toUnsigned (s.sp + 4 * i)) s.vm
      writePointers pointers (i + 1)
        { s with
          written := s.written ++ [(toUnsigned (s.sp + 4 * i), 4)]
          vm := vm }

/-- The stack pointer below the strings, aligned, with room for the array of `c` pointers and the
null one.  `%` is the remainder of C, which is negative for a negative number. -/
def arrayPointer (sp : ℤ) (c : ℕ) : ℤ :=
  toInt (toInt (sp - Int.tmod sp 4) - (c * 4 + 4))

/-- `WriteArgs`: the number of arguments, and the state with `STACK_REG` in `sp`. -/
def writeArgs (args : List (ℕ → UInt8)) (stackReg : ℤ) (k : Vm) : Option (ℕ × ArgsState) := do
  let s ← writeStrings pick args ⟨stackReg, [], [], k⟩
  if args.length < SystemCalls.maxArgCount then
    -- the last word is null
    let s ← writePointers pick (s.argsAddress ++ [0]) 0
      { s with sp := arrayPointer s.sp args.length }
    return (args.length, s)
  else none

end Writing

/-! ## What the numbers do -/

theorem toUnsigned_lt (x : ℤ) : toUnsigned x < 2 ^ 32 := by
  unfold toUnsigned
  omega

theorem toUnsigned_cast (x : ℤ) : (toUnsigned x : ℤ) = x % 2 ^ 32 := by
  unfold toUnsigned
  omega

@[simp] theorem toUnsigned_toInt (x : ℤ) : toUnsigned (toInt x) = toUnsigned x := by
  have hmod : Int.bmod x (2 ^ 32) % ((2 ^ 32 : ℕ) : ℤ) = x % ((2 ^ 32 : ℕ) : ℤ) := Int.bmod_emod
  unfold toUnsigned toInt
  exact congrArg Int.toNat hmod

theorem toInt_toInt (x : ℤ) : toInt (toInt x) = toInt x := Int.bmod_bmod

theorem toInt_toInt_sub (x y : ℤ) : toInt (toInt x - y) = toInt (x - y) :=
  Int.bmod_sub_bmod

theorem toUnsigned_add {x : ℤ} {n : ℕ} (h : toUnsigned x + n < 2 ^ 32) :
    toUnsigned (x + n) = toUnsigned x + n := by
  unfold toUnsigned at h ⊢
  omega

theorem toUnsigned_sub {x : ℤ} {n : ℕ} (h : n ≤ toUnsigned x) :
    toUnsigned (x - n) = toUnsigned x - n := by
  unfold toUnsigned at h ⊢
  omega

/-- The value an `int` has, by its address. -/
theorem toInt_eq (x : ℤ) :
    toInt x = if toUnsigned x < 2 ^ 31 then (toUnsigned x : ℤ) else toUnsigned x - 2 ^ 32 := by
  rw [toUnsigned_cast]
  unfold toInt Int.bmod
  have hlt := toUnsigned_lt x
  unfold toUnsigned at hlt ⊢
  norm_num

/-- **A word is read back.** -/
theorem word_load_store (memory : ℕ → UInt8) (a : ℕ) (value : ℤ) :
    Width.word.load (blit memory a Width.word.bytes (storeByte value)) a = toInt value := by
  have hbyte : ∀ i, i < 4 →
      ((blit memory a Width.word.bytes (storeByte value) (a + i)).toNat : ℤ) =
        value / 256 ^ i % 256 := by
    intro i hi
    have hfour : Width.word.bytes = 4 := rfl
    rw [hfour, blit_add hi, storeByte, UInt8.toNat_ofNat']
    generalize value / 256 ^ i = q
    omega
  have h0 := hbyte 0 (by decide)
  have h1 := hbyte 1 (by decide)
  have h2 := hbyte 2 (by decide)
  have h3 := hbyte 3 (by decide)
  unfold Width.load
  rw [Nat.add_zero] at h0
  dsimp only
  rw [h0, h1, h2, h3]
  have hsum : value / 256 ^ 0 % 256 + 256 * (value / 256 ^ 1 % 256) +
      256 ^ 2 * (value / 256 ^ 2 % 256) + 256 ^ 3 * (value / 256 ^ 3 % 256) =
        value % (2 ^ 32 : ℕ) := by
    norm_num
    omega
  rw [hsum, Int.emod_bmod]
  rfl

section Word
variable {pick : Vm → Fin numPhysPages} {k : Vm} {mem : ℕ → ℕ → UInt8} {a : ℕ}
  {C : Vm → (ℕ → ℕ → UInt8) → Prop}

/-- **One word is read**, at the first try or after a page fault at the second. -/
theorem tryReadWord_ends (hi : FrameInv k none) (hc : Content k mem) (hr : k.InRange a .word)
    (val : ℤ) :
    ∃ k', tryReadWord pick val (numberOfTries + 1) a k =
        some (Width.word.load (mem k.currentThread) a, k') ∧ SameSpaces k k' ∧
      FrameInv k' none ∧ Content k' mem := by
  rcases hc.readMem_cases hi hr with ⟨i, hok⟩ | ⟨hfault, hmiss⟩
  · refine ⟨k.touch i false, ?_, ⟨rfl, fun _ => rfl⟩, hi.of_agree agrees_touch, hc.touch⟩
    simp only [tryReadWord, hok]
  · obtain ⟨k₁, hhandler, hcur, hi₁, hc₁, hr₁, hhit⟩ := hi.handled hc hr (pick k).isLt hmiss
    have hsame := hi.handled_sameSpaces hr (pick k).isLt hmiss hhandler
    obtain ⟨i, hok⟩ := (hc₁.readMem_cases hi₁ hr₁).resolve_right fun h => hhit h.2
    rw [hcur] at hok
    refine ⟨k₁.touch i false, ?_, hsame.trans ⟨rfl, fun _ => rfl⟩, hi₁.of_agree agrees_touch,
      hc₁.touch⟩
    simp only [numberOfTries, tryReadWord, hfault, hhandler, hok, Option.bind_eq_bind,
      Option.bind_some]

/-- **One word is written** in the same way. -/
theorem tryWriteWord_ends [Follows C] (hi : FrameInv k none) (hc : C k mem) (hr : k.InRange a .word)
    (value : ℤ) :
    ∃ k', tryWriteWord pick value (numberOfTries + 1) a k = some k' ∧ SameSpaces k k' ∧
      FrameInv k' none ∧ C k' (Function.update mem k.currentThread
        (blit (mem k.currentThread) a Width.word.bytes (storeByte value))) := by
  rcases Follows.written value hi hc hr with ⟨k', hok, -, hi', hc'⟩ | ⟨hfault, hmiss⟩
  · refine ⟨k', ?_, writeMem_sameSpaces hok, hi', hc'⟩
    simp only [tryWriteWord, hok]
  · obtain ⟨k₁, hhandler, hcur, hi₁, hc₁, hr₁, hhit⟩ :=
      Follows.handled hi hc hr (pick k).isLt hmiss
    have hsame := hi.handled_sameSpaces hr (pick k).isLt hmiss hhandler
    obtain ⟨k', hok, -, hi', hc'⟩ :=
      (Follows.written value hi₁ hc₁ hr₁).resolve_right fun h => hhit h.2
    rw [hcur] at hc'
    refine ⟨k', ?_, hsame.trans (writeMem_sameSpaces hok), hi', hc'⟩
    simp only [numberOfTries, tryWriteWord, hfault, hhandler, hok, Option.bind_eq_bind,
      Option.bind_some]

end Word

/-! ## Strings in memory -/

/-- A NUL-terminated copy of `string` is at `p`. -/
def Holds (memory : ℕ → UInt8) (p : ℕ) (string : List UInt8) : Prop :=
  ∀ j, j ≤ string.length → memory (p + j) = string.getD j 0

/-- A string that `SaveArgs` copies in full. -/
structure Savable (string : List UInt8) : Prop where
  nonzero : ∀ b, b ∈ string → b ≠ 0
  short : string.length < SystemCalls.maxArgLength

theorem holds_cons {memory : ℕ → UInt8} {p : ℕ} {b : UInt8} {string : List UInt8} :
    Holds memory p (b :: string) ↔ memory p = b ∧ Holds memory (p + 1) string := by
  constructor
  · intro h
    refine ⟨h 0 (Nat.zero_le _), fun j hj => ?_⟩
    rw [Nat.add_assoc, Nat.add_comm 1 j]
    exact h (j + 1) (Nat.succ_le_succ hj)
  · rintro ⟨hfirst, hrest⟩ j hj
    cases j with
    | zero => exact hfirst
    | succ j =>
      have heq : p + (j + 1) = p + 1 + j := by omega
      rw [heq]
      exact hrest j (Nat.le_of_succ_le_succ hj)

theorem Holds.congr {memory memory' : ℕ → UInt8} {p : ℕ} {string : List UInt8}
    (h : Holds memory p string)
    (heq : ∀ x, p ≤ x → x < p + (string.length + 1) → memory' x = memory x) :
    Holds memory' p string := by
  intro j hj
  rw [heq (p + j) (Nat.le_add_right p j) (by omega)]
  exact h j hj

/-- The length that `strlen` finds. -/
theorem strlen_of_holds {arg : ℕ → UInt8} {string : List UInt8} (hs : Savable string)
    (h : Holds arg 0 string) : strlen arg = some string.length := by
  have hshort := hs.short
  unfold strlen
  rw [List.find?_range_eq_some]
  refine ⟨?_, List.mem_range.mpr hshort, fun j hj => ?_⟩
  · have hend := h string.length (le_refl _)
    rw [Nat.zero_add, List.getD_eq_default _ _ (le_refl _)] at hend
    simpa using hend
  · have hbyte := h j (le_of_lt hj)
    rw [Nat.zero_add, List.getD_eq_getElem _ _ hj] at hbyte
    have hne := hs.nonzero _ (List.getElem_mem hj)
    rw [← hbyte] at hne
    simpa using hne

/-- A buffer with a zero byte holds the string before it. -/
theorem holds_of_strlen {arg : ℕ → UInt8} {length : ℕ} (h : strlen arg = some length) :
    ∃ string, string.length = length ∧ Savable string ∧ Holds arg 0 string := by
  unfold strlen at h
  rw [List.find?_range_eq_some] at h
  obtain ⟨hzero, hlt, hbefore⟩ := h
  refine ⟨(List.range length).map arg, by simp, ⟨?_, ?_⟩, ?_⟩
  · intro b hb
    obtain ⟨j, hj, rfl⟩ := List.mem_map.mp hb
    simpa using hbefore j (List.mem_range.mp hj)
  · simpa using hlt
  · intro j hj
    rw [Nat.zero_add]
    rw [List.length_map, List.length_range] at hj
    rcases Nat.lt_or_eq_of_le hj with hlt | rfl
    · rw [List.getD_eq_getElem _ _ (by simpa using hlt)]
      simp
    · rw [List.getD_eq_default _ _ (by simp)]
      simpa using hzero

section Bytes
variable {k k' : Vm} {mem : ℕ → ℕ → UInt8} {a : ℕ}

/-- The word at address `a` of the running process. -/
def userWord (k : Vm) (a : ℕ) : ℤ := Width.word.load (k.userByte k.currentThread) a

theorem InRange.word_bytes (h : k.InRange a .word) {j : ℕ} (hj : j < Width.word.bytes) :
    k.HasAddress k.currentThread (a + j) := by
  obtain ⟨haligned, s, hs, hlt⟩ := h
  have hfour : Width.word.bytes = 4 := rfl
  have hsize : pageSize = 128 := rfl
  refine ⟨s, hs, ?_⟩
  rw [hfour] at hj haligned
  rw [hsize] at hlt ⊢
  omega

theorem SameSpaces.inRange (h : SameSpaces k k') {w : Width} : k'.InRange a w ↔ k.InRange a w := by
  simp only [InRange, h.current, h.space]

theorem SameSpaces.hasRange (h : SameSpaces k k') {n : ℕ} : k'.HasRange a n ↔ k.HasRange a n := by
  simp only [HasRange, h.current, h.hasAddress]

/-- The word is that of the flat memory. -/
theorem Content.userWord_eq (hc : Content k mem) (hi : FrameInv k none) (hr : k.InRange a .word) :
    k.userWord a = Width.word.load (mem k.currentThread) a :=
  Width.load_congr fun _ hj => hc.userByte_eq hi (hr.word_bytes hj)

theorem Content.holds_iff (hc : Content k mem) (hi : FrameInv k none) {string : List UInt8}
    (hr : k.HasRange a (string.length + 1)) :
    Holds (k.userByte k.currentThread) a string ↔ Holds (mem k.currentThread) a string := by
  refine forall_congr' fun j => imp_congr_right fun hj => ?_
  rw [hc.userByte_eq hi (hr j (Nat.lt_succ_of_le hj))]

end Bytes

/-! ## What is saved -/

/-- The array of arguments at an address of the running process: at most 31 pointers, each to a
string shorter than `MAX_ARG_LENGTH`, and a null word. -/
structure UserArgv (k : Vm) (address : ℤ) (strings : List (List UInt8)) : Prop where
  nonnull : address ≠ 0
  count : strings.length < SystemCalls.maxArgCount
  words : ∀ i : ℕ, i ≤ strings.length → k.InRange (toUnsigned (address + 4 * i)) .word
  null : k.userWord (toUnsigned (address + 4 * strings.length)) = 0
  pointer : ∀ (i : ℕ) (string : List UInt8), strings[i]? = some string → Savable string ∧
    k.userWord (toUnsigned (address + 4 * i)) ≠ 0 ∧
    k.HasRange (toUnsigned (k.userWord (toUnsigned (address + 4 * i)))) (string.length + 1) ∧
    Holds (k.userByte k.currentThread)
      (toUnsigned (k.userWord (toUnsigned (address + 4 * i)))) string

section Saved
variable {pick : Vm → Fin numPhysPages} {k k' : Vm} {mem : ℕ → ℕ → UInt8}

/-- Nothing is different for the program. -/
theorem UserArgv.transfer {address : ℤ} {strings : List (List UInt8)}
    (h : k.UserArgv address strings) (hi : FrameInv k none) (hc : Content k mem)
    (hi' : FrameInv k' none) (hc' : Content k' mem) (hs : SameSpaces k k') :
    k'.UserArgv address strings := by
  have hword : ∀ i : ℕ, i ≤ strings.length → k'.userWord (toUnsigned (address + 4 * i)) =
      k.userWord (toUnsigned (address + 4 * i)) := by
    intro i hle
    rw [hc'.userWord_eq hi' (hs.inRange.mpr (h.words i hle)), hc.userWord_eq hi (h.words i hle),
      hs.current]
  refine ⟨h.nonnull, h.count, fun i hle => hs.inRange.mpr (h.words i hle), ?_,
    fun i string hstring => ?_⟩
  · rw [hword _ (le_refl _)]
    exact h.null
  · obtain ⟨hsavable, hne, hrange, hholds⟩ := h.pointer i string hstring
    obtain ⟨hlt, -⟩ := List.getElem?_eq_some_iff.mp hstring
    rw [hword i (le_of_lt hlt)]
    refine ⟨hsavable, hne, hs.hasRange.mpr hrange, ?_⟩
    rw [hc'.holds_iff hi' (hs.hasRange.mpr hrange), hs.current]
    rwa [hc.holds_iff hi hrange] at hholds

/-- **`CountArgsToSave`** finds the null word. -/
theorem countLoop_ends {address : ℤ} {strings : List (List UInt8)} {left c : ℕ}
    (hi : FrameInv k none) (hc : Content k mem) (h : k.UserArgv address strings)
    (hle : c ≤ strings.length) (hleft : left + c = SystemCalls.maxArgCount) (val : ℤ) :
    ∃ k', countLoop pick address left c val k = some (some strings.length, k') ∧
      SameSpaces k k' ∧ FrameInv k' none ∧ Content k' mem := by
  have hcount := h.count
  induction left generalizing k c val with
  | zero => omega
  | succ left ih =>
    have hr := h.words c hle
    obtain ⟨k₁, hread, hs₁, hi₁, hc₁⟩ : ∃ k₁, tryReadWord pick val (numberOfTries + 1)
        (toUnsigned (address + 4 * c)) k = some (_, k₁) ∧ _ := tryReadWord_ends hi hc hr val
    rw [← hc.userWord_eq hi hr] at hread
    have hstep : countLoop pick address (left + 1) c val k =
        if k.userWord (toUnsigned (address + 4 * c)) ≠ 0 then
          countLoop pick address left (c + 1) (k.userWord (toUnsigned (address + 4 * c))) k₁
        else some (some c, k₁) := by
      rw [countLoop, hread, Option.bind_eq_bind, Option.bind_some]
      dsimp only
      split <;> rfl
    rw [hstep]
    rcases Nat.lt_or_eq_of_le hle with hlt | rfl
    · obtain ⟨-, hne, -⟩ := h.pointer c _ (List.getElem?_eq_getElem hlt)
      rw [if_pos hne]
      obtain ⟨k₂, hloop, hs₂, hi₂, hc₂⟩ :=
        ih hi₁ hc₁ (h.transfer hi hc hi₁ hc₁ hs₁) hlt (by omega) _
      exact ⟨k₂, hloop, hs₁.trans hs₂, hi₂, hc₂⟩
    · rw [if_neg (not_not.mpr h.null)]
      exact ⟨k₁, rfl, hs₁, hi₁, hc₁⟩

/-- **The loop of `ReadStringFromUser`** copies a string with its zero byte. -/
theorem readStringLoop_ends {string : List UInt8} {n a : ℕ} (hi : FrameInv k none)
    (hc : Content k mem) (hr : k.HasRange a (string.length + 1))
    (hnonzero : ∀ b, b ∈ string → b ≠ 0) (hlen : string.length < n)
    (hh : Holds (mem k.currentThread) a string) (temp : ℤ) :
    ∃ k', readStringLoop pick n temp a k = some (string ++ [0], k') ∧ SameSpaces k k' ∧
      FrameInv k' none ∧ Content k' mem := by
  induction string generalizing k a n temp with
  | nil =>
    cases n with
    | zero => cases hlen
    | succ n =>
      have ha : k.HasAddress k.currentThread a := hr 0 Nat.zero_lt_one
      obtain ⟨k₁, hread, hs₁, hi₁, hc₁⟩ :
          ∃ k₁, tryRead pick temp numberOfTries a k = some (_, a + 1, k₁) ∧ _ :=
        tryRead_ends hi hc ha temp
      have hzero : mem k.currentThread a = 0 := hh 0 (le_refl _)
      refine ⟨k₁, ?_, hs₁, hi₁, hc₁⟩
      rw [readStringLoop, hread, Option.bind_eq_bind, Option.bind_some]
      dsimp only
      rw [storeByte_byte, hzero, if_neg (by simp)]
      rfl
  | cons b string ih =>
    cases n with
    | zero => cases hlen
    | succ n =>
      have ha : k.HasAddress k.currentThread a := hr 0 (Nat.succ_pos _)
      obtain ⟨k₁, hread, hs₁, hi₁, hc₁⟩ :
          ∃ k₁, tryRead pick temp numberOfTries a k = some (_, a + 1, k₁) ∧ _ :=
        tryRead_ends hi hc ha temp
      obtain ⟨hfirst, hrest⟩ := holds_cons.mp hh
      rw [← hs₁.current] at hrest
      obtain ⟨k₂, hloop, hs₂, hi₂, hc₂⟩ := ih hi₁ hc₁ (hr.next hs₁)
        (fun x hx => hnonzero x (List.mem_cons_of_mem b hx)) (Nat.lt_of_succ_lt_succ hlen) hrest
        (Width.byte.load (mem k.currentThread) a)
      refine ⟨k₂, ?_, hs₁.trans hs₂, hi₂, hc₂⟩
      rw [readStringLoop, hread, Option.bind_eq_bind, Option.bind_some]
      dsimp only
      rw [storeByte_byte, hfirst, if_pos (hnonzero b List.mem_cons_self), hloop]
      rfl

/-- A buffer into which a string was read. -/
theorem holds_blit (outString : ℕ → UInt8) (string : List UInt8) :
    Holds (blit outString 0 (string ++ [0]).length fun j => (string ++ [0]).getD j 0) 0 string := by
  intro j hj
  have hlt : j < (string ++ [0]).length := by
    rw [List.length_append]
    exact Nat.lt_succ_of_le hj
  rw [blit_add hlt]
  rcases Nat.lt_or_eq_of_le hj with hlt | rfl
  · rw [List.getD_append _ _ _ _ hlt]
  · rw [List.getD_append_right _ _ _ _ (le_refl _), Nat.sub_self,
      List.getD_eq_default _ _ (le_refl _)]
    rfl

/-- **`ReadStringFromUser`** copies a string that is short enough. -/
theorem readStringFromUser_ends {string : List UInt8} {p : ℤ} (hi : FrameInv k none)
    (hc : Content k mem) (hp : p ≠ 0) (hs : Savable string)
    (hr : k.HasRange (toUnsigned p) (string.length + 1))
    (hh : Holds (k.userByte k.currentThread) (toUnsigned p) string) (temp : ℤ)
    (outString : ℕ → UInt8) :
    ∃ arg k', readStringFromUser pick temp p outString SystemCalls.maxArgLength k =
        some (true, arg, k') ∧ Holds arg 0 string ∧ SameSpaces k k' ∧ FrameInv k' none ∧
      Content k' mem := by
  rw [hc.holds_iff hi hr] at hh
  obtain ⟨k', hloop, hrest⟩ : ∃ k', readStringLoop pick SystemCalls.maxArgLength temp
      (toUnsigned p) k = some (_, k') ∧ _ :=
    readStringLoop_ends hi hc hr hs.nonzero hs.short hh temp
  refine ⟨_, k', ?_, holds_blit outString string, hrest⟩
  unfold readStringFromUser
  rw [if_pos ⟨hp, by decide⟩, hloop, Option.bind_eq_bind, Option.bind_some]
  simp

/-- **The loop of `SaveArgs`.** -/
theorem saveLoop_ends {address : ℤ} {strings : List (List UInt8)} {left i : ℕ}
    (hi : FrameInv k none) (hc : Content k mem) (h : k.UserArgv address strings)
    (hleft : i + left = strings.length) (strAddr temp : ℤ) (heap : ℕ → ℕ → UInt8) :
    ∃ args k', saveLoop pick strAddr temp heap address left i k = some (args, k') ∧
      List.Forall₂ (fun arg string => Holds arg 0 string) args (strings.drop i) ∧
      SameSpaces k k' ∧ FrameInv k' none ∧ Content k' mem := by
  induction left generalizing k i strAddr with
  | zero =>
    refine ⟨[], k, rfl, ?_, ⟨rfl, fun _ => rfl⟩, hi, hc⟩
    rw [List.drop_eq_nil_of_le (by omega)]
    exact .nil
  | succ left ih =>
    have hlt : i < strings.length := by omega
    have hr := h.words i (le_of_lt hlt)
    obtain ⟨hsavable, hne, hrange, hholds⟩ := h.pointer i _ (List.getElem?_eq_getElem hlt)
    obtain ⟨k₁, hread, hs₁, hi₁, hc₁⟩ : ∃ k₁, tryReadWord pick strAddr (numberOfTries + 1)
        (toUnsigned (address + 4 * i)) k = some (_, k₁) ∧ _ := tryReadWord_ends hi hc hr strAddr
    rw [← hc.userWord_eq hi hr] at hread
    have h₁ := h.transfer hi hc hi₁ hc₁ hs₁
    have hr₁ := hs₁.inRange.mpr hr
    have hword : k₁.userWord (toUnsigned (address + 4 * i)) =
        k.userWord (toUnsigned (address + 4 * i)) := by
      rw [hc₁.userWord_eq hi₁ hr₁, hc.userWord_eq hi hr, hs₁.current]
    obtain ⟨-, -, hrange₁, hholds₁⟩ := h₁.pointer i _ (List.getElem?_eq_getElem hlt)
    rw [hword] at hrange₁ hholds₁
    obtain ⟨arg, k₂, hstring, harg, hs₂, hi₂, hc₂⟩ :
        ∃ arg k₂, readStringFromUser pick temp _ (heap i) _ k₁ = some (true, arg, k₂) ∧ _ :=
      readStringFromUser_ends hi₁ hc₁ hne hsavable hrange₁ hholds₁ temp (heap i)
    have hleft' : i + 1 + left = strings.length := by omega
    obtain ⟨args, k₃, hloop, hargs, hs₃, hi₃, hc₃⟩ :=
      ih hi₂ hc₂ (h₁.transfer hi₁ hc₁ hi₂ hc₂ hs₂) hleft' _
    refine ⟨arg :: args, k₃, ?_, ?_, (hs₁.trans hs₂).trans hs₃, hi₃, hc₃⟩
    · have hadd : address + (i : ℤ) * 4 = address + 4 * i := by rw [Int.mul_comm]
      rw [saveLoop, hadd, hread, Option.bind_eq_bind, Option.bind_some]
      dsimp only
      rw [hstring, Option.bind_eq_bind, Option.bind_some]
      dsimp only
      rw [hloop]
      rfl
    · rw [List.drop_eq_getElem_cons hlt]
      exact .cons harg hargs

/-- **`SaveArgs` copies an array of arguments in full.** -/
theorem saveArgs_ends {address : ℤ} {strings : List (List UInt8)} (hi : FrameInv k none)
    (hc : Content k mem) (h : k.UserArgv address strings) (junk : ℤ) (heap : ℕ → ℕ → UInt8) :
    ∃ args k', saveArgs pick junk heap address k = some (some args, k') ∧
      List.Forall₂ (fun arg string => Holds arg 0 string) args strings := by
  obtain ⟨k₁, hcount, hs₁, hi₁, hc₁⟩ : ∃ k₁, countLoop pick address SystemCalls.maxArgCount 0
      junk k = some (some strings.length, k₁) ∧ _ :=
    countLoop_ends hi hc h (Nat.zero_le _) rfl junk
  obtain ⟨args, k₂, hloop, hargs, -⟩ : ∃ args k₂, saveLoop pick junk junk heap address
      strings.length 0 k₁ = some (args, k₂) ∧ _ :=
    saveLoop_ends hi₁ hc₁ (h.transfer hi hc hi₁ hc₁ hs₁) (Nat.zero_add _) junk junk heap
  refine ⟨args, k₂, ?_, hargs⟩
  unfold saveArgs countArgsToSave
  rw [if_pos h.nonnull, hcount, Option.bind_eq_bind, Option.bind_some]
  dsimp only
  rw [hloop]
  rfl

end Saved

end Vm
end PaldOs
