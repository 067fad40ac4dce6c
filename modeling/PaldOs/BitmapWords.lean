import PaldOs.DiskLayout

/-! # The words of a bitmap

`Bitmap` keeps its bits in an array of words: index `i` is bit `i % 32` of word `i / 32`.  The
number of bits is any positive `unsigned`, so the last word may be used in part, and the bits of it
that are not used are those of the memory that the array was made of.

`bit` reads the array as a function of the index, and each operation is what it is for such a
function: `Mark` and `Clear` change one value (`bit_marked`, `bit_cleared`), `Find` goes to
the first of the clear bits (`find_eq`), `CountClear` counts them.  The bits determine the array
(`eq_of_bit`).

The result of `Find` is an `int`.  An index from 2^31 on does not fit, and comes out negative.
-/
namespace PaldOs

/-- `BITS_IN_WORD`. -/
def bitsInWord : ℕ := 32

/-- A `Bitmap` object. -/
structure WordBitmap where
  numBits : ℕ
  map : List (BitVec 32)
  numBits_pos : 0 < numBits
  numBits_lt : numBits < 2 ^ 32
  /-- There are `numWords` words. -/
  length_map : map.length = divRoundUp numBits bitsInWord
deriving DecidableEq

/-- An index as the `int` that `Find` returns, and `-1` if there is none. -/
def asInt : Option ℕ → Int32
  | some i => (UInt32.ofNat i).toInt32
  | none => -1

namespace WordBitmap

/-! ## The operations -/

/-- `map[i]`. -/
def wordAt (b : WordBitmap) (i : ℕ) : BitVec 32 := b.map.getD i 0

/-- `map[i] = w`. -/
def setWord (b : WordBitmap) (i : ℕ) (w : BitVec 32) : WordBitmap :=
  { b with
    map := b.map.set i w
    length_map := by
      rw [List.length_set]
      exact b.length_map }

/-- `1 << which % BITS_IN_WORD`, the bits of the `int`. -/
def mask (which : ℕ) : BitVec 32 := 1#32 <<< (which % bitsInWord)

/-- The assignment of `Mark`. -/
def marked (b : WordBitmap) (which : ℕ) : WordBitmap :=
  b.setWord (which / bitsInWord) (b.wordAt (which / bitsInWord) ||| mask which)

/-- The assignment of `Clear`. -/
def cleared (b : WordBitmap) (which : ℕ) : WordBitmap :=
  b.setWord (which / bitsInWord) (b.wordAt (which / bitsInWord) &&& ~~~mask which)

/-- `Bitmap::Mark`; `none` is a failed assertion. -/
def mark (b : WordBitmap) (which : ℕ) : Option WordBitmap :=
  if which < b.numBits then some (b.marked which) else none

/-- `Bitmap::Clear`. -/
def clear (b : WordBitmap) (which : ℕ) : Option WordBitmap :=
  if which < b.numBits then some (b.cleared which) else none

/-- `Bitmap::Test`. -/
def test (b : WordBitmap) (which : ℕ) : Option Bool :=
  if which < b.numBits then some (b.wordAt (which / bitsInWord) &&& mask which != 0#32) else none

/-- The loop of the constructor, from index `i` on. -/
def clearFrom (b : WordBitmap) (i : ℕ) : ℕ → Option WordBitmap
  | 0 => some b
  | n + 1 => do
      let b ← b.clear i
      b.clearFrom (i + 1) n

/-- The constructor, with what is in the memory of the new array. -/
def make (memory : ℕ → BitVec 32) (nitems : ℕ) : Option WordBitmap :=
  if h : 0 < nitems ∧ nitems < 2 ^ 32 then
    clearFrom
      { numBits := nitems
        map := (List.range (divRoundUp nitems bitsInWord)).map memory
        numBits_pos := h.1
        numBits_lt := h.2
        length_map := by rw [List.length_map, List.length_range] } 0 nitems
  else none

/-- The loop of `Find`, from index `i` on. -/
def findFrom (b : WordBitmap) (i : ℕ) : ℕ → Option (Int32 × WordBitmap)
  | 0 => some (-1, b)
  | n + 1 => do
      let set ← b.test i
      if !set then
        let b ← b.mark i
        return ((UInt32.ofNat i).toInt32, b)
      else b.findFrom (i + 1) n

/-- `Bitmap::Find`. -/
def find (b : WordBitmap) : Option (Int32 × WordBitmap) := b.findFrom 0 b.numBits

/-- The loop of `CountClear`, from index `i` on. -/
def countFrom (b : WordBitmap) (i count : ℕ) : ℕ → Option ℕ
  | 0 => some count
  | n + 1 => do
      let set ← b.test i
      b.countFrom (i + 1) (if !set then count + 1 else count) n

/-- `Bitmap::CountClear`. -/
def countClear (b : WordBitmap) : Option ℕ := b.countFrom 0 0 b.numBits

/-! ## Single bits -/

/-- Bit `i` of the array. -/
def bit (b : WordBitmap) : Bitmap := fun i => (b.wordAt (i / bitsInWord)).getLsbD (i % bitsInWord)

section Bits
variable {b b' : WordBitmap} {which i : ℕ}

theorem getLsbD_mask (which k : ℕ) :
    (mask which).getLsbD k = decide (which % bitsInWord = k) := by
  have hlt : which % bitsInWord < 32 := Nat.mod_lt _ (by decide)
  rw [mask, ← BitVec.twoPow_eq, BitVec.getLsbD_twoPow, decide_eq_true hlt, Bool.true_and]

theorem index_lt (h : which < b.numBits) : which / bitsInWord < b.map.length := by
  rw [b.length_map, lt_divRoundUp_iff (by decide)]
  exact lt_of_le_of_lt (Nat.div_mul_le_self ..) h

theorem wordAt_setWord (hi : i < b.map.length) (w : BitVec 32) (k : ℕ) :
    (b.setWord i w).wordAt k = if i = k then w else b.wordAt k := by
  rw [wordAt, setWord, List.getD_eq_getElem?_getD, List.getElem?_set, wordAt,
    List.getD_eq_getElem?_getD]
  by_cases hik : i = k
  · rw [if_pos hik, if_pos hi, if_pos hik, Option.getD_some]
  · rw [if_neg hik, if_neg hik]

theorem index_eq_iff : which / bitsInWord = i / bitsInWord ∧ which % bitsInWord = i % bitsInWord ↔
    i = which := by
  unfold bitsInWord
  omega

/-- **`Mark` sets one bit**, and no other bit of the array changes. -/
theorem bit_marked (h : which < b.numBits) : (b.marked which).bit = b.bit.mark which := by
  funext i
  rw [bit, marked, wordAt_setWord (index_lt h), Bitmap.mark]
  by_cases hi : i = which
  · subst hi
    rw [if_pos rfl, Function.update_self, BitVec.getLsbD_or, getLsbD_mask, decide_eq_true rfl,
      Bool.or_true]
  · rw [Function.update_of_ne hi]
    by_cases hword : which / bitsInWord = i / bitsInWord
    · have hbit : which % bitsInWord ≠ i % bitsInWord := fun hbit =>
        hi (index_eq_iff.mp ⟨hword, hbit⟩)
      rw [if_pos hword, BitVec.getLsbD_or, getLsbD_mask, decide_eq_false hbit, Bool.or_false, hword]
      rfl
    · rw [if_neg hword]
      rfl

/-- **`Clear` clears one bit**, and no other bit of the array changes. -/
theorem bit_cleared (h : which < b.numBits) : (b.cleared which).bit = b.bit.clear which := by
  funext i
  rw [bit, cleared, wordAt_setWord (index_lt h), Bitmap.clear]
  have hlt : i % bitsInWord < 32 := Nat.mod_lt _ (by decide)
  by_cases hi : i = which
  · subst hi
    rw [if_pos rfl, Function.update_self, BitVec.getLsbD_and, BitVec.getLsbD_not, getLsbD_mask,
      decide_eq_true rfl, Bool.not_true, Bool.and_false, Bool.and_false]
  · rw [Function.update_of_ne hi]
    by_cases hword : which / bitsInWord = i / bitsInWord
    · have hbit : which % bitsInWord ≠ i % bitsInWord := fun hbit =>
        hi (index_eq_iff.mp ⟨hword, hbit⟩)
      rw [if_pos hword, BitVec.getLsbD_and, BitVec.getLsbD_not, getLsbD_mask, decide_eq_false hbit,
        decide_eq_true hlt, Bool.not_false, Bool.and_true, Bool.and_true, hword]
      rfl
    · rw [if_neg hword]
      rfl

theorem and_mask_ne_zero (w : BitVec 32) (which : ℕ) :
    (w &&& mask which != 0#32) = w.getLsbD (which % bitsInWord) := by
  rw [mask, ← BitVec.twoPow_eq, BitVec.and_twoPow]
  cases hbit : w.getLsbD (which % bitsInWord) with
  | false =>
    rw [if_neg Bool.false_ne_true]
    rfl
  | true =>
    have hne : BitVec.twoPow 32 (which % bitsInWord) ≠ 0#32 := by
      intro heq
      have hlsb := getLsbD_mask which (which % bitsInWord)
      rw [mask, ← BitVec.twoPow_eq, heq, decide_eq_true rfl, BitVec.getLsbD_zero] at hlsb
      cases hlsb
    rw [if_pos rfl]
    exact bne_iff_ne.mpr hne

theorem test_eq (h : which < b.numBits) : b.test which = some (b.bit which) := by
  rw [test, if_pos h, and_mask_ne_zero]
  rfl

theorem mark_eq (h : which < b.numBits) : b.mark which = some (b.marked which) := if_pos h

theorem clear_eq (h : which < b.numBits) : b.clear which = some (b.cleared which) := if_pos h

/-- The bits determine the array. -/
theorem eq_of_bit (hnum : b.numBits = b'.numBits) (hbit : b.bit = b'.bit) : b = b' := by
  have hlength : b.map.length = b'.map.length := by
    rw [b.length_map, b'.length_map, hnum]
  have hmap : b.map = b'.map := by
    apply List.ext_getElem hlength
    intro k hk hk'
    apply BitVec.eq_of_getLsbD_eq
    intro j hj
    have hdiv : (32 * k + j) / bitsInWord = k := by
      unfold bitsInWord
      omega
    have hmod : (32 * k + j) % bitsInWord = j := by
      unfold bitsInWord
      omega
    have hkj := congrFun hbit (32 * k + j)
    rw [bit, bit, wordAt, wordAt, hdiv, hmod, List.getD_eq_getElem _ _ hk,
      List.getD_eq_getElem _ _ hk'] at hkj
    exact hkj
  cases b
  cases b'
  subst hnum
  subst hmap
  rfl

end Bits

/-! ## The loops -/

/-- The clear bits, in order. -/
def clearBits (b : WordBitmap) : List ℕ := (List.range b.numBits).filter (fun i => !b.bit i)

section Loops
variable {b : WordBitmap} {i n : ℕ} {l : List ℕ}

theorem mem_clearBits : i ∈ b.clearBits ↔ i < b.numBits ∧ b.bit i = false := by
  rw [clearBits, List.mem_filter, List.mem_range, Bool.not_eq_true']

theorem nodup_clearBits (b : WordBitmap) : b.clearBits.Nodup := List.nodup_range.filter _

theorem clearFrom_eq (hn : i + n ≤ b.numBits) : ∃ b', b.clearFrom i n = some b' ∧
    b'.numBits = b.numBits ∧ ∀ j, b'.bit j = if i ≤ j ∧ j < i + n then false else b.bit j := by
  induction n generalizing b i with
  | zero =>
    refine ⟨b, rfl, rfl, fun j => ?_⟩
    rw [if_neg (by omega)]
  | succ n ih =>
    have hi : i < b.numBits := by omega
    obtain ⟨b', hb', hnum, hbit⟩ := ih (b := b.cleared i) (i := i + 1)
      (show i + 1 + n ≤ b.numBits by omega)
    refine ⟨b', ?_, hnum, fun j => ?_⟩
    · rw [clearFrom, clear_eq hi]
      exact hb'
    · rw [hbit, bit_cleared hi, Bitmap.clear]
      by_cases hj : j = i
      · subst hj
        rw [if_neg (by omega), if_pos (by omega), Function.update_self]
      · rw [Function.update_of_ne hj]
        exact ite_congr (propext (by omega)) (fun _ => rfl) (fun _ => rfl)

/-- **A new bitmap is clear**, whatever was in its memory. -/
theorem make_eq (memory : ℕ → BitVec 32) (hpos : 0 < n) (hlt : n < 2 ^ 32) :
    ∃ b, make memory n = some b ∧ b.numBits = n ∧ ∀ i < n, b.bit i = false := by
  rw [make, dif_pos ⟨hpos, hlt⟩]
  obtain ⟨b, hb, hnum, hbit⟩ := clearFrom_eq (b :=
    { numBits := n
      map := (List.range (divRoundUp n bitsInWord)).map memory
      numBits_pos := hpos
      numBits_lt := hlt
      length_map := by rw [List.length_map, List.length_range] }) (Nat.zero_add n).le
  refine ⟨b, hb, hnum, fun i hi => ?_⟩
  rw [hbit, if_pos ⟨Nat.zero_le i, by omega⟩]

/-- The bitmap after `Find` has found index `o`. -/
def taken (b : WordBitmap) : Option ℕ → WordBitmap
  | some i => b.marked i
  | none => b

theorem findFrom_eq (hn : i + n ≤ b.numBits) : b.findFrom i n =
    some (asInt ((List.range' i n).find? fun j => !b.bit j),
      b.taken ((List.range' i n).find? fun j => !b.bit j)) := by
  induction n generalizing i with
  | zero => rfl
  | succ n ih =>
    have hi : i < b.numBits := by omega
    rw [findFrom, test_eq hi, List.range'_succ, List.find?_cons, Option.bind_eq_bind,
      Option.bind_some]
    cases hbit : b.bit i with
    | false =>
      rw [Bool.not_false, if_pos rfl, mark_eq hi]
      rfl
    | true =>
      rw [Bool.not_true, if_neg Bool.false_ne_true]
      exact ih (by omega)

/-- **`Find`** finds the first clear bit. -/
theorem find_eq (b : WordBitmap) :
    b.find = some (asInt b.clearBits.head?, b.taken b.clearBits.head?) := by
  rw [find, findFrom_eq (Nat.zero_add _).le, clearBits, List.head?_filter, List.range_eq_range']

theorem countFrom_eq {count : ℕ} (hn : i + n ≤ b.numBits) :
    b.countFrom i count n = some (count + (List.range' i n).countP fun j => !b.bit j) := by
  induction n generalizing i count with
  | zero => rfl
  | succ n ih =>
    rw [countFrom, test_eq (by omega), List.range'_succ, List.countP_cons, Option.bind_eq_bind,
      Option.bind_some, ih (by omega)]
    cases b.bit i with
    | false =>
      rw [Bool.not_false, if_pos rfl, if_pos rfl, Nat.add_assoc, Nat.add_comm 1]
    | true =>
      rw [Bool.not_true, if_neg Bool.false_ne_true, if_neg Bool.false_ne_true]
      rfl

/-- **`CountClear`** counts the clear bits. -/
theorem countClear_eq (b : WordBitmap) : b.countClear = some b.clearBits.length := by
  rw [countClear, countFrom_eq (Nat.zero_add _).le, Nat.zero_add, List.countP_eq_length_filter,
    clearBits, List.range_eq_range']

/-- The first clear bit is set, and the others are left. -/
theorem clearBits_marked (h : b.clearBits = i :: l) : (b.marked i).clearBits = l := by
  obtain ⟨hi, -⟩ : i < b.numBits ∧ b.bit i = false := mem_clearBits.mp (h ▸ List.mem_cons_self)
  have hnodup := b.nodup_clearBits
  rw [h, List.nodup_cons] at hnodup
  have hfilter : (b.marked i).clearBits = b.clearBits.filter (fun j => j ≠ i) := by
    rw [clearBits, clearBits, List.filter_filter]
    apply List.filter_congr
    intro j _
    rw [bit_marked hi, Bitmap.mark]
    by_cases hj : j = i
    · subst hj
      simp
    · simp [hj]
  rw [hfilter, h, List.filter_cons_of_neg (by simp)]
  apply List.filter_eq_self.mpr
  intro j hj
  have hne : j ≠ i := by
    rintro rfl
    exact hnodup.1 hj
  simpa using hne

end Loops

end WordBitmap

/-! ## Files -/

/-- **A file with a correct `ReadAt` and `WriteAt`**, of any kind. -/
structure ArrayFile (State : Type) where
  length : State → ℕ
  byte : State → ℕ → UInt8
  /-- The buffer after `ReadAt(into, numBytes, position)`. -/
  readAt : State → (ℕ → UInt8) → ℕ → ℕ → ℕ → UInt8
  /-- The file after `WriteAt(from, numBytes, position)`. -/
  writeAt : State → (ℕ → UInt8) → ℕ → ℕ → State
  /-- Bytes that are in the file are read. -/
  readAt_byte : ∀ s into numBytes position i, position + numBytes ≤ length s → i < numBytes →
    readAt s into numBytes position i = byte s (position + i)
  /-- Bytes are written where there are bytes, and the file does not get shorter. -/
  writeAt_byte : ∀ s src numBytes position i, position + numBytes ≤ length s → i < numBytes →
    byte (writeAt s src numBytes position) (position + i) = src i
  writeAt_length : ∀ s src numBytes position, position + numBytes ≤ length s →
    length s ≤ length (writeAt s src numBytes position)

/-- Files of the host are such files. -/
def hostFiles : ArrayFile HostFile where
  length := HostFile.length
  byte := HostFile.byte
  readAt f into numBytes position := f.readAt into 0 numBytes position
  writeAt f src numBytes position := f.writeAt src numBytes position
  readAt_byte := by
    intro f into numBytes position i hin hi
    have hread : f.readAt into 0 numBytes position (0 + i) = f.byte (position + i) :=
      HostFile.readAt_add hi (by omega)
    rwa [Nat.zero_add] at hread
  writeAt_byte := by
    intro f src numBytes position i _ hi
    exact HostFile.writeAt_byte_add hi
  writeAt_length := by
    intro f src numBytes position _
    exact Nat.le_max_left ..

namespace WordBitmap
variable {State : Type} (file : ArrayFile State)

/-- `(char *) map`. -/
def toBytes (b : WordBitmap) : ℕ → UInt8 := fun a => byteOf (b.wordAt (a / 4)).toNat (a % 4)

/-- `Bitmap::WriteBack`. -/
def writeBack (b : WordBitmap) (s : State) : State :=
  file.writeAt s b.toBytes (4 * b.map.length) 0

/-- `Bitmap::FetchFrom`. -/
def fetchFrom (b : WordBitmap) (s : State) : WordBitmap :=
  let bytes := file.readAt s b.toBytes (4 * b.map.length) 0
  { b with
    map := (List.range b.map.length).map fun k => BitVec.ofNat 32 (word bytes (4 * k))
    length_map := by
      rw [List.length_map, List.length_range]
      exact b.length_map }

theorem word_toBytes (b : WordBitmap) (k : ℕ) : word b.toBytes (4 * k) = (b.wordAt k).toNat := by
  have hbytes : ∀ i, i < 4 → b.toBytes (4 * k + i) = byteOf (b.wordAt k).toNat i := by
    intro i hi
    have hdiv : (4 * k + i) / 4 = k := by omega
    have hmod : (4 * k + i) % 4 = i := by omega
    rw [toBytes, hdiv, hmod]
  rw [word_eq hbytes]
  exact Nat.mod_eq_of_lt (b.wordAt k).isLt

/-- The bytes of the array are those of the bits. -/
theorem ofBytes_toBytes (b : WordBitmap) : Bitmap.ofBytes b.toBytes = b.bit := by
  funext i
  have hword : i / 8 / 4 = i / bitsInWord := Nat.div_div_eq_div_mul i 8 4
  have hindex : i % 8 + 8 * (i / 8 % 4) = i % bitsInWord := by
    rw [show bitsInWord = 32 from rfl]
    omega
  have hbyte : (b.toBytes (i / 8)).toNat =
      (b.wordAt (i / bitsInWord)).toNat / 2 ^ (8 * (i / 8 % 4)) % 2 ^ 8 := by
    rw [toBytes, hword, byteOf, UInt8.toNat_ofNat', Nat.mod_mod, pow_mul]
    rfl
  rw [Bitmap.ofBytes, hbyte, Nat.testBit_mod_two_pow, Nat.testBit_div_two_pow, bit, BitVec.getLsbD,
    hindex, decide_eq_true (Nat.mod_lt i (by decide)), Bool.true_and]

/-- **A bitmap that was written is read back**, into any other one of the same size. -/
theorem fetchFrom_writeBack {b b' : WordBitmap} {s : State} (hnum : b'.numBits = b.numBits)
    (hlength : 4 * b.map.length ≤ file.length s) :
    b'.fetchFrom file (b.writeBack file s) = b := by
  have hwords : b'.map.length = b.map.length := by
    rw [b.length_map, b'.length_map, hnum]
  have hlength' : 0 + 4 * b.map.length ≤ file.length (b.writeBack file s) := by
    rw [Nat.zero_add]
    exact hlength.trans (file.writeAt_length s _ _ 0 (by omega))
  have hbytes : ∀ a, a < 4 * b.map.length →
      file.readAt (b.writeBack file s) b'.toBytes (4 * b.map.length) 0 a = b.toBytes a := by
    intro a ha
    rw [file.readAt_byte _ _ _ 0 a hlength' ha, writeBack,
      file.writeAt_byte s b.toBytes _ 0 a (by omega) ha]
  have hword : ∀ k, k < b.map.length →
      word (file.readAt (b.writeBack file s) b'.toBytes (4 * b.map.length) 0) (4 * k) =
        (b.wordAt k).toNat := by
    intro k hk
    rw [← word_toBytes, word, word, hbytes _ (by omega), hbytes _ (by omega),
      hbytes _ (by omega), hbytes _ (by omega)]
  have hmap : (b'.fetchFrom file (b.writeBack file s)).map = b.map := by
    show (List.range b'.map.length).map (fun k => BitVec.ofNat 32
      (word (file.readAt (b.writeBack file s) b'.toBytes (4 * b'.map.length) 0) (4 * k))) = _
    rw [hwords]
    apply List.ext_getElem
    · rw [List.length_map, List.length_range]
    · intro k hk hk'
      rw [List.getElem_map, List.getElem_range, hword k hk', BitVec.ofNat_toNat,
        BitVec.setWidth_eq, wordAt, List.getD_eq_getElem _ _ hk']
  apply eq_of_bit
  · exact hnum
  · funext i
    rw [bit, bit, wordAt, wordAt, hmap]

/-! ## The index as an `int` -/

theorem toNat_asInt {i : ℕ} (hi : i < 2 ^ 32) : (asInt (some i)).toUInt32.toNat = i := by
  rw [asInt, UInt32.toUInt32_toInt32, UInt32.toNat_ofNat']
  exact Nat.mod_eq_of_lt hi

/-- No index is `-1`. -/
theorem asInt_eq_iff {o : Option ℕ} (ho : ∀ i, o = some i → i < 2 ^ 32 - 1) :
    asInt o = -1 ↔ o = none := by
  cases o with
  | none => exact iff_of_true rfl rfl
  | some i =>
    have hi := ho i rfl
    have hne : asInt (some i) ≠ -1 := by
      intro heq
      have hnat := toNat_asInt (show i < 2 ^ 32 by omega)
      rw [heq] at hnat
      have hminus : ((-1 : Int32).toUInt32).toNat = 2 ^ 32 - 1 := by decide
      omega
    exact iff_of_false hne (Option.some_ne_none i)

theorem toInt_asInt {i : ℕ} (hi : i < 2 ^ 32) :
    (asInt (some i)).toInt = if i < 2 ^ 31 then (i : ℤ) else (i : ℤ) - 2 ^ 32 := by
  have hnat : (UInt32.ofNat i).toBitVec.toNat = i := by
    rw [UInt32.toNat_toBitVec, UInt32.toNat_ofNat', Nat.mod_eq_of_lt hi]
  show (UInt32.ofNat i).toBitVec.toInt = _
  rw [BitVec.toInt_eq_toNat_cond, hnat]
  exact ite_congr (propext (by omega)) (fun _ => rfl) (fun _ => rfl)

end WordBitmap
end PaldOs
