import Mathlib.Data.List.Range
import Mathlib.Data.Nat.Bitwise
import PaldOs.Bytes

/-! # What is stored on the disk

A sector has 128 bytes.  A file header fills one sector with 32 words: the number of
bytes and of data sectors it covers, up to 29 data sectors and the sector of the next
header of the file.  The free map has one bit for each sector.  A directory is a
sequence of entries of 32 bytes.

Each has its form in memory here, and a way to the bytes and back.
-/
namespace PaldOs

/-- `SECTOR_SIZE`. -/
def sectorSize : ℕ := 128

/-- `NUM_SECTORS`. -/
def numSectors : ℕ := 1024

/-- `NUM_DIRECT`, the data sectors of a header. -/
def numDirect : ℕ := 29

/-- `FILE_NAME_MAX_LEN`. -/
def fileNameMaxLen : ℕ := 20

/-- The bytes of a header, all its data sectors full. -/
def headerBytes : ℕ := numDirect * sectorSize

/-- The bytes of a sector. -/
abbrev Sector := ℕ → UInt8

/-! ## File headers -/

/-- `RawFileHeader`. -/
structure RawFileHeader where
  numBytes : ℕ
  numSectors : ℕ
  dataSectors : ℕ → ℕ
  nextFileHeader : ℕ

namespace RawFileHeader

/-- The words of the header, in their order. -/
def word (h : RawFileHeader) (i : ℕ) : ℕ :=
  if i = 0 then h.numBytes
  else if i = 1 then h.numSectors
  else if i < numDirect + 2 then h.dataSectors (i - 2)
  else h.nextFileHeader

/-- The header as bytes. -/
def toSector (h : RawFileHeader) : Sector := fun a => byteOf (h.word (a / 4)) (a % 4)

/-- The bytes as a header. -/
def ofSector (s : Sector) : RawFileHeader where
  numBytes := PaldOs.word s 0
  numSectors := PaldOs.word s 4
  dataSectors i := if i < numDirect then PaldOs.word s (8 + 4 * i) else 0
  nextFileHeader := PaldOs.word s 124

/-- The numbers of a header fit in a word each, and there are no more of them than those
29. -/
structure Fits (h : RawFileHeader) : Prop where
  numBytes : h.numBytes < 2 ^ 32
  numSectors : h.numSectors < 2 ^ 32
  dataSectors : ∀ i, h.dataSectors i < 2 ^ 32
  noMore : ∀ i, numDirect ≤ i → h.dataSectors i = 0
  next : h.nextFileHeader < 2 ^ 32

theorem fits_ofSector (s : Sector) : (ofSector s).Fits := by
  refine ⟨word_lt s 0, word_lt s 4, fun i => ?_, fun i hi => if_neg (Nat.not_lt.mpr hi),
    word_lt s 124⟩
  show (if i < numDirect then PaldOs.word s (8 + 4 * i) else 0) < 2 ^ 32
  split
  · exact word_lt s _
  · decide

theorem word_toSector (h : RawFileHeader) (i : ℕ) :
    PaldOs.word h.toSector (4 * i) = h.word i % 2 ^ 32 := by
  refine word_eq fun j hj => ?_
  have hdiv : (4 * i + j) / 4 = i := by omega
  have hmod : (4 * i + j) % 4 = j := by omega
  rw [toSector, hdiv, hmod]

/-- **A header written to a sector is read back.** -/
theorem ofSector_toSector {h : RawFileHeader} (hf : h.Fits) : ofSector h.toSector = h := by
  have hnum : PaldOs.word h.toSector 0 = h.numBytes :=
    (word_toSector h 0).trans (Nat.mod_eq_of_lt hf.numBytes)
  have hsec : PaldOs.word h.toSector 4 = h.numSectors :=
    (word_toSector h 1).trans (Nat.mod_eq_of_lt hf.numSectors)
  have hnext : PaldOs.word h.toSector 124 = h.nextFileHeader :=
    (word_toSector h 31).trans (Nat.mod_eq_of_lt hf.next)
  have hdata : ∀ i, (if i < numDirect then PaldOs.word h.toSector (8 + 4 * i) else 0) =
      h.dataSectors i := by
    intro i
    split
    · rename_i hi
      have hword : h.word (2 + i) = h.dataSectors i := by
        have hlt : 2 + i < numDirect + 2 := by omega
        rw [word, if_neg (by omega), if_neg (by omega), if_pos hlt, Nat.add_sub_cancel_left]
      rw [show 8 + 4 * i = 4 * (2 + i) by omega, word_toSector, hword,
        Nat.mod_eq_of_lt (hf.dataSectors i)]
    · rename_i hi
      exact (hf.noMore i (Nat.not_lt.mp hi)).symm
  simp only [ofSector, hnum, hsec, hnext, hdata]

end RawFileHeader

/-! ## The free map -/

/-- A bitmap with a bit for each sector. -/
abbrev Bitmap := ℕ → Bool

namespace Bitmap

/-- `Bitmap::Mark`. -/
def mark (b : Bitmap) (which : ℕ) : Bitmap := Function.update b which true

/-- `Bitmap::Clear`. -/
def clear (b : Bitmap) (which : ℕ) : Bitmap := Function.update b which false

/-- `Bitmap::Find`: the first clear bit, which gets set. -/
def find (b : Bitmap) : Option (ℕ × Bitmap) :=
  ((List.range numSectors).find? (fun i => !b i)).map (fun i => (i, b.mark i))

/-- `Bitmap::CountClear`. -/
def countClear (b : Bitmap) : ℕ := (List.range numSectors).countP (fun i => !b i)

/-- The bytes of the bitmap: bit `i` is bit `i % 8` of byte `i / 8`. -/
def toBytes (b : Bitmap) : ℕ → UInt8 := fun a =>
  UInt8.ofNat (Nat.ofBits (fun j : Fin 8 => b (8 * a + j)))

/-- The bitmap of some bytes. -/
def ofBytes (map : ℕ → UInt8) : Bitmap := fun i => (map (i / 8)).toNat.testBit (i % 8)

@[simp] theorem ofBytes_toBytes (b : Bitmap) : ofBytes b.toBytes = b := by
  funext i
  have hlt : i % 8 < 8 := Nat.mod_lt _ (by decide)
  have hbyte : (toBytes b (i / 8)).toNat = Nat.ofBits (fun j : Fin 8 => b (8 * (i / 8) + j)) := by
    rw [toBytes, UInt8.toNat_ofNat']
    exact Nat.mod_eq_of_lt (Nat.ofBits_lt_two_pow _)
  rw [ofBytes, hbyte, Nat.testBit_ofBits_lt _ _ hlt, Nat.div_add_mod]

theorem ofBytes_congr {map map' : ℕ → UInt8} {i : ℕ} (h : map (i / 8) = map' (i / 8)) :
    ofBytes map i = ofBytes map' i := by
  rw [ofBytes, ofBytes, h]

/-- What is found is the first clear bit. -/
theorem find_eq_some_iff {b b' : Bitmap} {i : ℕ} : b.find = some (i, b') ↔
    (i < numSectors ∧ b i = false ∧ ∀ x, x < i → b x = true) ∧ b' = b.mark i := by
  rw [find, Option.map_eq_some_iff]
  constructor
  · rintro ⟨j, hj, heq⟩
    obtain ⟨rfl, rfl⟩ := Prod.mk.inj heq
    exact ⟨find_clear_eq_some_iff.mp hj, rfl⟩
  · rintro ⟨hfirst, rfl⟩
    exact ⟨i, find_clear_eq_some_iff.mpr hfirst, rfl⟩

theorem find_eq_some {b b' : Bitmap} {i : ℕ} (h : b.find = some (i, b')) :
    i < numSectors ∧ b i = false ∧ b' = b.mark i := by
  obtain ⟨⟨hlt, hclear, -⟩, hmark⟩ := find_eq_some_iff.mp h
  exact ⟨hlt, hclear, hmark⟩

/-- A bit that gets set is one clear bit fewer. -/
theorem countClear_mark {b : Bitmap} {i : ℕ} (hi : i < numSectors) (hb : b i = false) :
    (b.mark i).countClear + 1 = b.countClear := by
  rw [countClear, countClear]
  exact countP_not_update List.nodup_range (List.mem_range.mpr hi) hb

theorem countClear_congr {b b' : Bitmap} (h : ∀ i, i < numSectors → b i = b' i) :
    b.countClear = b'.countClear := by
  rw [countClear, countClear]
  refine List.countP_congr fun i hi => ?_
  rw [h i (List.mem_range.mp hi)]

theorem countClear_le_of_le {b b' : Bitmap} (h : ∀ i, i < numSectors → b i = true → b' i = true) :
    b'.countClear ≤ b.countClear := by
  rw [countClear, countClear]
  refine List.countP_mono_left fun i hi hclear => ?_
  have hlt := List.mem_range.mp hi
  simp only [Bool.not_eq_true'] at hclear ⊢
  by_contra hset
  rw [h i hlt (Bool.not_eq_false _ ▸ hset)] at hclear
  cases hclear

/-- If more bits are set in `b'` and as many are clear, the same bits are set. -/
theorem eq_of_countClear_eq {b b' : Bitmap} (h : ∀ i, i < numSectors → b i = true → b' i = true)
    (hcount : b'.countClear = b.countClear) {i : ℕ} (hi : i < numSectors) : b' i = b i := by
  cases hclear : b i with
  | true => exact h i hi hclear
  | false =>
    by_contra hset
    have hmark := countClear_mark hi hclear
    have hle : b'.countClear ≤ (b.mark i).countClear := by
      refine countClear_le_of_le fun j hj hset' => ?_
      rcases eq_or_ne j i with rfl | hne
      · exact Bool.not_eq_false _ ▸ hset
      · rw [mark, Function.update_of_ne hne] at hset'
        exact h j hj hset'
    omega

/-- While there are clear bits, one is found. -/
theorem exists_find {b : Bitmap} (h : 0 < b.countClear) : ∃ i b', b.find = some (i, b') := by
  rw [countClear] at h
  obtain ⟨i, hi, hb⟩ := List.countP_pos_iff.mp h
  cases hfind : (List.range numSectors).find? (fun i => !b i) with
  | none =>
    have := List.find?_eq_none.mp hfind i hi
    exact absurd hb this
  | some j => exact ⟨j, b.mark j, by rw [find, hfind]; rfl⟩

-- from here on they are known by these lemmas
attribute [irreducible] find countClear

end Bitmap

/-! ## Directory entries -/

/-- `DirectoryEntry`. -/
structure DirectoryEntry where
  inUse : Bool
  sector : ℕ
  name : Fin 21 → UInt8
  isDirectory : Bool

namespace DirectoryEntry

/-- `sizeof (DirectoryEntry)`. -/
def size : ℕ := 32

/-- The entry as bytes: `inUse`, the sector from byte 4 on, the name from byte 8 on and
`isDirectory`. -/
def toBytes (e : DirectoryEntry) (o : ℕ) : UInt8 :=
  if o = 0 then e.inUse.toNat.toUInt8
  else if 4 ≤ o ∧ o < 8 then byteOf e.sector (o - 4)
  else if h : 8 ≤ o ∧ o < 29 then e.name ⟨o - 8, by omega⟩
  else if o = 29 then e.isDirectory.toNat.toUInt8
  else 0

/-- The entry at address `a`. -/
def ofBytes (mem : ℕ → UInt8) (a : ℕ) : DirectoryEntry where
  inUse := mem a != 0
  sector := word mem (a + 4)
  name i := mem (a + 8 + i)
  isDirectory := mem (a + 29) != 0

/-- An entry of zeroes, which is not in use. -/
def fresh : DirectoryEntry := ⟨false, 0, fun _ => 0, false⟩

/-- The bytes of an entry are those of the entry. -/
theorem ofBytes_eq {mem : ℕ → UInt8} {a : ℕ} {e : DirectoryEntry} (hs : e.sector < 2 ^ 32)
    (h : ∀ o, o < size → mem (a + o) = e.toBytes o) : ofBytes mem a = e := by
  have hbool : ∀ b : Bool, (b.toNat.toUInt8 != 0) = b := by decide
  have hsize : size = 32 := rfl
  have hinUse : mem a = e.inUse.toNat.toUInt8 := h 0 (by decide)
  have hdir : mem (a + 29) = e.isDirectory.toNat.toUInt8 := h 29 (by decide)
  have hword : word mem (a + 4) = e.sector := by
    rw [word_eq (n := e.sector) fun i hi => ?_, Nat.mod_eq_of_lt hs]
    have hpos : 4 ≤ 4 + i ∧ 4 + i < 8 := by omega
    rw [Nat.add_assoc, h (4 + i) (by omega), toBytes, if_neg (by omega), if_pos hpos,
      Nat.add_sub_cancel_left]
  have hname : ∀ i : Fin 21, mem (a + 8 + i) = e.name i := by
    intro i
    have hpos : 8 ≤ 8 + (i : ℕ) ∧ 8 + (i : ℕ) < 29 := by omega
    rw [Nat.add_assoc, h (8 + i) (by omega), toBytes, if_neg (by omega), if_neg (by omega),
      dif_pos hpos]
    congr 1
    exact Fin.ext (Nat.add_sub_cancel_left ..)
  simp only [ofBytes, hinUse, hdir, hbool, hword, hname]

theorem ofBytes_congr {mem mem' : ℕ → UInt8} {a a' : ℕ}
    (h : ∀ o, o < size → mem (a + o) = mem' (a' + o)) : ofBytes mem a = ofBytes mem' a' := by
  have hsize : size = 32 := rfl
  have hword : word mem (a + 4) = word mem' (a' + 4) := by
    have h0 : mem (a + 4) = mem' (a' + 4) := h 4 (by omega)
    unfold word
    simp only [Nat.add_assoc]
    rw [h0, h 5 (by omega), h 6 (by omega), h 7 (by omega)]
  have h0 : mem a = mem' a' := h 0 (by omega)
  have hname : ∀ i : Fin 21, mem (a + 8 + i) = mem' (a' + 8 + i) := by
    intro i
    rw [Nat.add_assoc, h (8 + i) (by omega), Nat.add_assoc]
  simp only [ofBytes, h0, h 29 (by omega), hword, hname]

end DirectoryEntry
end PaldOs
