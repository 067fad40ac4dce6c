import PaldOs.OpenFile

/-! # Directories

A directory in memory is its table of entries.  Names are compared and copied up to their
first null byte, and up to 20 bytes.  A table without a free entry grows by one when a name
is added.

The constructor clears `inUse` and `isDirectory` of the entries and leaves the rest as it is in
the heap; the entry by which a table grows is all from the heap, until it is filled.

The table is read from a file and written to a file, entry after entry.  A name is the list
of its bytes, without the null byte at its end.
-/
namespace PaldOs

/-- A character of a string; the string ends with a null byte. -/
def charAt (name : List UInt8) (i : ℕ) : UInt8 := name.getD i 0

/-- `!strncmp(a, b, n)`, from character `i` on. -/
def sameFrom (a b : ℕ → UInt8) (i : ℕ) : ℕ → Bool
  | 0 => true
  | n + 1 => a i == b i && (a i == 0 || sameFrom a b (i + 1) n)

namespace DirectoryEntry

/-- The characters of the name. -/
def nameAt (e : DirectoryEntry) (i : ℕ) : UInt8 := if h : i < 21 then e.name ⟨i, h⟩ else 0

/-- The entry is in use and has the name. -/
def named (e : DirectoryEntry) (name : List UInt8) : Bool :=
  e.inUse && sameFrom e.nameAt (charAt name) 0 fileNameMaxLen

/-- The entry after a file is added in its place: `isDirectory` is set for a directory and
left as it is for a file, and the last byte of the name is left. -/
def filled (e : DirectoryEntry) (name : List UInt8) (newSector : ℕ) (isDirectory : Bool) :
    DirectoryEntry where
  inUse := true
  sector := newSector
  name i := if (i : ℕ) < fileNameMaxLen then charAt name i else e.name i
  isDirectory := isDirectory || e.isDirectory

/-- The entry after its file is removed. -/
def emptied (e : DirectoryEntry) : DirectoryEntry :=
  { e with inUse := false, isDirectory := false }

/-- The name as a string. -/
def string (e : DirectoryEntry) : List UInt8 :=
  ((List.range 21).map e.nameAt).takeWhile (· != 0)

end DirectoryEntry

/-- The table of a directory. -/
abbrev Directory := List DirectoryEntry

namespace Directory

/-- Entry `j` of a table in memory. -/
def entryAt (heap : ℕ → UInt8) (j : ℕ) : DirectoryEntry :=
  .ofBytes heap (DirectoryEntry.size * j)

/-- The constructor of `Directory`: no entry is in use. -/
def onHeap (heap : ℕ → DirectoryEntry) (size : ℕ) : Directory :=
  (List.range size).map fun i => (heap i).emptied

/-- A new directory, in memory that holds `heap`. -/
def new (heap : ℕ → UInt8) (size : ℕ) : Directory := onHeap (entryAt heap) size

/-- `Directory::FindIndex`. -/
def findIndex (d : Directory) (name : List UInt8) : Option ℕ :=
  d.findIdx? (fun e => e.named name)

/-- `Directory::Find`. -/
def find (d : Directory) (name : List UInt8) : Option ℕ :=
  (d.find? (fun e => e.named name)).map DirectoryEntry.sector

/-- `Directory::FindDir`. -/
def findDir (d : Directory) (name : List UInt8) : Bool :=
  d.any (fun e => e.named name && e.isDirectory)

/-- The file goes to the first entry that is not in use, or to a new one at the end, which is
`vacant` before. -/
def insert (vacant : DirectoryEntry) (name : List UInt8) (newSector : ℕ) (isDirectory : Bool) :
    Directory → Directory
  | [] => [vacant.filled name newSector isDirectory]
  | e :: d =>
      if e.inUse then e :: insert vacant name newSector isDirectory d
      else e.filled name newSector isDirectory :: d

/-- Where the next name goes. -/
def freeIndex (d : Directory) : ℕ := d.findIdx fun e => !e.inUse

/-- `Directory::Remove`. -/
def remove (d : Directory) (name : List UInt8) : Directory :=
  match d.findIndex name with
  | some i => d.modify i DirectoryEntry.emptied
  | none => d

/-- `Directory::PrintNames`: a line for each entry in use. -/
def printNames (d : Directory) : List UInt8 :=
  (d.filter DirectoryEntry.inUse).flatMap (fun e =>
    e.string ++ if e.isDirectory then [47, 10] else [10])

/-- The table as bytes. -/
def toBytes (d : Directory) : ℕ → UInt8 := fun a =>
  (d.getD (a / DirectoryEntry.size) .fresh).toBytes (a % DirectoryEntry.size)

/-- The bytes as a table. -/
def ofBytes (bytes : ℕ → UInt8) (size : ℕ) : Directory :=
  (List.range size).map (fun i => .ofBytes bytes (DirectoryEntry.size * i))

/-- Entry `j` of the table; past its end entries are of zeroes. -/
def slot (d : Directory) (j : ℕ) : DirectoryEntry := d.getD j .fresh

open Sys

/-- `Directory::FetchFrom`, into a new directory with `size` entries: the bytes read, and the
table.  An entry behind those that are read is not in use; its name, which nothing looks at before
it is filled, is of zeroes. -/
def fetchFrom (f size : ℕ) : Sys (ℕ × Directory) := do
  assert (0 < size)
  let (result, bytes) ← OpenFile.read f (fun _ => 0) (size * DirectoryEntry.size % 2 ^ 32) true
  return (result, ofBytes bytes size)

/-- `Directory::FetchFrom` with `needTableSize`: the number of entries. -/
def tableSize (f : ℕ) : Sys ℕ := do
  let (result, _) ← fetchFrom f maxDirEntries
  return result / DirectoryEntry.size

/-- `Directory::WriteBack`. -/
def writeBack (d : Directory) (f : ℕ) : Sys Unit := do
  let _ ← OpenFile.write f d.toBytes (d.length * DirectoryEntry.size % 2 ^ 32) true

/-- `Directory::WriteBack`, the first time. -/
def writeBackFirst (d : Directory) (f : ℕ) : Sys Unit := do
  let _ ← OpenFile.writeAt f d.toBytes (d.length * DirectoryEntry.size % 2 ^ 32) 0

/-- The file system learns of a table that has grown. -/
def noteSize (d d' : Directory) : Sys Unit :=
  if d.length < d'.length then setDirectorySize d'.length else return ()

/-- `Directory::Add`: the new table, if the name is not there. -/
def add (d : Directory) (name : List UInt8) (newSector : ℕ) (isDirectory : Bool) :
    Sys (Option Directory) :=
  match d.findIndex name with
  | some _ => return none
  | none => do
      let heap ← getHeap
      noteSize d (d.insert (entryAt heap d.length) name newSector isDirectory)
      return some (d.insert (entryAt heap d.length) name newSector isDirectory)

/-! ## Entries by their index -/

section Slots
variable {d d' : Directory} {name : List UInt8} {newSector j q : ℕ} {isDirectory : Bool}

theorem slot_cons_succ (e : DirectoryEntry) : slot (e :: d) (q + 1) = slot d q := rfl

theorem slot_of_le (h : d.length ≤ q) : slot d q = .fresh := List.getD_eq_default _ _ h

/-- No entry of a new directory is in use, or that of a directory. -/
theorem slot_onHeap (heap : ℕ → DirectoryEntry) (size q : ℕ) :
    (slot (onHeap heap size) q).inUse = false ∧
    (slot (onHeap heap size) q).isDirectory = false := by
  rcases Nat.lt_or_ge q (onHeap heap size).length with hlt | hge
  · rw [slot, List.getD_eq_getElem _ _ hlt]
    simp [onHeap, DirectoryEntry.emptied]
  · rw [slot_of_le hge]
    exact ⟨rfl, rfl⟩

theorem length_onHeap {heap : ℕ → DirectoryEntry} {n : ℕ} : (onHeap heap n).length = n := by
  rw [onHeap, List.length_map, List.length_range]

theorem length_new {heap : ℕ → UInt8} {n : ℕ} : (new heap n).length = n := length_onHeap

theorem slot_new_sector (heap : ℕ → UInt8) (n q : ℕ) : (slot (new heap n) q).sector < 2 ^ 32 := by
  rcases Nat.lt_or_ge q n with h | h
  · rw [slot, List.getD_eq_getElem _ _ (by rwa [length_new])]
    simp only [new, onHeap, List.getElem_map]
    exact word_lt _ _
  · rw [slot_of_le (by rwa [length_new])]
    exact Nat.two_pow_pos 32

theorem lt_of_inUse (h : (slot d q).inUse = true) : q < d.length := by
  by_contra hle
  rw [slot_of_le (Nat.not_lt.mp hle)] at h
  cases h

theorem slot_ofBytes {bytes : ℕ → UInt8} {size : ℕ} (h : q < size) :
    slot (ofBytes bytes size) q = .ofBytes bytes (DirectoryEntry.size * q) := by
  rw [slot, ofBytes, List.getD_eq_getElem _ _ (by simpa using h)]
  simp

theorem length_ofBytes {bytes : ℕ → UInt8} {size : ℕ} : (ofBytes bytes size).length = size := by
  simp [ofBytes]

theorem findIndex_eq_some (h : d.findIndex name = some j) :
    j < d.length ∧ (slot d j).named name = true := by
  obtain ⟨hlt, hj, -⟩ := List.findIdx?_eq_some_iff_getElem.mp h
  refine ⟨hlt, ?_⟩
  rw [slot, List.getD_eq_getElem _ _ hlt]
  exact hj

theorem findIndex_eq_none (h : d.findIndex name = none) (q : ℕ) :
    (slot d q).named name = false := by
  rcases Nat.lt_or_ge q d.length with hq | hq
  · rw [slot, List.getD_eq_getElem _ _ hq]
    exact List.findIdx?_eq_none_iff.mp h _ (List.getElem_mem hq)
  · rw [slot_of_le hq]
    rfl

theorem findIndex_iff : d.findIndex name = some j ↔
    (slot d j).named name = true ∧ ∀ q, q < j → (slot d q).named name = false := by
  rw [findIndex, List.findIdx?_eq_some_iff_getElem]
  constructor
  · rintro ⟨hlt, hj, hq⟩
    refine ⟨?_, fun q hqj => ?_⟩
    · rwa [slot, List.getD_eq_getElem _ _ hlt]
    · rw [slot, List.getD_eq_getElem _ _ (hqj.trans hlt)]
      exact Bool.eq_false_iff.mpr (hq q hqj)
  · rintro ⟨hj, hq⟩
    have hu : (slot d j).inUse = true := (Bool.and_eq_true_iff.mp hj).1
    have hlt := lt_of_inUse hu
    refine ⟨hlt, ?_, fun q hqj => ?_⟩
    · rwa [slot, List.getD_eq_getElem _ _ hlt] at hj
    · have := hq q hqj
      rw [slot, List.getD_eq_getElem _ _ (hqj.trans hlt)] at this
      exact Bool.eq_false_iff.mp this

/-- Entries of zeroes at the end of the table make no difference. -/
theorem findIndex_congr (h : ∀ q, slot d q = slot d' q) : d.findIndex name = d'.findIndex name := by
  refine Option.ext fun j => ?_
  rw [findIndex_iff, findIndex_iff]
  simp only [h]

theorem find_eq (d : Directory) (name : List UInt8) :
    d.find name = (d.findIndex name).map fun j => (slot d j).sector := by
  induction d with
  | nil => rfl
  | cons e d ih =>
    rw [find, findIndex, List.find?_cons, List.findIdx?_cons]
    by_cases he : e.named name = true
    · simp [he, slot]
    · rw [Bool.not_eq_true] at he
      simp only [he, Bool.false_eq_true, if_false]
      rw [find, findIndex] at ih
      rw [ih, Option.map_map]
      rfl

theorem findDir_iff : d.findDir name = true ↔
    ∃ j, (slot d j).named name = true ∧ (slot d j).isDirectory = true := by
  rw [findDir, List.any_eq_true]
  constructor
  · rintro ⟨e, he, hn⟩
    obtain ⟨j, hj, rfl⟩ := List.getElem_of_mem he
    rw [Bool.and_eq_true] at hn
    refine ⟨j, ?_⟩
    rw [slot, List.getD_eq_getElem _ _ hj]
    exact hn
  · rintro ⟨j, hn, hd⟩
    rw [DirectoryEntry.named, Bool.and_eq_true] at hn
    have hj := lt_of_inUse hn.1
    refine ⟨slot d j, ?_, ?_⟩
    · rw [slot, List.getD_eq_getElem _ _ hj]
      exact List.getElem_mem hj
    · rw [DirectoryEntry.named, hn.1, hn.2, hd]
      rfl

theorem find_congr (h : ∀ q, slot d q = slot d' q) : d.find name = d'.find name := by
  rw [find_eq, find_eq, findIndex_congr h]
  simp only [h]

theorem findDir_congr (h : ∀ q, slot d q = slot d' q) : d.findDir name = d'.findDir name := by
  rw [Bool.eq_iff_iff, findDir_iff, findDir_iff]
  simp only [h]

/-- **`Remove` empties the entry that is found.** -/
theorem slot_remove (h : d.findIndex name = some j) (q : ℕ) :
    slot (d.remove name) q = if q = j then (slot d j).emptied else slot d q := by
  rw [remove, h]
  simp only [slot, List.getD_eq_getElem?_getD, List.getElem?_modify]
  obtain ⟨hlt, -⟩ := findIndex_eq_some h
  by_cases hq : q = j
  · subst hq
    simp [List.getElem?_eq_getElem hlt]
  · rw [if_neg hq]
    simp [Ne.symm hq]

theorem slot_freeIndex (d : Directory) : (slot d d.freeIndex).inUse = false := by
  rcases Nat.lt_or_ge d.freeIndex d.length with hlt | hge
  · have hfound : (!d[d.freeIndex].inUse) = true := List.findIdx_getElem (w := hlt)
    rw [slot, List.getD_eq_getElem _ _ hlt]
    exact Bool.not_eq_true' _ ▸ hfound
  · rw [slot_of_le hge]
    rfl

theorem inUse_of_lt_freeIndex {q : ℕ} (hq : q < d.freeIndex) : (slot d q).inUse = true := by
  have hlt : q < d.length := Nat.lt_of_lt_of_le hq List.findIdx_le_length
  have hused := List.not_of_lt_findIdx hq
  rw [slot, List.getD_eq_getElem _ _ hlt]
  simpa using hused

theorem freeIndex_le (hfree : (slot d j).inUse = false) : d.freeIndex ≤ j := by
  by_contra hlt
  rw [inUse_of_lt_freeIndex (Nat.not_le.mp hlt)] at hfree
  cases hfree

/-- The first entry that is not in use. -/
theorem freeIndex_eq (hfree : (slot d j).inUse = false)
    (hused : ∀ q, q < j → (slot d q).inUse = true) :
    d.freeIndex = j := by
  refine Nat.le_antisymm (freeIndex_le hfree) ?_
  by_contra hlt
  have hat := slot_freeIndex d
  rw [hused _ (Nat.not_le.mp hlt)] at hat
  cases hat

/-- What is in the place of the entry before it is filled. -/
def vacant (d : Directory) (heap : DirectoryEntry) : DirectoryEntry :=
  if d.freeIndex < d.length then slot d d.freeIndex else heap

/-- **The first free entry is filled**, or a new one. -/
theorem slot_insert (d : Directory) (heap : DirectoryEntry) (name : List UInt8) (newSector : ℕ)
    (isDirectory : Bool) (q : ℕ) : slot (d.insert heap name newSector isDirectory) q =
      if q = d.freeIndex then (d.vacant heap).filled name newSector isDirectory else slot d q := by
  induction d generalizing q with
  | nil =>
    cases q with
    | zero => rfl
    | succ q => rfl
  | cons e d ih =>
    by_cases he : e.inUse = true
    · have hfree : freeIndex (e :: d) = freeIndex d + 1 := by
        simp [freeIndex, List.findIdx_cons, he]
      have hvacant : vacant (e :: d) heap = vacant d heap := by
        simp only [vacant, hfree, List.length_cons, Nat.add_lt_add_iff_right, slot_cons_succ]
      rw [insert, if_pos he, hfree, hvacant]
      cases q with
      | zero => rfl
      | succ q =>
        rw [slot_cons_succ, ih, slot_cons_succ]
        simp only [Nat.add_right_cancel_iff]
    · have hfree : freeIndex (e :: d) = 0 := by
        simp [freeIndex, List.findIdx_cons, Bool.eq_false_iff.mpr he]
      rw [insert, if_neg he, vacant, hfree,
        if_pos (show 0 < (e :: d).length from Nat.succ_pos _)]
      cases q with
      | zero => rfl
      | succ q => rfl

theorem length_insert (d : Directory) (heap : DirectoryEntry) (name : List UInt8) (newSector : ℕ)
    (isDirectory : Bool) : (d.insert heap name newSector isDirectory).length =
      max d.length (d.freeIndex + 1) := by
  induction d with
  | nil => rfl
  | cons e d ih =>
    by_cases he : e.inUse = true
    · have hfree : freeIndex (e :: d) = freeIndex d + 1 := by
        simp [freeIndex, List.findIdx_cons, he]
      rw [insert, if_pos he, hfree, List.length_cons, ih, List.length_cons]
      omega
    · have hfree : freeIndex (e :: d) = 0 := by
        simp [freeIndex, List.findIdx_cons, Bool.eq_false_iff.mpr he]
      rw [insert, if_neg he, hfree, List.length_cons, List.length_cons]
      omega

theorem length_remove : (d.remove name).length = d.length := by
  rw [remove]
  split
  · exact List.length_modify ..
  · rfl

theorem any_inUse_iff : d.any DirectoryEntry.inUse = true ↔ ∃ j, (slot d j).inUse = true := by
  rw [List.any_eq_true]
  constructor
  · rintro ⟨e, he, hu⟩
    obtain ⟨j, hj, rfl⟩ := List.getElem_of_mem he
    refine ⟨j, ?_⟩
    rw [slot, List.getD_eq_getElem _ _ hj]
    exact hu
  · rintro ⟨j, hu⟩
    have hj := lt_of_inUse hu
    refine ⟨slot d j, ?_, hu⟩
    rw [slot, List.getD_eq_getElem _ _ hj]
    exact List.getElem_mem hj

end Slots

end Directory

/-! ## Names -/

section Names
variable {a b c : ℕ → UInt8} {i n : ℕ}

/-- What is the same up to the first null byte, or up to the end. -/
theorem sameFrom_iff : sameFrom a b i n = true ↔
    ∀ l, l < n → (∀ p, p < l → a (i + p) ≠ 0) → a (i + l) = b (i + l) := by
  induction n generalizing i with
  | zero => simp [sameFrom]
  | succ n ih =>
    rw [sameFrom, Bool.and_eq_true, Bool.or_eq_true, beq_iff_eq, beq_iff_eq, ih]
    constructor
    · rintro ⟨h0, h⟩ l hl hne
      cases l with
      | zero => exact h0
      | succ l =>
        rcases h with h | h
        · exact absurd h (hne 0 (Nat.succ_pos _))
        · have := h l (by omega) fun p hp => by
            have := hne (p + 1) (by omega)
            rwa [show i + 1 + p = i + (p + 1) by omega]
          rwa [show i + 1 + l = i + (l + 1) by omega] at this
    · intro h
      refine ⟨h 0 (Nat.succ_pos _) fun p hp => absurd hp (Nat.not_lt_zero _), ?_⟩
      by_cases h0 : a i = 0
      · exact Or.inl h0
      · refine Or.inr fun l hl hne => ?_
        rw [show i + 1 + l = i + (l + 1) by omega]
        refine h (l + 1) (by omega) fun p hp => ?_
        cases p with
        | zero => exact h0
        | succ p =>
          have := hne p (by omega)
          rwa [show i + 1 + p = i + (p + 1) by omega] at this

theorem sameFrom_congr {b' : ℕ → UInt8} (h : ∀ l, l < n → b' (i + l) = b (i + l)) :
    sameFrom a b' i n = sameFrom a b i n := by
  rw [Bool.eq_iff_iff, sameFrom_iff, sameFrom_iff]
  refine forall_congr' fun l => forall_congr' fun hl => ?_
  rw [h l hl]

theorem sameFrom_symm (h : sameFrom a b i n = true) : sameFrom b a i n = true := by
  rw [sameFrom_iff] at h ⊢
  intro l hl hne
  refine (h l hl fun p hp => ?_).symm
  -- the two agree up to here, by induction on the position
  induction p using Nat.strong_induction_on with
  | _ p ih =>
    rw [h p (by omega) fun r hr => ih r hr (by omega)]
    exact hne p hp

theorem sameFrom_trans (h : sameFrom a b i n = true) (h' : sameFrom b c i n = true) :
    sameFrom a c i n = true := by
  have hb := sameFrom_iff.mp h
  rw [sameFrom_iff] at h' ⊢
  intro l hl hne
  rw [hb l hl hne]
  refine h' l hl fun p hp => ?_
  rw [← hb p (by omega) fun r hr => hne r (by omega)]
  exact hne p hp

end Names

namespace DirectoryEntry
variable {e e' : DirectoryEntry} {name : List UInt8}

/-- Two entries have the same name. -/
def sameName (e e' : DirectoryEntry) : Bool := sameFrom e.nameAt e'.nameAt 0 fileNameMaxLen

theorem named_filled (e e' : DirectoryEntry) (name : List UInt8) (newSector : ℕ)
    (isDirectory : Bool) (hu : e'.inUse = true) :
    e'.sameName (e.filled name newSector isDirectory) = e'.named name := by
  have hname : ∀ l, l < fileNameMaxLen →
      (e.filled name newSector isDirectory).nameAt (0 + l) = charAt name (0 + l) := by
    intro l hl
    have hl' : l < 20 := hl
    have h21 : 0 + l < 21 := by omega
    rw [nameAt, dif_pos h21, filled]
    exact if_pos (show 0 + l < fileNameMaxLen by omega)
  rw [sameName, named, hu, Bool.true_and, sameFrom_congr hname]

theorem named_filled_self (e : DirectoryEntry) (name : List UInt8) (newSector : ℕ)
    (isDirectory : Bool) : (e.filled name newSector isDirectory).named name = true := by
  have hu : (e.filled name newSector isDirectory).inUse = true := rfl
  rw [← named_filled e _ name newSector isDirectory hu, sameName, sameFrom_iff]
  intro _ _ _
  rfl

/-- What is filled for a file is that of a file if it was not that of a directory. -/
theorem isDirectory_filled {newSector : ℕ} {isDirectory : Bool}
    (h : isDirectory = false → e.isDirectory = false) :
    (e.filled name newSector isDirectory).isDirectory = isDirectory := by
  show (isDirectory || e.isDirectory) = isDirectory
  cases isDirectory with
  | false => rw [h rfl, Bool.false_or]
  | true => exact Bool.true_or _

theorem sameName_of_named (h : e.named name = true) (h' : e'.named name = true) :
    e.sameName e' = true := by
  rw [named, Bool.and_eq_true] at h h'
  exact sameFrom_trans h.2 (sameFrom_symm h'.2)

theorem ofBytes_zero {mem : ℕ → UInt8} {a : ℕ} (h : ∀ o, o < size → mem (a + o) = 0) :
    ofBytes mem a = fresh := by
  refine ofBytes_eq (by decide) fun o ho => ?_
  rw [h o ho, toBytes]
  unfold fresh
  simp only
  split
  · rfl
  · split
    · rw [byteOf]
      simp
    · split
      · rfl
      · split <;> rfl

end DirectoryEntry
end PaldOs
