import PaldOs.FileChain

/-! # Writing to a file

What `Write` does to the disk.  It may write over bytes, give the last header more space
and link new headers, and at every moment the file is in good order, its sectors are
marked in the free map, those that are new were clear before, and the rest of the disk
is as it was.  `Progress` says all this of a moment of a `Write`, in terms of the
disk, the file and the free map it began with.

New headers are a special case: their sectors are marked on disk before they belong to
the file.  They are the `reserved` ones.
-/
namespace PaldOs

open Sys

/-! ## The state during a `Write` -/

/-- Only the disk and one `OpenFile` object are different. -/
def System.writing (s : System) (f : ℕ) (disk : ℕ → Sector) (o : OpenFile) : System :=
  (s.withDisk disk).putOpenFile f o

namespace System
variable (s : System) (f : ℕ) (disk : ℕ → Sector) (o : OpenFile)

@[simp] theorem writing_disk : (s.writing f disk o).disk = disk := rfl
@[simp] theorem writing_self : (s.writing f disk o).openFile f = o := Function.update_self ..
@[simp] theorem writing_freeMapFile : (s.writing f disk o).freeMapFile = s.freeMapFile := rfl
@[simp] theorem writing_openFilesTable :
    (s.writing f disk o).openFilesTable = s.openFilesTable := rfl
@[simp] theorem writing_putSector (n : ℕ) (data : Sector) :
    (s.writing f disk o).putSector n data = s.writing f (Function.update disk n data) o := rfl
@[simp] theorem writing_withDisk (disk' : ℕ → Sector) :
    (s.writing f disk o).withDisk disk' = s.writing f disk' o := rfl
@[simp] theorem writing_putOpenFile (o' : OpenFile) :
    (s.writing f disk o).putOpenFile f o' = s.writing f disk o' :=
  putOpenFile_putOpenFile ..

theorem writing_start : s.writing f s.disk (s.openFile f) = s := by
  simp [writing, withDisk, putOpenFile]

end System

theorem FreeMapOk.writing {s : System} {m f : ℕ} (hm : FreeMapOk s m) (hf : f ≠ s.freeMapFile)
    (disk : ℕ → Sector) (o : OpenFile) : FreeMapOk (s.writing f disk o) m := by
  have heq : (s.writing f disk o).openFile s.freeMapFile = s.openFile s.freeMapFile :=
    Function.update_of_ne hf.symm ..
  refine ⟨?_, ?_, ?_, hm.lt⟩
  · rw [System.writing_freeMapFile, heq]
    exact hm.numBytes_eq
  · rw [System.writing_freeMapFile, heq]
    exact hm.numSectors_eq
  · rw [System.writing_freeMapFile, heq]
    exact hm.sector_eq

/-! ## A moment of a `Write` -/

/-- A file and the free map, whose data is in sector `m`, before a `Write`. -/
structure Stored (m : ℕ) (disk : ℕ → Sector) (hs : List ℕ) (freeMap : Bitmap) : Prop where
  ok : FileOk disk hs
  onDisk : ∀ x, x < numSectors → mapOn disk m x = freeMap x
  owned : ∀ x, Owned disk hs x → freeMap x = true
  map_marked : freeMap m = true
  map_apart : ¬ Owned disk hs m
  zero_marked : freeMap 0 = true

/-- **A moment of a `Write`** that began with the file `hs₀` on `disk₀` and the free map
`map₀`. -/
structure Progress (m : ℕ) (disk₀ : ℕ → Sector) (hs₀ : List ℕ) (map₀ : Bitmap)
    (disk : ℕ → Sector) (hs : List ℕ) (freeMap : Bitmap) (reserved : List ℕ) : Prop where
  ok : FileOk disk hs
  chain : hs₀ <+: hs
  count_le : sectorCount disk₀ hs₀ ≤ sectorCount disk hs
  data : ∀ q, q < sectorCount disk₀ hs₀ → dataSector disk hs q = dataSector disk₀ hs₀ q
  fresh : ∀ x, Owned disk hs x → Owned disk₀ hs₀ x ∨ map₀ x = false
  onDisk : ∀ x, x < numSectors → mapOn disk m x = freeMap x
  marks : ∀ x, freeMap x = true ↔ map₀ x = true ∨ Owned disk hs x ∨ x ∈ reserved
  reserved_lt : ∀ x ∈ reserved, x < numSectors
  reserved_clear : ∀ x ∈ reserved, map₀ x = false
  reserved_apart : ∀ x ∈ reserved, ¬ Owned disk hs x
  reserved_nodup : reserved.Nodup
  frame : ∀ x, x ≠ m → ¬ Owned disk hs x → disk x = disk₀ x
  free : freeMap.countClear + (sectorCount disk hs + hs.length + reserved.length) =
    map₀.countClear + (sectorCount disk₀ hs₀ + hs₀.length)

section Progress
variable {m : ℕ} {disk₀ disk disk' : ℕ → Sector} {hs₀ hs hs' : List ℕ}
  {map₀ freeMap freeMap' : Bitmap} {reserved reserved' : List ℕ}

theorem Stored.progress (hst : Stored m disk hs freeMap) :
    Progress m disk hs freeMap disk hs freeMap [] where
  ok := hst.ok
  chain := List.prefix_rfl
  count_le := le_rfl
  data _ _ := rfl
  fresh _ := Or.inl
  onDisk := hst.onDisk
  marks x := by
    constructor
    · exact Or.inl
    · rintro (hx | hx | hx)
      · exact hx
      · exact hst.owned x hx
      · cases hx
  reserved_lt x hx := by cases hx
  reserved_clear x hx := by cases hx
  reserved_apart x hx := by cases hx
  reserved_nodup := List.nodup_nil
  frame _ _ _ := rfl
  free := rfl

/-- The free map does not belong to the file. -/
theorem Progress.map_apart (hp : Progress m disk₀ hs₀ map₀ disk hs freeMap reserved)
    (hst : Stored m disk₀ hs₀ map₀) : ¬ Owned disk hs m := by
  intro hown
  rcases hp.fresh m hown with hold | hclear
  · exact hst.map_apart hold
  · rw [hst.map_marked] at hclear
    cases hclear

/-- The sectors of the file at first are its sectors still. -/
theorem Progress.owned_of_start (hp : Progress m disk₀ hs₀ map₀ disk hs freeMap reserved) {x : ℕ}
    (hx : Owned disk₀ hs₀ x) : Owned disk hs x := by
  rcases hx with ⟨i, hi, rfl⟩ | ⟨q, hq, rfl⟩
  · exact Or.inl ⟨i, lt_of_lt_of_le hi hp.chain.length_le, (getD_of_chain hp.chain hi).symm⟩
  · exact Or.inr ⟨q, lt_of_lt_of_le hq hp.count_le, (hp.data q hq).symm⟩

/-- After a `Write` that has nothing left over, the file and the free map are in order. -/
theorem Progress.stored (hp : Progress m disk₀ hs₀ map₀ disk hs freeMap reserved)
    (hst : Stored m disk₀ hs₀ map₀) : Stored m disk hs freeMap where
  ok := hp.ok
  onDisk := hp.onDisk
  owned x hx := (hp.marks x).mpr (Or.inr (Or.inl hx))
  map_marked := (hp.marks m).mpr (Or.inl hst.map_marked)
  map_apart := hp.map_apart hst
  zero_marked := (hp.marks 0).mpr (Or.inl hst.zero_marked)

/-- Data sectors of the file are written. -/
theorem Progress.overwrite (hp : Progress m disk₀ hs₀ map₀ disk hs freeMap reserved)
    (hst : Stored m disk₀ hs₀ map₀)
    (hheaders : ∀ l, l < hs.length → headerOf disk' hs l = headerOf disk hs l)
    (hout : ∀ x, ¬ Owned disk hs x → disk' x = disk x) :
    Progress m disk₀ hs₀ map₀ disk' hs freeMap reserved := by
  have hok := hp.ok.of_headers hheaders
  have hcount := sectorCount_congr hp.ok.pos hheaders
  have howned := hp.ok.owned_congr hheaders
  refine ⟨hok, hp.chain, hcount ▸ hp.count_le, fun q hq => ?_, fun x hx => ?_, fun x hx => ?_,
    fun x => ?_, hp.reserved_lt, hp.reserved_clear, fun x hx => ?_, hp.reserved_nodup,
    fun x hxm hx => ?_, hcount ▸ hp.free⟩
  · rw [hp.ok.dataSector_congr hheaders (lt_of_lt_of_le hq hp.count_le)]
    exact hp.data q hq
  · exact hp.fresh x ((howned x).mp hx)
  · rw [← hp.onDisk x hx, mapOn, mapOn, hout m (hp.map_apart hst)]
  · rw [howned x]
    exact hp.marks x
  · rw [howned x]
    exact hp.reserved_apart x hx
  · rw [howned x] at hx
    rw [hout x hx]
    exact hp.frame x hxm hx

/-- The file gets longer.  Its new sectors are `xs`, reserved before, and those just taken
from the free map. -/
theorem Progress.longer {xs rest : List ℕ} {taken : ℕ → Prop}
    (hp : Progress m disk₀ hs₀ map₀ disk hs freeMap (xs ++ rest))
    (hl : Longer taken disk hs disk' hs')
    (htaken : ∀ y, taken y ↔ y ∈ xs ∨ Taken freeMap freeMap' y)
    (hmono : ∀ y, freeMap y = true → freeMap' y = true)
    (honDisk : ∀ x, x < numSectors → mapOn disk' m x = freeMap' x)
    (hout : ∀ x, x ≠ m → ¬ Owned disk' hs' x → disk' x = disk x)
    (hcount : freeMap'.countClear + (sectorCount disk' hs' + hs'.length) =
      freeMap.countClear + (sectorCount disk hs + hs.length + xs.length)) :
    Progress m disk₀ hs₀ map₀ disk' hs' freeMap' rest := by
  have howned : ∀ y, Owned disk' hs' y ↔ Owned disk hs y ∨ y ∈ xs ∨ Taken freeMap freeMap' y := by
    intro y
    rw [hl.owned y, htaken y]
  have hmarks : ∀ y, freeMap' y = true ↔ freeMap y = true ∨ Taken freeMap freeMap' y := by
    intro y
    constructor
    · intro hy
      cases hold : freeMap y with
      | true => exact Or.inl rfl
      | false => exact Or.inr ⟨hold, hy⟩
    · rintro (hy | hy)
      · exact hmono y hy
      · exact hy.2
  have hnodup := List.nodup_append.mp hp.reserved_nodup
  refine ⟨hl.ok, hp.chain.trans hl.chain, hp.count_le.trans hl.count_le, fun q hq => ?_,
    fun y hy => ?_, honDisk, fun y => ?_, fun y hy => ?_, fun y hy => ?_, fun y hy hown => ?_,
    hnodup.2.1, fun y hym hy => ?_, ?_⟩
  · rw [hl.data q (lt_of_lt_of_le hq hp.count_le)]
    exact hp.data q hq
  · rcases (howned y).mp hy with hy | hy | hy
    · exact hp.fresh y hy
    · exact Or.inr (hp.reserved_clear y (List.mem_append_left _ hy))
    · right
      by_contra hne
      have := (hp.marks y).mpr (Or.inl (Bool.of_not_eq_false hne))
      rw [hy.1] at this
      cases this
  · rw [hmarks y, hp.marks y, howned y, List.mem_append]
    tauto
  · exact hp.reserved_lt y (List.mem_append_right _ hy)
  · exact hp.reserved_clear y (List.mem_append_right _ hy)
  · rcases (howned y).mp hown with hown | hown | hown
    · exact hp.reserved_apart y (List.mem_append_right _ hy) hown
    · exact hnodup.2.2 y hown y hy rfl
    · have := (hp.marks y).mpr (Or.inr (Or.inr (List.mem_append_right _ hy)))
      rw [hown.1] at this
      cases this
  · have hy' : ¬ Owned disk hs y := fun h => hy ((howned y).mpr (Or.inl h))
    rw [hout y hym hy]
    exact hp.frame y hym hy'
  · have hfree := hp.free
    rw [List.length_append] at hfree
    omega

/-- **The last header gets more space**: the free map and the header are written. -/
theorem Progress.grow (hp : Progress m disk₀ hs₀ map₀ disk hs freeMap reserved)
    (hst : Stored m disk₀ hs₀ map₀) {h' : RawFileHeader} {size : ℕ}
    (hg : (headerOf disk hs (hs.length - 1)).Grows freeMap size h' freeMap')
    (hsize : (headerOf disk hs (hs.length - 1)).numBytes + size ≤ headerBytes) {data : Sector}
    (hdata : ∀ x, x < numSectors → Bitmap.ofBytes data x = freeMap' x)
    (hdisk : disk' = Function.update (Function.update disk m data) (hs.getD (hs.length - 1) 0)
      h'.toSector) :
    Progress m disk₀ hs₀ map₀ disk' hs freeMap' reserved ∧
      headerOf disk' hs (hs.length - 1) = h' ∧
      fileLength disk' hs = fileLength disk hs + size ∧
      ∀ p, p < fileLength disk hs → fileByte disk' hs p = fileByte disk hs p := by
  have hpos := hp.ok.pos
  have hapart := hp.map_apart hst
  have hhead : Owned disk hs (hs.getD (hs.length - 1) 0) := Or.inl ⟨_, by omega, rfl⟩
  have hm : ∀ i, i < hs.length → hs.getD i 0 ≠ m :=
    fun i hi heq => hapart (heq ▸ Or.inl ⟨i, hi, rfl⟩)
  have hlast : headerOf disk' hs (hs.length - 1) = h' := by
    rw [headerOf, headerOn, hdisk, Function.update_self]
    exact RawFileHeader.ofSector_toSector
      (hg.fits (hp.ok.headers _ (by omega)) (RawFileHeader.fits_ofSector _) hsize)
  have hother : ∀ i, i + 1 < hs.length → headerOf disk' hs i = headerOf disk hs i := by
    intro i hi
    refine headerOf_congr ?_
    have hne : hs.getD i 0 ≠ hs.getD (hs.length - 1) 0 := by
      intro heq
      have := hp.ok.heads_distinct i _ (by omega) (by omega) heq
      omega
    rw [hdisk, Function.update_of_ne hne, Function.update_of_ne (hm i (by omega))]
  have hmarked : ∀ x, Owned disk hs x → freeMap x = true :=
    fun x hx => (hp.marks x).mpr (Or.inr (Or.inl hx))
  obtain ⟨hl, hlen⟩ := hp.ok.grow hg hsize hlast hother hmarked
  have hp : Progress m disk₀ hs₀ map₀ disk hs freeMap ([] ++ reserved) := hp
  refine ⟨hp.longer hl (by simp) (fun y hy => (hg.marks y).mpr (Or.inl hy)) ?_ ?_ ?_,
    hlast, hlen, fun p hlt => hl.fileByte_eq hp.ok (fun q hq => ?_) hlt⟩
  · intro x hx
    rw [mapOn, hdisk, Function.update_of_ne (hm _ (by omega)).symm, Function.update_self]
    exact hdata x hx
  · intro x hxm hx
    have hne : x ≠ hs.getD (hs.length - 1) 0 :=
      fun heq => hx (heq ▸ (hl.owned _).mpr (Or.inl hhead))
    rw [hdisk, Function.update_of_ne hne, Function.update_of_ne hxm]
  · have hc := hg.count
    have hle := hg.le
    rw [sectorCount, sectorCount, hlast, List.length_nil]
    omega
  · have hne : dataSector disk hs q ≠ hs.getD (hs.length - 1) 0 :=
      fun heq => hp.ok.apart _ q (by omega) hq heq.symm
    have hnm : dataSector disk hs q ≠ m := fun heq => hapart (heq ▸ Or.inr ⟨q, hq, rfl⟩)
    rw [hdisk, Function.update_of_ne hne, Function.update_of_ne hnm]

/-- **A new header is linked to the last one**: the free map, the new header and the last
one are written. -/
theorem Progress.append {x : ℕ} {rest : List ℕ}
    (hp : Progress m disk₀ hs₀ map₀ disk hs freeMap (x :: rest))
    (hst : Stored m disk₀ hs₀ map₀)
    (hfull : (headerOf disk hs (hs.length - 1)).numBytes = headerBytes) {h' : RawFileHeader}
    {size : ℕ} (hg : RawFileHeader.empty.Grows freeMap size h' freeMap')
    (hsize : size ≤ headerBytes)
    {data : Sector} (hdata : ∀ x, x < numSectors → Bitmap.ofBytes data x = freeMap' x)
    (hdisk : disk' = Function.update (Function.update (Function.update disk m data) x h'.toSector)
      (hs.getD (hs.length - 1) 0)
      { headerOf disk hs (hs.length - 1) with nextFileHeader := x : RawFileHeader }.toSector) :
    Progress m disk₀ hs₀ map₀ disk' (hs ++ [x]) freeMap' rest ∧
      headerOf disk' (hs ++ [x]) hs.length = h' ∧
      fileLength disk' (hs ++ [x]) = fileLength disk hs + size ∧
      ∀ p, p < fileLength disk hs → fileByte disk' (hs ++ [x]) p = fileByte disk hs p := by
  have hpos := hp.ok.pos
  have hapart := hp.map_apart hst
  have hxo := hp.reserved_apart x List.mem_cons_self
  have hxlt := hp.reserved_lt x List.mem_cons_self
  have hxclear := hp.reserved_clear x List.mem_cons_self
  have hxmark : freeMap x = true := (hp.marks x).mpr (Or.inr (Or.inr List.mem_cons_self))
  have hns : numSectors = 1024 := rfl
  have hxm : x ≠ m := by
    rintro rfl
    rw [hst.map_marked] at hxclear
    cases hxclear
  have hx0 : x ≠ 0 := by
    rintro rfl
    rw [hst.zero_marked] at hxclear
    cases hxclear
  have hhead : ∀ i, i < hs.length → Owned disk hs (hs.getD i 0) := fun i hi => Or.inl ⟨i, hi, rfl⟩
  have hm : ∀ i, i < hs.length → hs.getD i 0 ≠ m := fun i hi heq => hapart (heq ▸ hhead i hi)
  have hhx : ∀ i, i < hs.length → hs.getD i 0 ≠ x := fun i hi heq => hxo (heq ▸ hhead i hi)
  have hnew : headerOn disk' x = h' := by
    rw [headerOn, hdisk, Function.update_of_ne (hhx _ (by omega)).symm, Function.update_self]
    exact RawFileHeader.ofSector_toSector (hg.fits RawFileHeader.headerOk_empty
      RawFileHeader.fits_empty ((Nat.zero_add _).trans_le hsize))
  have hlast : headerOf disk' hs (hs.length - 1) =
      { headerOf disk hs (hs.length - 1) with nextFileHeader := x } := by
    rw [headerOf, headerOn, hdisk, Function.update_self]
    have hfits : (headerOf disk hs (hs.length - 1)).Fits := RawFileHeader.fits_ofSector _
    exact RawFileHeader.ofSector_toSector
      ⟨hfits.numBytes, hfits.numSectors, hfits.dataSectors, hfits.noMore, by show x < 2 ^ 32; omega⟩
  have hother : ∀ i, i + 1 < hs.length → headerOf disk' hs i = headerOf disk hs i := by
    intro i hi
    refine headerOf_congr ?_
    have hne : hs.getD i 0 ≠ hs.getD (hs.length - 1) 0 := by
      intro heq
      have := hp.ok.heads_distinct i _ (by omega) (by omega) heq
      omega
    rw [hdisk, Function.update_of_ne hne, Function.update_of_ne (hhx i (by omega)),
      Function.update_of_ne (hm i (by omega))]
  have hmarked : ∀ y, Owned disk hs y → freeMap y = true :=
    fun y hy => (hp.marks y).mpr (Or.inr (Or.inl hy))
  obtain ⟨hl, hlen⟩ := hp.ok.append hfull hg hsize hxlt hx0 hxmark hxo hnew hlast hother hmarked
  have hend : headerOf disk' (hs ++ [x]) hs.length = h' := by
    rw [headerOf, ← hnew]
    congr 1
    simp
  have hp : Progress m disk₀ hs₀ map₀ disk hs freeMap ([x] ++ rest) := hp
  refine ⟨hp.longer hl (by simp) (fun y hy => (hg.marks y).mpr (Or.inl hy)) ?_ ?_ ?_,
    hend, hlen, fun p hlt => hl.fileByte_eq hp.ok (fun q hq => ?_) hlt⟩
  · intro y hy
    rw [mapOn, hdisk, Function.update_of_ne (hm _ (by omega)).symm, Function.update_of_ne hxm.symm,
      Function.update_self]
    exact hdata y hy
  · intro y hym hy
    have hne : y ≠ hs.getD (hs.length - 1) 0 :=
      fun heq => hy (heq ▸ (hl.owned _).mpr (Or.inl (hhead _ (by omega))))
    have hnx : y ≠ x := fun heq => hy (heq ▸ (hl.owned _).mpr (Or.inr (Or.inl rfl)))
    rw [hdisk, Function.update_of_ne hne, Function.update_of_ne hnx, Function.update_of_ne hym]
  · have hc := hg.count
    have hempty : RawFileHeader.empty.numSectors = 0 := rfl
    have hnd : numDirect = 29 := rfl
    have hfullSectors : (headerOf disk hs (hs.length - 1)).numSectors = numDirect := by
      rw [(hp.ok.headers _ (by omega)).numSectors_eq, hfull]
      decide
    rw [sectorCount, sectorCount, List.length_append, List.length_singleton, Nat.add_sub_cancel,
      hend, hfullSectors, hnd]
    omega
  · have hne : dataSector disk hs q ≠ hs.getD (hs.length - 1) 0 :=
      fun heq => hp.ok.apart _ q (by omega) hq heq.symm
    have hnm : dataSector disk hs q ≠ m := fun heq => hapart (heq ▸ Or.inr ⟨q, hq, rfl⟩)
    have hnx : dataSector disk hs q ≠ x := fun heq => hxo (heq ▸ Or.inr ⟨q, hq, rfl⟩)
    rw [hdisk, Function.update_of_ne hne, Function.update_of_ne hnx, Function.update_of_ne hnm]

end Progress

/-! ## The contents -/

/-- **The file holds what it held at first**, with the first `k` bytes of `src` written at
byte `c`. -/
structure Holds (disk₀ : ℕ → Sector) (hs₀ : List ℕ) (c : ℕ) (src : ℕ → UInt8) (k : ℕ)
    (disk : ℕ → Sector) (hs : List ℕ) : Prop where
  length : fileLength disk hs = max (fileLength disk₀ hs₀) (c + k)
  byte : ∀ p, p < fileLength disk hs → fileByte disk hs p =
    if c ≤ p ∧ p < c + k then src (p - c) else fileByte disk₀ hs₀ p

section Holds
variable {disk₀ disk disk₁ disk₂ : ℕ → Sector} {hs₀ hs hs₁ : List ℕ} {c k n : ℕ} {src : ℕ → UInt8}

theorem Holds.start (hc : c ≤ fileLength disk₀ hs₀) : Holds disk₀ hs₀ c src 0 disk₀ hs₀ := by
  refine ⟨by omega, fun p _ => ?_⟩
  rw [if_neg (by omega)]

/-- Sectors of others are written. -/
theorem Holds.congr (hh : Holds disk₀ hs₀ c src k disk hs) (hf : FileOk disk hs)
    (h : ∀ x, Owned disk hs x → disk₁ x = disk x) : Holds disk₀ hs₀ c src k disk₁ hs := by
  have hlen := fileLength_congr hf.pos fun i hi => headerOf_of_owned h hi
  refine ⟨hlen.trans hh.length, fun p hp => ?_⟩
  rw [hlen] at hp
  rw [hf.fileByte_of_owned h hp]
  exact hh.byte p hp

/-- The file gets long enough for `n` more bytes, and these are written. -/
theorem Holds.step (hh : Holds disk₀ hs₀ c src k disk hs)
    (hlen : fileLength disk₁ hs₁ = max (fileLength disk hs) (c + k + n))
    (hkept : ∀ p, p < fileLength disk hs → fileByte disk₁ hs₁ p = fileByte disk hs p)
    (hlen' : fileLength disk₂ hs₁ = fileLength disk₁ hs₁)
    (hbyte : ∀ p, p < fileLength disk₁ hs₁ → fileByte disk₂ hs₁ p =
      if c + k ≤ p ∧ p < c + k + n then src (k + (p - (c + k))) else fileByte disk₁ hs₁ p) :
    Holds disk₀ hs₀ c src (k + n) disk₂ hs₁ := by
  have h0 := hh.length
  refine ⟨by omega, fun p hp => ?_⟩
  rw [hlen'] at hp
  rw [hbyte p hp]
  by_cases hin : c + k ≤ p ∧ p < c + k + n
  · rw [if_pos hin, if_pos (by omega)]
    congr 1
    omega
  · have hlt : p < fileLength disk hs := by omega
    rw [if_neg hin, hkept p hlt, hh.byte p hlt]
    by_cases hold : c ≤ p ∧ p < c + k
    · rw [if_pos hold, if_pos (by omega)]
    · rw [if_neg hold, if_neg (by omega)]

end Holds

/-- The local variables of a `Write` of `n` bytes of which `k` are written. -/
def Pending.after (src : ℕ → UInt8) (n k : ℕ) (freeMap : Bitmap) : Pending :=
  ⟨freeMap, fun i => src (k + i), n - k, k, true⟩

@[simp] theorem Pending.after_freeMap (src : ℕ → UInt8) (n k : ℕ) (freeMap : Bitmap) :
    (Pending.after src n k freeMap).freeMap = freeMap := rfl
@[simp] theorem Pending.after_numBytes (src : ℕ → UInt8) (n k : ℕ) (freeMap : Bitmap) :
    (Pending.after src n k freeMap).numBytes = n - k := rfl
@[simp] theorem Pending.after_success (src : ℕ → UInt8) (n k : ℕ) (freeMap : Bitmap) :
    (Pending.after src n k freeMap).success = true := rfl
@[simp] theorem Pending.after_result (src : ℕ → UInt8) (n k : ℕ) (freeMap : Bitmap) :
    (Pending.after src n k freeMap).result = k := rfl

theorem Pending.after_advance (src : ℕ → UInt8) (n k b : ℕ) (freeMap : Bitmap) :
    (Pending.after src n k freeMap).advance b = Pending.after src n (k + b) freeMap := by
  unfold Pending.after Pending.advance
  simp only [Nat.add_assoc, Nat.sub_sub]

/-! ## The parts of `Write` -/

section Parts
variable {s : System} {f m : ℕ} {disk₀ disk : ℕ → Sector} {hs₀ hs : List ℕ}
  {map₀ freeMap : Bitmap} {reserved : List ℕ} {o : OpenFile} {i : ℕ}

/-- The header in memory gets space for `target` bytes, or there is too little. -/
theorem growTo_ends (hm : FreeMapOk s m) (hfm : f ≠ s.freeMapFile)
    (hst : Stored m disk₀ hs₀ map₀) (hp : Progress m disk₀ hs₀ map₀ disk hs freeMap reserved)
    (hi : i < hs.length) (ho : o.hdr = headerOf disk hs i) {target : ℕ}
    (htarget : target ≤ headerBytes) {src : ℕ → UInt8} {n k : ℕ} :
    (s.writing f disk o).Ends
        (OpenFile.growTo f (hs.getD i 0) target (Pending.after src n k freeMap)) (fun w s' =>
      (w = { Pending.after src n k freeMap with success := false } ∧
        (∃ hdr, s' = s.writing f disk { o with hdr := hdr } ∧ hdr.nextFileHeader = 0 ∧
          hdr.numBytes = target ∧ fileLength disk hs < headerBytes * i + target) ∧
        i + 1 = hs.length ∧
        freeMap.countClear + sectorCount disk hs <
          divRoundUp (headerBytes * i + target) sectorSize) ∨
      ∃ disk' freeMap', w = Pending.after src n k freeMap' ∧
        s' = s.writing f disk' { o with hdr := headerOf disk' hs i } ∧
        Progress m disk₀ hs₀ map₀ disk' hs freeMap' reserved ∧
        target ≤ (headerOf disk' hs i).numBytes ∧
        fileLength disk' hs = max (fileLength disk hs) (headerBytes * i + target) ∧
        ∀ p, p < fileLength disk hs → fileByte disk' hs p = fileByte disk hs p) := by
  have hbytes : headerBytes = 3712 := rfl
  unfold OpenFile.growTo
  simp only [Prog.ends_bind, ends_getOpenFile, System.writing_self]
  by_cases hlt : o.hdr.numBytes < target
  · -- only the last header can have too little space
    obtain rfl : i = hs.length - 1 := by
      by_contra hne
      have := hp.ok.full i (by omega)
      rw [ho] at hlt
      omega
    have hok := hp.ok.headers _ hi
    rw [← ho] at hok
    have hle := hok.numBytes_le
    have hsize : o.hdr.numBytes + (target - o.hdr.numBytes) ≤ headerBytes := by omega
    rw [if_pos hlt]
    unfold OpenFile.growHeader
    simp only [Prog.ends_bind, ends_getOpenFile, System.writing_self, Pending.after_freeMap]
    by_cases hfree : o.hdr.needed (target - o.hdr.numBytes) ≤ freeMap.countClear
    · obtain ⟨h', freeMap', hal, hg⟩ := RawFileHeader.allocate_grows hok hsize hfree
      rw [hal]
      simp only [Prog.ends_bind, ends_setOpenFile, System.writing_putOpenFile]
      refine (writeBackFreeMap_ends (hm.writing hfm _ _) freeMap').mono ?_
      rintro _ _ ⟨data, rfl, hdata⟩
      simp only [OpenFile.writeBackHeader, Prog.ends_bind, ends_getOpenFile, ends_writeSector,
        System.writing_putSector, System.writing_self, Prog.ends_pure]
      refine ⟨hp.ok.heads_lt _ hi, Or.inr ?_⟩
      rw [ho] at hg hsize
      obtain ⟨hp', hh', hlen, hkept⟩ := hp.grow hst hg hsize hdata rfl
      have hnum := hg.numBytes_eq
      rw [ho] at hlt
      refine ⟨_, freeMap', rfl, by rw [hh'], hp', by rw [hh']; omega, ?_, hkept⟩
      have hmax : fileLength disk hs = headerBytes * (hs.length - 1) +
          (headerOf disk hs (hs.length - 1)).numBytes := rfl
      rw [hlen]
      omega
    · obtain ⟨h', hal, hnum, hnext⟩ :=
        RawFileHeader.allocate_refused hok hsize (Nat.not_le.mp hfree)
      rw [hal]
      simp only [Prog.ends_bind, ends_setOpenFile, System.writing_putOpenFile, Prog.ends_pure]
      have hlen : fileLength disk hs = headerBytes * (hs.length - 1) + o.hdr.numBytes := by
        rw [fileLength, ho]
      refine Or.inl ⟨trivial, ⟨h', rfl, ?_, by omega, by omega⟩, by omega, ?_⟩
      · rw [hnext, ho]
        exact hp.ok.last
      have hcount : sectorCount disk hs = numDirect * (hs.length - 1) + o.hdr.numSectors := by
        rw [sectorCount, ho]
      have hneed := Nat.not_le.mp hfree
      rw [RawFileHeader.needed, Nat.add_sub_cancel' hlt.le, Nat.lt_sub_iff_add_lt,
        lt_divRoundUp_iff (by decide)] at hneed
      rw [lt_divRoundUp_iff (by decide), hcount]
      have hss : sectorSize = 128 := rfl
      have hnd : numDirect = 29 := rfl
      rw [hss] at hneed ⊢
      rw [hnd, hbytes]
      omega
  · rw [if_neg hlt]
    simp only [Prog.ends_pure]
    refine Or.inr ⟨disk, freeMap, rfl, by rw [← ho], hp, by rw [← ho]; omega, ?_,
      fun _ _ => rfl⟩
    have hmax : headerBytes * i + target ≤ fileLength disk hs := by
      unfold fileLength
      by_cases hi' : i = hs.length - 1
      · rw [← hi', ← ho]
        omega
      · rw [hbytes] at htarget ⊢
        omega
    omega

/-- Bytes are written at the seek position. -/
theorem transfer_ends (hst : Stored m disk₀ hs₀ map₀) {w : Pending}
    (hp : Progress m disk₀ hs₀ map₀ disk hs freeMap reserved) (hi : i < hs.length)
    (ho : o.hdr = headerOf disk hs i) {n : ℕ} (hn : 0 < n)
    (hfit : o.seekPosition + n ≤ (headerOf disk hs i).numBytes) :
    (s.writing f disk o).Ends (OpenFile.transfer f n w) (fun w' s' => w' = w.advance n ∧
      ∃ disk', s' = s.writing f disk' { o with seekPosition := o.seekPosition + n } ∧
        Progress m disk₀ hs₀ map₀ disk' hs freeMap reserved ∧
        (∀ l, l < hs.length → headerOf disk' hs l = headerOf disk hs l) ∧
        ∀ p, p < fileLength disk hs → fileByte disk' hs p =
          if headerBytes * i + o.seekPosition ≤ p ∧ p < headerBytes * i + o.seekPosition + n then
            w.fromBuffer (p - (headerBytes * i + o.seekPosition))
          else fileByte disk hs p) := by
  unfold OpenFile.transfer
  simp only [Prog.ends_bind, ends_getOpenFile, System.writing_self]
  have hhdr : ((s.writing f disk o).openFile f).hdr = headerOf disk hs i := by
    rw [System.writing_self, ho]
  have hok := hp.ok.headers i hi
  have hd := hp.ok.header_distinct hi
  have hfit' := hfit
  rw [← hhdr] at hok hd hfit'
  refine (writeAt_ends hok hd hn hfit').mono ?_
  rintro _ _ ⟨rfl, disk', rfl, hbyte, hout⟩
  simp only [ends_setOpenFile, System.writing_withDisk, System.writing_self,
    System.writing_putOpenFile, Prog.ends_pure, true_and]
  rw [hhdr] at hbyte hout
  simp only [System.writing_disk] at hbyte hout
  obtain ⟨hheaders, hbytes⟩ := hp.ok.overwrite hi hbyte hfit hout
  refine ⟨disk', rfl, hp.overwrite hst hheaders fun x hx => hout x fun j hj heq => hx ?_, hheaders,
    hbytes⟩
  have hle := (hp.ok.headers i hi).numSectors_le
  rw [← dataSector_index (i := i) (show j < numDirect by omega)] at heq
  exact Or.inr ⟨_, hp.ok.index_lt hi hj, heq⟩

end Parts

/-! ## Before the new headers -/

/-- The next byte that `o` writes is byte `p` of the file. -/
def CursorAt (disk : ℕ → Sector) (hs : List ℕ) (o : OpenFile) (p : ℕ) : Prop :=
  ∃ i, i < hs.length ∧ o.currentSector = hs.getD i 0 ∧ p = headerBytes * i + o.seekPosition ∧
    o.seekPosition ≤ (headerOf disk hs i).numBytes

/-- **The outcome of a `Write`** of `n` bytes of `src` at byte `c`, of which `k` are
written.  A `Write` that is cut short ends with a sector; new headers have bytes. -/
structure Outcome (m : ℕ) (disk₀ : ℕ → Sector) (hs₀ : List ℕ) (map₀ : Bitmap) (c : ℕ)
    (src : ℕ → UInt8) (n k : ℕ) (disk : ℕ → Sector) (hs : List ℕ) (freeMap : Bitmap)
    (reserved : List ℕ) (o : OpenFile) : Prop where
  progress : Progress m disk₀ hs₀ map₀ disk hs freeMap reserved
  holds : Holds disk₀ hs₀ c src k disk hs
  cursor : CursorAt disk hs o (c + k)
  le : k ≤ n
  aligned : k = n ∨ k = 0 ∨ (c + k) % sectorSize = 0
  filled : hs = hs₀ ∨ headerBytes * (hs.length - 1) < c + k

/-- The file is at header `i`, and the `Write` goes on: the header is full, or all is
written. -/
structure Going (m : ℕ) (disk₀ : ℕ → Sector) (hs₀ : List ℕ) (map₀ : Bitmap) (c : ℕ)
    (src : ℕ → UInt8) (n k : ℕ) (disk : ℕ → Sector) (hs : List ℕ) (freeMap : Bitmap)
    (o : OpenFile) (i : ℕ) : Prop where
  progress : Progress m disk₀ hs₀ map₀ disk hs freeMap []
  holds : Holds disk₀ hs₀ c src k disk hs
  lt : i < hs.length
  current : o.currentSector = hs.getD i 0
  hdr : o.hdr = headerOf disk hs i
  position : c + k = headerBytes * i + o.seekPosition
  seek_le : o.seekPosition ≤ (headerOf disk hs i).numBytes
  le : k ≤ n
  full : k = n ∨ o.seekPosition = headerBytes

/-- The header in memory is the last one, but has more bytes than that. -/
structure Overstated (disk : ℕ → Sector) (hs : List ℕ) (o : OpenFile) : Prop where
  last : o.hdr.nextFileHeader = 0
  longer : fileLength disk hs < headerBytes * (hs.length - 1) + o.hdr.numBytes
  le : o.hdr.numBytes ≤ headerBytes

/-- A `Write` that stopped before the new headers, for lack of space. -/
def Stopped (s : System) (f m : ℕ) (disk₀ : ℕ → Sector) (hs₀ : List ℕ) (map₀ : Bitmap) (c : ℕ)
    (src : ℕ → UInt8) (n : ℕ) (sector : ℕ) (w : Pending) (s' : System) : Prop :=
  w.success = false ∧ ∃ disk freeMap o, s' = s.writing f disk o ∧ o.sector = sector ∧
    Outcome m disk₀ hs₀ map₀ c src n w.result disk hs₀ freeMap [] o ∧ Overstated disk₀ hs₀ o

/-- There is too little space for the bytes that go to the headers there are.  All but those of
the last header can be written all the same. -/
def Short (disk : ℕ → Sector) (hs : List ℕ) (freeMap : Bitmap) (c n : ℕ) : Prop :=
  freeMap.countClear + sectorCount disk hs <
    divRoundUp (min (c + n) (headerBytes * hs.length)) sectorSize

/-- How many sectors the bytes of a file take. -/
theorem FileOk.sectorCount_eq {disk : ℕ → Sector} {hs : List ℕ} (hf : FileOk disk hs) :
    sectorCount disk hs = divRoundUp (fileLength disk hs) sectorSize := by
  have hpos := hf.pos
  have hlast := (hf.headers (hs.length - 1) (by omega)).numSectors_eq
  have hss : sectorSize = 128 := rfl
  have hnd : numDirect = 29 := rfl
  have hhb : headerBytes = 3712 := rfl
  rw [sectorCount, hlast, fileLength, hnd, hhb, hss, divRoundUp, divRoundUp]
  split <;> split <;> omega

/-- The bytes of a file are in its sectors. -/
theorem FileOk.fileLength_le {disk : ℕ → Sector} {hs : List ℕ} (hf : FileOk disk hs) :
    fileLength disk hs ≤ sectorCount disk hs * sectorSize :=
  (divRoundUp_le_iff (by decide)).mp hf.sectorCount_eq.ge

/-- The bytes of a file are in its headers, and all but the last are full. -/
theorem FileOk.length_bounds {disk : ℕ → Sector} {hs : List ℕ} (hf : FileOk disk hs) :
    headerBytes * (hs.length - 1) ≤ fileLength disk hs ∧
      fileLength disk hs ≤ headerBytes * hs.length := by
  have hpos := hf.pos
  have hlast := (hf.headers (hs.length - 1) (by omega)).numBytes_le
  have hhb : headerBytes = 3712 := rfl
  rw [fileLength]
  rw [hhb] at hlast ⊢
  omega

section Existing
variable {s : System} {f m : ℕ} {disk₀ : ℕ → Sector} {hs₀ : List ℕ} {map₀ : Bitmap} {c n : ℕ}
  {src : ℕ → UInt8}

/-- A header cannot get the space it needs. -/
theorem Progress.short {disk : ℕ → Sector} {freeMap : Bitmap} {i target : ℕ}
    (hp : Progress m disk₀ hs₀ map₀ disk hs₀ freeMap []) (hi : i < hs₀.length)
    (htarget : target ≤ headerBytes) (hle : headerBytes * i + target ≤ c + n)
    (hfew : freeMap.countClear + sectorCount disk hs₀ <
      divRoundUp (headerBytes * i + target) sectorSize) : Short disk₀ hs₀ map₀ c n := by
  have hfree := hp.free
  have hbytes : headerBytes = 3712 := rfl
  have hss : sectorSize = 128 := rfl
  rw [List.length_nil] at hfree
  rw [lt_divRoundUp_iff (by decide)] at hfew
  rw [Short, lt_divRoundUp_iff (by decide)]
  rw [hss] at hfew ⊢
  rw [hbytes] at htarget hle hfew ⊢
  omega

theorem Going.outcome {k i : ℕ} {disk : ℕ → Sector} {freeMap : Bitmap}
    {o o' : OpenFile} (hg : Going m disk₀ hs₀ map₀ c src n k disk hs₀ freeMap o i)
    (hcurrent : o'.currentSector = o.currentSector) (hseek : o'.seekPosition = o.seekPosition) :
    Outcome m disk₀ hs₀ map₀ c src n k disk hs₀ freeMap [] o' := by
  have hss : sectorSize = 128 := rfl
  have hbytes : headerBytes = 3712 := rfl
  have hpos := hg.position
  refine ⟨hg.progress, hg.holds, ⟨i, hg.lt, by rw [hcurrent, hg.current], by rw [hseek]; exact hpos,
    by rw [hseek]; exact hg.seek_le⟩, hg.le, ?_, Or.inl rfl⟩
  rcases hg.full with hk | hfull
  · exact Or.inl hk
  · right
    right
    rw [hpos, hfull, hss, hbytes]
    omega

/-- The next `b` bytes go to header `i`, for which the file has got long enough. -/
theorem transfer_holds (hst : Stored m disk₀ hs₀ map₀) {k i b : ℕ} {disk disk₁ : ℕ → Sector}
    {hs hs₁ reserved : List ℕ} {freeMap : Bitmap} {o : OpenFile}
    (hh : Holds disk₀ hs₀ c src k disk hs)
    (hp : Progress m disk₀ hs₀ map₀ disk₁ hs₁ freeMap reserved)
    (hlen : fileLength disk₁ hs₁ = max (fileLength disk hs) (c + k + b))
    (hkept : ∀ p, p < fileLength disk hs → fileByte disk₁ hs₁ p = fileByte disk hs p)
    (hi : i < hs₁.length) (ho : o.hdr = headerOf disk₁ hs₁ i)
    (hpos : c + k = headerBytes * i + o.seekPosition) (hb : 0 < b)
    (hfit : o.seekPosition + b ≤ (headerOf disk₁ hs₁ i).numBytes) :
    (s.writing f disk₁ o).Ends (OpenFile.transfer f b (Pending.after src n k freeMap))
      (fun w s' => w = Pending.after src n (k + b) freeMap ∧
        ∃ disk', s' = s.writing f disk' { o with seekPosition := o.seekPosition + b } ∧
          Progress m disk₀ hs₀ map₀ disk' hs₁ freeMap reserved ∧
          Holds disk₀ hs₀ c src (k + b) disk' hs₁ ∧
          ∀ l, l < hs₁.length → headerOf disk' hs₁ l = headerOf disk₁ hs₁ l) := by
  refine (transfer_ends hst hp hi ho hb hfit).mono ?_
  rintro _ _ ⟨rfl, disk', rfl, hp', hheaders, hbyte⟩
  refine ⟨Pending.after_advance .., disk', rfl, hp', ?_, hheaders⟩
  rw [← hpos] at hbyte
  exact hh.step hlen hkept (fileLength_congr hp.ok.pos hheaders) hbyte

/-- **The first part of `Write`.** -/
theorem writeCurrent_ends (hm : FreeMapOk s m) (hfm : f ≠ s.freeMapFile)
    (hst : Stored m disk₀ hs₀ map₀) {i : ℕ} {o : OpenFile} (hi : i < hs₀.length)
    (hcurrent : o.currentSector = hs₀.getD i 0) (ho : o.hdr = headerOf disk₀ hs₀ i)
    (hpos : c = headerBytes * i + o.seekPosition)
    (hseek : o.seekPosition ≤ (headerOf disk₀ hs₀ i).numBytes) :
    (s.writing f disk₀ o).Ends (OpenFile.writeCurrent f (Pending.after src n 0 map₀))
      (fun w s' =>
        Stopped s f m disk₀ hs₀ map₀ c src n o.sector w s' ∧ Short disk₀ hs₀ map₀ c n ∧
          headerBytes * (hs₀.length - 1) ≤ c + w.result ∧
          (w.result = 0 ∨ c + w.result = headerBytes * (hs₀.length - 1)) ∨
        ∃ k disk freeMap o', w = Pending.after src n k freeMap ∧ s' = s.writing f disk o' ∧
          o'.sector = o.sector ∧ Going m disk₀ hs₀ map₀ c src n k disk hs₀ freeMap o' i) := by
  have hbytes : headerBytes = 3712 := rfl
  have hle := (hst.ok.headers i hi).numBytes_le
  have hlen : c ≤ fileLength disk₀ hs₀ := by
    unfold fileLength
    by_cases hi' : i = hs₀.length - 1
    · rw [← hi']
      omega
    · rw [hbytes] at hpos hle ⊢
      omega
  have hh : Holds disk₀ hs₀ c src 0 disk₀ hs₀ := Holds.start hlen
  unfold OpenFile.writeCurrent
  simp only [Prog.ends_bind, ends_getOpenFile, System.writing_self]
  have hmax : (headerBytes + 2 ^ 32 - o.seekPosition) % 2 ^ 32 = headerBytes - o.seekPosition := by
    omega
  rw [hmax, Pending.after_numBytes, Nat.sub_zero]
  generalize hb : min n (headerBytes - o.seekPosition) = b
  by_cases hb0 : 0 < b
  · have htarget : (o.seekPosition + b) % 2 ^ 32 = o.seekPosition + b := by omega
    rw [if_pos hb0, htarget, hcurrent]
    simp only [Prog.ends_bind]
    refine (growTo_ends hm hfm hst hst.progress hi ho (by omega)).mono ?_
    rintro w s' (⟨rfl, ⟨hdr, rfl, hnext, hnum, hover⟩, hlast, hfew⟩ |
      ⟨disk, freeMap, rfl, rfl, hp, hbig, hlen', hkept⟩)
    · simp only [Bool.false_eq_true, if_false, Prog.ends_pure]
      refine Or.inl ⟨⟨rfl, disk₀, map₀, _, rfl, rfl, ⟨hst.progress, hh,
        ⟨i, hi, hcurrent, hpos, hseek⟩, Nat.zero_le _, Or.inr (Or.inl rfl), Or.inl rfl⟩,
        hnext, ?_, ?_⟩, ?_, ?_, Or.inl rfl⟩
      · rw [← hlast, Nat.add_sub_cancel]
        exact hover.trans_eq (by rw [hnum])
      · show hdr.numBytes ≤ headerBytes
        omega
      · exact hst.progress.short hi (by omega) (by omega) hfew
      · rw [← hlast, Nat.add_sub_cancel]
        omega
    · rw [if_pos (Pending.after_success ..)]
      have hlen₁ : fileLength disk hs₀ = max (fileLength disk₀ hs₀) (c + 0 + b) := by
        rw [hlen', hpos]
        congr 1
        omega
      refine (transfer_holds (o := { o with hdr := headerOf disk hs₀ i }) hst hh hp hlen₁ hkept hi
        rfl hpos hb0 hbig).mono ?_
      rintro _ _ ⟨rfl, disk', rfl, hp', hh', hheaders⟩
      refine Or.inr ⟨0 + b, disk', freeMap, _, rfl, rfl, rfl, hp', hh', hi, hcurrent,
        (hheaders i hi).symm, ?_, ?_, by omega, ?_⟩
      · simp only
        omega
      · simp only [hheaders i hi]
        exact hbig
      · simp only
        omega
  · rw [if_neg hb0]
    simp only [Prog.ends_pure]
    refine Or.inr ⟨0, disk₀, map₀, o, rfl, rfl, rfl, hst.progress, hh, hi, hcurrent, ho, hpos,
      hseek,
      Nat.zero_le _, ?_⟩
    omega

/-- **The second part of `Write`.** -/
theorem writeNext_ends (hm : FreeMapOk s m) (hfm : f ≠ s.freeMapFile)
    (hst : Stored m disk₀ hs₀ map₀) {fuel k i : ℕ} {disk : ℕ → Sector} {freeMap : Bitmap}
    {o : OpenFile} (hg : Going m disk₀ hs₀ map₀ c src n k disk hs₀ freeMap o i)
    (hfuel : n - k < fuel) :
    (s.writing f disk o).Ends
      (OpenFile.writeNext f fuel o.hdr.nextFileHeader (Pending.after src n k freeMap))
      (fun w s' =>
        Stopped s f m disk₀ hs₀ map₀ c src n o.sector w s' ∧ Short disk₀ hs₀ map₀ c n ∧
          headerBytes * (hs₀.length - 1) ≤ c + w.result ∧
          (w.result = 0 ∨ c + w.result = headerBytes * (hs₀.length - 1)) ∨
        ∃ k disk freeMap o' i, w = Pending.after src n k freeMap ∧ s' = s.writing f disk o' ∧
          o'.sector = o.sector ∧ Going m disk₀ hs₀ map₀ c src n k disk hs₀ freeMap o' i ∧
          (k = n ∨ i + 1 = hs₀.length)) := by
  induction fuel generalizing k i disk freeMap o with
  | zero => omega
  | succ fuel ih =>
    have hbytes : headerBytes = 3712 := rfl
    have hi := hg.lt
    rw [hg.hdr]
    simp only [OpenFile.writeNext]
    by_cases hgo : 0 < (Pending.after src n k freeMap).numBytes ∧
        (headerOf disk hs₀ i).nextFileHeader ≠ 0
    · rw [if_pos hgo]
      have hk : 0 < n - k := hgo.1
      have hseek : o.seekPosition = headerBytes := by
        rcases hg.full with h | h
        · omega
        · exact h
      -- there is a next header, or the link would be 0
      have hi' : i + 1 < hs₀.length := by
        by_contra hge
        obtain rfl : i = hs₀.length - 1 := by omega
        exact hgo.2 hg.progress.ok.last
      have hnext := hg.progress.ok.next i hi'
      rw [hnext]
      rw [Pending.after_numBytes]
      simp only [OpenFile.fetchHeader, Prog.ends_bind, ends_readSector, ends_getOpenFile,
        ends_setOpenFile, System.writing_self, System.writing_putOpenFile, System.writing_disk]
      refine ⟨hg.progress.ok.heads_lt _ hi', ?_⟩
      generalize hb : min (n - k) headerBytes = b
      have ho' : RawFileHeader.ofSector (disk (hs₀.getD (i + 1) 0)) = headerOf disk hs₀ (i + 1) :=
        rfl
      refine (growTo_ends hm hfm hst hg.progress hi' ho' (by omega)).mono ?_
      rintro w s' (⟨rfl, ⟨hdr, rfl, hzero, hnum, hover⟩, hlast, hfew⟩ |
        ⟨disk', freeMap', rfl, rfl, hp, hbig, hlen, hkept⟩)
      · simp only [Bool.false_eq_true, if_false, Prog.ends_pure]
        have hpos := hg.position
        have hle := hg.le
        rw [hseek] at hpos
        have hend : c + k = headerBytes * (hs₀.length - 1) := by
          rw [← hlast, Nat.add_sub_cancel, Nat.mul_succ]
          exact hpos
        have hmore : fileLength disk₀ hs₀ < headerBytes * (hs₀.length - 1) + hdr.numBytes := by
          have := hg.holds.length
          rw [← hlast, Nat.add_sub_cancel, hnum]
          omega
        refine Or.inl ⟨⟨rfl, disk, freeMap, _, rfl, rfl, hg.outcome rfl rfl, hzero, hmore, ?_⟩, ?_,
          hend.ge, Or.inr hend⟩
        · show hdr.numBytes ≤ headerBytes
          omega
        refine hg.progress.short hi' (by omega) ?_ hfew
        rw [Nat.mul_succ]
        omega
      · rw [if_pos (Pending.after_success ..)]
        simp only [Prog.ends_bind, ends_getOpenFile, ends_setOpenFile, System.writing_self,
          System.writing_putOpenFile]
        have hpos : c + k = headerBytes * (i + 1) + 0 := by
          have := hg.position
          rw [hseek] at this
          rw [this, Nat.mul_succ, Nat.add_zero]
        have hlen₁ : fileLength disk' hs₀ = max (fileLength disk hs₀) (c + k + b) := by
          rw [hlen, hpos]
          rfl
        refine (transfer_holds (o := ⟨o.sector, hs₀.getD (i + 1) 0, 0, headerOf disk' hs₀ (i + 1)⟩)
          hst hg.holds hp hlen₁ hkept hi' rfl hpos (by omega)
          ((Nat.zero_add _).trans_le hbig)).mono ?_
        rintro _ _ ⟨rfl, disk'', rfl, hp', hh', hheaders⟩
        simp only [System.writing_self]
        refine ih (o := ⟨o.sector, hs₀.getD (i + 1) 0, 0 + b, headerOf disk' hs₀ (i + 1)⟩)
          ⟨hp', hh', hi', rfl, (hheaders _ hi').symm, ?_, ?_, by omega, ?_⟩ (by omega)
        · simp only
          omega
        · rw [hheaders _ hi']
          simp only
          omega
        · simp only
          omega
    · rw [if_neg hgo]
      simp only [Prog.ends_pure]
      refine Or.inr ⟨k, disk, freeMap, o, i, rfl, rfl, rfl, hg, ?_⟩
      by_contra hnot
      refine hgo ⟨?_, ?_⟩
      · have := hg.le
        show 0 < n - k
        omega
      · rw [hg.progress.ok.next i (by omega)]
        exact hg.progress.ok.nonzero _ (by omega) (by omega)

end Existing
end PaldOs
