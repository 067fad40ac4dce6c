import PaldOs.Allocation

/-! # Files as chains of headers

A file is a list of header sectors, each header linked to the next one.  All headers
but the last are full, so a byte of the file is found by division: byte `p` is in data
sector `p / 128`, which is data sector `p / 128 % 29` of header `p / 3712`.  `FileOk`
says that the chain is in good order and that its sectors are different ones.

There are three ways to change a file: bytes of one header are replaced, the last
header gets more space, or a new header is linked to it.  Each is a lemma about the
disk alone.
-/
namespace PaldOs

/-- The header stored in a sector. -/
def headerOn (disk : ℕ → Sector) (n : ℕ) : RawFileHeader := .ofSector (disk n)

/-- Header `i` of a file. -/
def headerOf (disk : ℕ → Sector) (hs : List ℕ) (i : ℕ) : RawFileHeader :=
  headerOn disk (hs.getD i 0)

/-- Data sector `q` of a file. -/
def dataSector (disk : ℕ → Sector) (hs : List ℕ) (q : ℕ) : ℕ :=
  (headerOf disk hs (q / numDirect)).dataSectors (q % numDirect)

/-- How many data sectors a file has. -/
def sectorCount (disk : ℕ → Sector) (hs : List ℕ) : ℕ :=
  numDirect * (hs.length - 1) + (headerOf disk hs (hs.length - 1)).numSectors

/-- How many bytes a file has. -/
def fileLength (disk : ℕ → Sector) (hs : List ℕ) : ℕ :=
  headerBytes * (hs.length - 1) + (headerOf disk hs (hs.length - 1)).numBytes

/-- Byte `p` of a file. -/
def fileByte (disk : ℕ → Sector) (hs : List ℕ) (p : ℕ) : UInt8 :=
  disk (dataSector disk hs (p / sectorSize)) (p % sectorSize)

/-- A sector of a file: one of its headers or of its data sectors. -/
def Owned (disk : ℕ → Sector) (hs : List ℕ) (x : ℕ) : Prop :=
  (∃ i, i < hs.length ∧ x = hs.getD i 0) ∨ ∃ q, q < sectorCount disk hs ∧ x = dataSector disk hs q

/-- The headers of a file are in good order and linked to each other. -/
structure ChainOk (disk : ℕ → Sector) (hs : List ℕ) : Prop where
  pos : 0 < hs.length
  headers : ∀ i, i < hs.length → HeaderOk (headerOf disk hs i)
  next : ∀ i, i + 1 < hs.length → (headerOf disk hs i).nextFileHeader = hs.getD (i + 1) 0
  full : ∀ i, i + 1 < hs.length → (headerOf disk hs i).numBytes = headerBytes
  last : (headerOf disk hs (hs.length - 1)).nextFileHeader = 0
  nonzero : ∀ i, 0 < i → i < hs.length → hs.getD i 0 ≠ 0
  heads_lt : ∀ i, i < hs.length → hs.getD i 0 < numSectors

/-- **A file in good order.** -/
structure FileOk (disk : ℕ → Sector) (hs : List ℕ) : Prop extends ChainOk disk hs where
  heads_distinct : ∀ i j, i < hs.length → j < hs.length → hs.getD i 0 = hs.getD j 0 → i = j
  data_distinct : ∀ q q', q < sectorCount disk hs → q' < sectorCount disk hs →
    dataSector disk hs q = dataSector disk hs q' → q = q'
  apart : ∀ i q, i < hs.length → q < sectorCount disk hs → hs.getD i 0 ≠ dataSector disk hs q

section Index
variable {disk disk' : ℕ → Sector} {hs : List ℕ} {i j q p : ℕ}

theorem ChainOk.numSectors_full (hf : ChainOk disk hs) (hi : i + 1 < hs.length) :
    (headerOf disk hs i).numSectors = numDirect := by
  rw [(hf.headers i (by omega)).numSectors_eq, hf.full i hi]
  decide

/-- Where a data sector is listed. -/
theorem ChainOk.sector_index (hf : ChainOk disk hs) (hq : q < sectorCount disk hs) :
    q / numDirect < hs.length ∧
      q % numDirect < (headerOf disk hs (q / numDirect)).numSectors := by
  have hnd : numDirect = 29 := rfl
  have hpos := hf.pos
  have hle := (hf.headers (hs.length - 1) (by omega)).numSectors_le
  have hlt : q / numDirect < hs.length := by
    unfold sectorCount at hq
    rw [hnd] at hq hle ⊢
    omega
  refine ⟨hlt, ?_⟩
  by_cases hlast : q / numDirect + 1 < hs.length
  · rw [hf.numSectors_full hlast]
    exact Nat.mod_lt _ (by decide)
  · have hi : q / numDirect = hs.length - 1 := by omega
    rw [hi]
    unfold sectorCount at hq
    rw [hnd] at hq hi ⊢
    omega

/-- The data sectors of header `i`. -/
theorem ChainOk.index_lt (hf : ChainOk disk hs) (hi : i < hs.length)
    (hj : j < (headerOf disk hs i).numSectors) : numDirect * i + j < sectorCount disk hs := by
  have hnd : numDirect = 29 := rfl
  have hle := (hf.headers i hi).numSectors_le
  unfold sectorCount
  by_cases hlast : i + 1 < hs.length
  · rw [hnd] at hle ⊢
    omega
  · obtain rfl : i = hs.length - 1 := by omega
    omega

theorem dataSector_index (hj : j < numDirect) :
    dataSector disk hs (numDirect * i + j) = (headerOf disk hs i).dataSectors j := by
  have hd : (numDirect * i + j) / numDirect = i := by
    rw [Nat.mul_add_div (by decide), Nat.div_eq_of_lt hj, Nat.add_zero]
  have hm : (numDirect * i + j) % numDirect = j := by
    rw [Nat.mul_add_mod, Nat.mod_eq_of_lt hj]
  rw [dataSector, hd, hm]

theorem ChainOk.data_lt (hf : ChainOk disk hs) (hq : q < sectorCount disk hs) :
    dataSector disk hs q < numSectors := by
  obtain ⟨h1, h2⟩ := hf.sector_index hq
  exact (hf.headers _ h1).lt _ h2

theorem ChainOk.owned_lt (hf : ChainOk disk hs) {x : ℕ} (hx : Owned disk hs x) :
    x < numSectors := by
  rcases hx with ⟨i, hi, rfl⟩ | ⟨q, hq, rfl⟩
  · exact hf.heads_lt i hi
  · exact hf.data_lt hq

/-- The data sectors of one header are different. -/
theorem FileOk.header_distinct (hf : FileOk disk hs) (hi : i < hs.length) :
    (headerOf disk hs i).Distinct := by
  intro j l hj hl heq
  have hle := (hf.headers i hi).numSectors_le
  rw [← dataSector_index (i := i) (show j < numDirect by omega),
    ← dataSector_index (i := i) (show l < numDirect by omega)] at heq
  have := hf.data_distinct _ _ (hf.index_lt hi hj) (hf.index_lt hi hl) heq
  omega

/-- Byte `p` of header `i`. -/
theorem fileByte_header (hp : p < headerBytes) :
    fileByte disk hs (headerBytes * i + p) = (headerOf disk hs i).byte disk p := by
  have hss : sectorSize = 128 := rfl
  have hnd : numDirect = 29 := rfl
  have hbytes : headerBytes = 3712 := rfl
  have hd : (headerBytes * i + p) / sectorSize = numDirect * i + p / sectorSize := by
    rw [hss, hnd, hbytes]
    omega
  have hm : (headerBytes * i + p) % sectorSize = p % sectorSize := by
    rw [hss, hbytes]
    omega
  have hj : p / sectorSize < numDirect := by
    rw [hss, hnd]
    omega
  rw [fileByte, hd, hm, dataSector_index hj, RawFileHeader.byte]

theorem ChainOk.sector_of_byte (hf : ChainOk disk hs) (hp : p < fileLength disk hs) :
    p / sectorSize < sectorCount disk hs := by
  have hss : sectorSize = 128 := rfl
  have hnd : numDirect = 29 := rfl
  have hbytes : headerBytes = 3712 := rfl
  have hpos := hf.pos
  have hup := (hf.headers (hs.length - 1) (by omega)).numBytes_le_mul
  unfold fileLength at hp
  unfold sectorCount
  rw [hss] at hup
  rw [hbytes] at hp
  rw [hss, hnd]
  omega

/-- Every header before the last is passed by in full. -/
theorem ChainOk.header_of_byte (hf : ChainOk disk hs) (hp : p < fileLength disk hs) :
    p / headerBytes < hs.length ∧
      p % headerBytes < (headerOf disk hs (p / headerBytes)).numBytes := by
  have hbytes : headerBytes = 3712 := rfl
  have hpos := hf.pos
  have hle := (hf.headers (hs.length - 1) (by omega)).numBytes_le
  unfold fileLength at hp
  by_cases hlast : p / headerBytes + 1 < hs.length
  · rw [hf.full _ hlast]
    exact ⟨by omega, Nat.mod_lt _ (by decide)⟩
  · rw [hbytes] at hp hle hlast ⊢
    have hi : p / 3712 = hs.length - 1 := by omega
    rw [hi]
    exact ⟨by omega, by omega⟩

end Index

/-! ## The same file on another disk -/

section Congr
variable {disk disk' : ℕ → Sector} {hs : List ℕ}

theorem headerOf_congr {i : ℕ} (h : disk' (hs.getD i 0) = disk (hs.getD i 0)) :
    headerOf disk' hs i = headerOf disk hs i := by
  rw [headerOf, headerOf, headerOn, headerOn, h]

/-- What the headers say depends on their sectors only. -/
theorem sectorCount_congr (hpos : 0 < hs.length)
    (h : ∀ i, i < hs.length → headerOf disk' hs i = headerOf disk hs i) :
    sectorCount disk' hs = sectorCount disk hs := by
  rw [sectorCount, sectorCount, h _ (by omega)]

theorem fileLength_congr (hpos : 0 < hs.length)
    (h : ∀ i, i < hs.length → headerOf disk' hs i = headerOf disk hs i) :
    fileLength disk' hs = fileLength disk hs := by
  rw [fileLength, fileLength, h _ (by omega)]

theorem ChainOk.dataSector_congr (hf : ChainOk disk hs)
    (h : ∀ i, i < hs.length → headerOf disk' hs i = headerOf disk hs i) {q : ℕ}
    (hq : q < sectorCount disk hs) : dataSector disk' hs q = dataSector disk hs q := by
  rw [dataSector, dataSector, h _ (hf.sector_index hq).1]

/-- **A file whose headers are left alone is still in good order.** -/
theorem FileOk.of_headers (hf : FileOk disk hs)
    (h : ∀ i, i < hs.length → headerOf disk' hs i = headerOf disk hs i) : FileOk disk' hs := by
  have hcount := sectorCount_congr hf.pos h
  have hdata := fun q (hq : q < sectorCount disk hs) => hf.dataSector_congr h hq
  refine ⟨⟨hf.pos, fun i hi => ?_, fun i hi => ?_, fun i hi => ?_, ?_, hf.nonzero, hf.heads_lt⟩,
    hf.heads_distinct, fun q q' hq hq' heq => ?_, fun i q hi hq => ?_⟩
  · rw [h i hi]
    exact hf.headers i hi
  · rw [h i (by omega)]
    exact hf.next i hi
  · rw [h i (by omega)]
    exact hf.full i hi
  · have hpos := hf.pos
    rw [h _ (by omega)]
    exact hf.last
  · rw [hcount] at hq hq'
    rw [hdata q hq, hdata q' hq'] at heq
    exact hf.data_distinct q q' hq hq' heq
  · rw [hcount] at hq
    rw [hdata q hq]
    exact hf.apart i q hi hq

/-- A file none of whose sectors is touched. -/
theorem headerOf_of_owned (h : ∀ x, Owned disk hs x → disk' x = disk x) {i : ℕ}
    (hi : i < hs.length) :
    headerOf disk' hs i = headerOf disk hs i :=
  headerOf_congr (h _ (Or.inl ⟨i, hi, rfl⟩))

theorem ChainOk.owned_congr (hf : ChainOk disk hs)
    (h : ∀ i, i < hs.length → headerOf disk' hs i = headerOf disk hs i) (x : ℕ) :
    Owned disk' hs x ↔ Owned disk hs x := by
  unfold Owned
  rw [sectorCount_congr hf.pos h]
  refine or_congr_right (exists_congr fun q => and_congr_right fun hq => ?_)
  rw [hf.dataSector_congr h hq]

theorem ChainOk.fileByte_of_owned (hf : ChainOk disk hs)
    (h : ∀ x, Owned disk hs x → disk' x = disk x) {p : ℕ} (hp : p < fileLength disk hs) :
    fileByte disk' hs p = fileByte disk hs p := by
  have hq := hf.sector_of_byte hp
  rw [fileByte, fileByte, hf.dataSector_congr (fun i hi => headerOf_of_owned h hi) hq,
    h _ (Or.inr ⟨_, hq, rfl⟩)]

end Congr

/-! ## Bytes are replaced -/

section Overwrite
variable {disk disk' : ℕ → Sector} {hs : List ℕ} {i position n : ℕ} {src : ℕ → UInt8}

/-- **Bytes of header `i` are replaced.** -/
theorem FileOk.overwrite (hf : FileOk disk hs) (hi : i < hs.length)
    (hbytes : ∀ p, p < (headerOf disk hs i).numBytes → (headerOf disk hs i).byte disk' p =
      if position ≤ p ∧ p < position + n then src (p - position)
      else (headerOf disk hs i).byte disk p)
    (hfit : position + n ≤ (headerOf disk hs i).numBytes)
    (hout : ∀ x, (∀ j, j < (headerOf disk hs i).numSectors →
      x ≠ (headerOf disk hs i).dataSectors j) → disk' x = disk x) :
    (∀ l, l < hs.length → headerOf disk' hs l = headerOf disk hs l) ∧
      ∀ p, p < fileLength disk hs → fileByte disk' hs p =
        if headerBytes * i + position ≤ p ∧ p < headerBytes * i + position + n then
          src (p - (headerBytes * i + position))
        else fileByte disk hs p := by
  have hhb : headerBytes = 3712 := rfl
  have hdirect := (hf.headers i hi).numSectors_le
  have hheaders : ∀ l, l < hs.length → headerOf disk' hs l = headerOf disk hs l := by
    intro l hl
    refine headerOf_congr (hout _ fun j hj heq => ?_)
    rw [← dataSector_index (i := i) (show j < numDirect by omega)] at heq
    exact hf.apart l _ hl (hf.index_lt hi hj) heq
  refine ⟨hheaders, fun p hp => ?_⟩
  obtain ⟨hl, hp'⟩ := hf.header_of_byte hp
  have hp0 : p = headerBytes * (p / headerBytes) + p % headerBytes :=
    (Nat.div_add_mod p headerBytes).symm
  have hmod : p % headerBytes < headerBytes := Nat.mod_lt _ (by decide)
  have hle := (hf.headers i hi).numBytes_le
  by_cases hpi : p / headerBytes = i
  · rw [hpi] at hp0 hp'
    have hb := hbytes _ hp'
    rw [hp0, fileByte_header hmod, fileByte_header hmod, hheaders i hi, hb]
    by_cases hpos : position ≤ p % headerBytes ∧ p % headerBytes < position + n
    · rw [if_pos hpos, if_pos (by omega)]
      congr 1
      omega
    · rw [if_neg hpos, if_neg (by omega)]
  · -- a byte of another header is in another sector
    have hne : ¬ (headerBytes * i + position ≤ p ∧ p < headerBytes * i + position + n) := by
      rw [hhb] at hpi hle ⊢
      omega
    have hq := hf.sector_of_byte hp
    rw [if_neg hne, fileByte, fileByte, hf.dataSector_congr hheaders hq]
    refine congrFun (hout _ fun j hj heq => hpi ?_) _
    rw [← dataSector_index (i := i) (show j < numDirect by omega)] at heq
    have := hf.data_distinct _ _ hq (hf.index_lt hi hj) heq
    have hss : sectorSize = 128 := rfl
    have hnd : numDirect = 29 := rfl
    rw [hss, hnd] at this
    rw [hnd] at hdirect
    rw [hhb]
    omega

end Overwrite

/-! ## The file gets longer -/

section Longer
variable {disk disk' : ℕ → Sector} {hs hs' : List ℕ}

/-- Header `i` of a file that got longer. -/
theorem getD_of_chain (h : hs <+: hs') {i : ℕ} (hi : i < hs.length) :
    hs'.getD i 0 = hs.getD i 0 := by
  obtain ⟨t, rfl⟩ := h
  exact List.getD_append _ _ _ _ hi

/-- A file that gets new sectors is in good order if its chain of headers is. -/
theorem FileOk.extend (hf : FileOk disk hs) (hc : ChainOk disk' hs') (hchain : hs <+: hs')
    (hdata : ∀ q, q < sectorCount disk hs → dataSector disk' hs' q = dataSector disk hs q)
    {N : ℕ → Prop} (hnew : ∀ x, N x → ¬ Owned disk hs x)
    (hnewData : ∀ q, sectorCount disk hs ≤ q → q < sectorCount disk' hs' →
      N (dataSector disk' hs' q))
    (hnewHeads : ∀ i, hs.length ≤ i → i < hs'.length → N (hs'.getD i 0))
    (hheads : ∀ i j, hs.length ≤ i → i < hs'.length → hs.length ≤ j → j < hs'.length →
      hs'.getD i 0 = hs'.getD j 0 → i = j)
    (hdistinct : ∀ q q', sectorCount disk hs ≤ q → q < sectorCount disk' hs' →
      sectorCount disk hs ≤ q' → q' < sectorCount disk' hs' →
      dataSector disk' hs' q = dataSector disk' hs' q' → q = q')
    (hapart : ∀ i q, hs.length ≤ i → i < hs'.length → sectorCount disk hs ≤ q →
      q < sectorCount disk' hs' → hs'.getD i 0 ≠ dataSector disk' hs' q) : FileOk disk' hs' := by
  -- an old sector is owned, a new one is not
  have hold : ∀ q, q < sectorCount disk hs → Owned disk hs (dataSector disk' hs' q) := by
    intro q hq
    exact Or.inr ⟨q, hq, hdata q hq⟩
  have holdHead : ∀ i, i < hs.length → Owned disk hs (hs'.getD i 0) := by
    intro i hi
    exact Or.inl ⟨i, hi, getD_of_chain hchain hi⟩
  refine ⟨hc, fun i j hi hj heq => ?_, fun q q' hq hq' heq => ?_, fun i q hi hq heq => ?_⟩
  · by_cases h1 : i < hs.length <;> by_cases h2 : j < hs.length
    · rw [getD_of_chain hchain h1, getD_of_chain hchain h2] at heq
      exact hf.heads_distinct i j h1 h2 heq
    · exact absurd (heq ▸ holdHead i h1) (hnew _ (hnewHeads j (by omega) hj))
    · exact absurd (heq ▸ holdHead j h2) (hnew _ (hnewHeads i (by omega) hi))
    · exact hheads i j (by omega) hi (by omega) hj heq
  · by_cases h1 : q < sectorCount disk hs <;> by_cases h2 : q' < sectorCount disk hs
    · rw [hdata q h1, hdata q' h2] at heq
      exact hf.data_distinct q q' h1 h2 heq
    · exact absurd (heq ▸ hold q h1) (hnew _ (hnewData q' (by omega) hq'))
    · exact absurd (heq ▸ hold q' h2) (hnew _ (hnewData q (by omega) hq))
    · exact hdistinct q q' (by omega) hq (by omega) hq' heq
  · by_cases h1 : i < hs.length <;> by_cases h2 : q < sectorCount disk hs
    · rw [getD_of_chain hchain h1, hdata q h2] at heq
      exact hf.apart i q h1 h2 heq
    · exact absurd (heq ▸ holdHead i h1) (hnew _ (hnewData q (by omega) hq))
    · exact absurd (heq ▸ hold q h2) (hnew _ (hnewHeads i (by omega) hi))
    · exact hapart i q (by omega) hi (by omega) hq heq

/-- **The file has got longer**: it has its sectors and those that were `taken`. -/
structure Longer (taken : ℕ → Prop) (disk : ℕ → Sector) (hs : List ℕ) (disk' : ℕ → Sector)
    (hs' : List ℕ) : Prop where
  ok : FileOk disk' hs'
  chain : hs <+: hs'
  count_le : sectorCount disk hs ≤ sectorCount disk' hs'
  data : ∀ q, q < sectorCount disk hs → dataSector disk' hs' q = dataSector disk hs q
  owned : ∀ x, Owned disk' hs' x ↔ Owned disk hs x ∨ taken x

/-- The bytes stay where they are. -/
theorem Longer.fileByte_eq {taken : ℕ → Prop} (hl : Longer taken disk hs disk' hs')
    (hf : FileOk disk hs)
    (h : ∀ q, q < sectorCount disk hs → disk' (dataSector disk hs q) = disk (dataSector disk hs q))
    {p : ℕ} (hp : p < fileLength disk hs) : fileByte disk' hs' p = fileByte disk hs p := by
  have hq := hf.sector_of_byte hp
  rw [fileByte, fileByte, hl.data _ hq, h _ hq]

/-- A sector that one free map has clear and the next one marked. -/
def Taken (freeMap freeMap' : Bitmap) (x : ℕ) : Prop := freeMap x = false ∧ freeMap' x = true

variable {h' : RawFileHeader} {freeMap freeMap' : Bitmap} {size x : ℕ}

theorem RawFileHeader.Grows.taken_iff {h : RawFileHeader} (hg : h.Grows freeMap size h' freeMap') :
    Taken freeMap freeMap' x ↔
      ∃ j, h.numSectors ≤ j ∧ j < h'.numSectors ∧ x = h'.dataSectors j := by
  rw [Taken, hg.marks x]
  constructor
  · rintro ⟨hclear, hmarked | hnew⟩
    · rw [hclear] at hmarked
      cases hmarked
    · exact hnew
  · rintro ⟨j, hj, hlt, rfl⟩
    exact ⟨(hg.clear j hj hlt).2, Or.inr ⟨j, hj, hlt, rfl⟩⟩

/-- **The last header gets more space.** -/
theorem FileOk.grow (hf : FileOk disk hs)
    (hg : (headerOf disk hs (hs.length - 1)).Grows freeMap size h' freeMap')
    (hsize : (headerOf disk hs (hs.length - 1)).numBytes + size ≤ headerBytes)
    (hlast : headerOf disk' hs (hs.length - 1) = h')
    (hother : ∀ i, i + 1 < hs.length → headerOf disk' hs i = headerOf disk hs i)
    (hmarked : ∀ x, Owned disk hs x → freeMap x = true) :
    Longer (Taken freeMap freeMap') disk hs disk' hs ∧
      fileLength disk' hs = fileLength disk hs + size := by
  have hnd : numDirect = 29 := rfl
  have hpos := hf.pos
  have hok' := hg.headerOk (hf.headers _ (by omega)) hsize
  have hle' := hok'.numSectors_le
  have hgle := hg.le
  have hcount' : sectorCount disk' hs = numDirect * (hs.length - 1) + h'.numSectors := by
    rw [sectorCount, hlast]
  have hcount : sectorCount disk hs = numDirect * (hs.length - 1) +
      (headerOf disk hs (hs.length - 1)).numSectors := rfl
  have hchain : ChainOk disk' hs := by
    refine ⟨hpos, fun i hi => ?_, fun i hi => ?_, fun i hi => ?_, ?_, hf.nonzero, hf.heads_lt⟩
    · by_cases hi' : i + 1 < hs.length
      · rw [hother i hi']
        exact hf.headers i hi
      · obtain rfl : i = hs.length - 1 := by omega
        rw [hlast]
        exact hok'
    · rw [hother i hi]
      exact hf.next i hi
    · rw [hother i hi]
      exact hf.full i hi
    · rw [hlast, hg.next_eq]
      exact hf.last
  have hdata : ∀ q, q < sectorCount disk hs → dataSector disk' hs q = dataSector disk hs q := by
    intro q hq
    obtain ⟨h1, h2⟩ := hf.sector_index hq
    by_cases hi : q / numDirect + 1 < hs.length
    · rw [dataSector, dataSector, hother _ hi]
    · have hi' : q / numDirect = hs.length - 1 := by omega
      rw [hi'] at h2
      rw [dataSector, dataSector, hi', hlast, hg.kept _ (Or.inl h2)]
  -- a new data sector is one of those that `Allocate` took
  have hnew : ∀ q, sectorCount disk hs ≤ q → q < sectorCount disk' hs → ∃ j,
      q = numDirect * (hs.length - 1) + j ∧ (headerOf disk hs (hs.length - 1)).numSectors ≤ j ∧
      j < h'.numSectors ∧ dataSector disk' hs q = h'.dataSectors j := by
    intro q hq hq'
    rw [hcount] at hq
    rw [hcount'] at hq'
    obtain ⟨j, rfl⟩ := Nat.exists_eq_add_of_le (show numDirect * (hs.length - 1) ≤ q by omega)
    refine ⟨j, rfl, by omega, by omega, ?_⟩
    rw [dataSector_index (by omega), hlast]
  refine ⟨⟨?_, List.prefix_rfl, by omega, hdata, fun x => ?_⟩, ?_⟩
  · refine hf.extend (N := fun x => freeMap x = false) hchain List.prefix_rfl hdata ?_ ?_ ?_ ?_ ?_
      ?_
    · intro x hx hown
      rw [hmarked x hown] at hx
      cases hx
    · intro q hq hq'
      obtain ⟨j, -, hj, hlt, heq⟩ := hnew q hq hq'
      rw [heq]
      exact (hg.clear j hj hlt).2
    · intro i hi hi'
      omega
    · intro i j hi hi'
      omega
    · intro q q' hq hq' hr hr' heq
      obtain ⟨j, rfl, hj, hlt, hdj⟩ := hnew q hq hq'
      obtain ⟨l, rfl, hl, hlt', hdl⟩ := hnew q' hr hr'
      rw [hdj, hdl] at heq
      rw [hg.distinct j l hj hlt hl hlt' heq]
    · intro i q hi hi'
      omega
  · rw [hg.taken_iff]
    constructor
    · rintro (⟨i, hi, rfl⟩ | ⟨q, hq, rfl⟩)
      · exact Or.inl (Or.inl ⟨i, hi, rfl⟩)
      · by_cases hold : q < sectorCount disk hs
        · exact Or.inl (Or.inr ⟨q, hold, hdata q hold⟩)
        · obtain ⟨j, -, hj, hlt, heq⟩ := hnew q (by omega) hq
          exact Or.inr ⟨j, hj, hlt, heq⟩
    · rintro ((⟨i, hi, rfl⟩ | ⟨q, hq, rfl⟩) | ⟨j, hj, hlt, rfl⟩)
      · exact Or.inl ⟨i, hi, rfl⟩
      · exact Or.inr ⟨q, by omega, (hdata q hq).symm⟩
      · refine Or.inr ⟨numDirect * (hs.length - 1) + j, by omega, ?_⟩
        rw [dataSector_index (by omega), hlast]
  · rw [fileLength, fileLength, hlast, hg.numBytes_eq]
    omega

/-- **A new header is linked to the last one.** -/
theorem FileOk.append (hf : FileOk disk hs)
    (hfull : (headerOf disk hs (hs.length - 1)).numBytes = headerBytes)
    (hg : RawFileHeader.empty.Grows freeMap size h' freeMap') (hsize : size ≤ headerBytes)
    (hx : x < numSectors) (hx0 : x ≠ 0) (hxm : freeMap x = true) (hxo : ¬ Owned disk hs x)
    (hnew : headerOn disk' x = h')
    (hlast : headerOf disk' hs (hs.length - 1) =
      { headerOf disk hs (hs.length - 1) with nextFileHeader := x })
    (hother : ∀ i, i + 1 < hs.length → headerOf disk' hs i = headerOf disk hs i)
    (hmarked : ∀ y, Owned disk hs y → freeMap y = true) :
    Longer (fun y => y = x ∨ Taken freeMap freeMap' y) disk hs disk' (hs ++ [x]) ∧
      fileLength disk' (hs ++ [x]) = fileLength disk hs + size := by
  have hnd : numDirect = 29 := rfl
  have hpos := hf.pos
  have hempty : RawFileHeader.empty.numSectors = 0 := rfl
  have hbytes := hg.numBytes_of_empty
  have hok' : HeaderOk h' :=
    hg.headerOk RawFileHeader.headerOk_empty ((Nat.zero_add _).trans_le hsize)
  have hle' := hok'.numSectors_le
  have hlen : (hs ++ [x]).length = hs.length + 1 := by simp
  have hold : ∀ i, i < hs.length → (hs ++ [x]).getD i 0 = hs.getD i 0 :=
    fun i hi => List.getD_append _ _ _ _ hi
  have hend : (hs ++ [x]).getD hs.length 0 = x := by simp
  -- the headers of the file
  have hheadEnd : headerOf disk' (hs ++ [x]) hs.length = h' := by
    rw [headerOf, hend, hnew]
  have hheadLast : headerOf disk' (hs ++ [x]) (hs.length - 1) =
      { headerOf disk hs (hs.length - 1) with nextFileHeader := x } := by
    rw [← hlast, headerOf, hold _ (by omega)]
    rfl
  have hheadOther : ∀ i, i + 1 < hs.length →
      headerOf disk' (hs ++ [x]) i = headerOf disk hs i := by
    intro i hi
    rw [← hother i hi, headerOf, hold _ (by omega)]
    rfl
  have hlastSectors : (headerOf disk hs (hs.length - 1)).numSectors = numDirect := by
    rw [(hf.headers _ (by omega)).numSectors_eq, hfull]
    decide
  have hcount : sectorCount disk hs = numDirect * hs.length := by
    rw [sectorCount, hlastSectors, hnd]
    omega
  have hcount' : sectorCount disk' (hs ++ [x]) = numDirect * hs.length + h'.numSectors := by
    rw [sectorCount, hlen, Nat.add_sub_cancel, hheadEnd]
  have hchain : ChainOk disk' (hs ++ [x]) := by
    refine ⟨by omega, fun i hi => ?_, fun i hi => ?_, fun i hi => ?_, ?_, fun i hi hi' => ?_,
      fun i hi => ?_⟩
    · rcases Nat.lt_trichotomy (i + 1) hs.length with h1 | h1 | h1
      · rw [hheadOther i h1]
        exact hf.headers i (by omega)
      · obtain rfl : i = hs.length - 1 := by omega
        rw [hheadLast]
        have hok := hf.headers (hs.length - 1) (by omega)
        exact ⟨hok.numBytes_le, hok.numSectors_eq, hok.lt⟩
      · obtain rfl : i = hs.length := by omega
        rw [hheadEnd]
        exact hok'
    · by_cases h1 : i + 1 < hs.length
      · rw [hheadOther i h1, hold _ h1]
        exact hf.next i h1
      · obtain rfl : i = hs.length - 1 := by omega
        rw [hheadLast, Nat.sub_add_cancel hpos, hend]
    · by_cases h1 : i + 1 < hs.length
      · rw [hheadOther i h1]
        exact hf.full i h1
      · obtain rfl : i = hs.length - 1 := by omega
        rw [hheadLast]
        exact hfull
    · rw [hlen, Nat.add_sub_cancel, hheadEnd, hg.next_eq]
      rfl
    · by_cases h1 : i < hs.length
      · rw [hold i h1]
        exact hf.nonzero i hi h1
      · obtain rfl : i = hs.length := by omega
        rw [hend]
        exact hx0
    · by_cases h1 : i < hs.length
      · rw [hold i h1]
        exact hf.heads_lt i h1
      · obtain rfl : i = hs.length := by omega
        rw [hend]
        exact hx
  have hdata : ∀ q, q < sectorCount disk hs →
      dataSector disk' (hs ++ [x]) q = dataSector disk hs q := by
    intro q hq
    obtain ⟨h1, -⟩ := hf.sector_index hq
    by_cases hi : q / numDirect + 1 < hs.length
    · rw [dataSector, dataSector, hheadOther _ hi]
    · have hi' : q / numDirect = hs.length - 1 := by omega
      rw [dataSector, dataSector, hi', hheadLast]
  have hnewData : ∀ q, sectorCount disk hs ≤ q → q < sectorCount disk' (hs ++ [x]) → ∃ j,
      q = numDirect * hs.length + j ∧ j < h'.numSectors ∧
      dataSector disk' (hs ++ [x]) q = h'.dataSectors j := by
    intro q hq hq'
    rw [hcount] at hq
    rw [hcount'] at hq'
    obtain ⟨j, rfl⟩ := Nat.exists_eq_add_of_le hq
    refine ⟨j, rfl, by omega, ?_⟩
    rw [dataSector_index (by omega), hheadEnd]
  have hclear : ∀ j, j < h'.numSectors → freeMap (h'.dataSectors j) = false :=
    fun j hj => (hg.clear j (by omega) hj).2
  refine ⟨⟨?_, List.prefix_append _ _, by omega, hdata, fun y => ?_⟩, ?_⟩
  · refine hf.extend (N := fun y => y = x ∨ freeMap y = false) hchain (List.prefix_append _ _) hdata
      ?_ ?_ ?_ ?_ ?_ ?_
    · rintro y (rfl | hy) hown
      · exact hxo hown
      · rw [hmarked y hown] at hy
        cases hy
    · intro q hq hq'
      obtain ⟨j, -, hj, heq⟩ := hnewData q hq hq'
      rw [heq]
      exact Or.inr (hclear j hj)
    · intro i hi hi'
      obtain rfl : i = hs.length := by omega
      exact Or.inl hend
    · intro i j hi hi' hj hj' _
      omega
    · intro q q' hq hq' hr hr' heq
      obtain ⟨j, rfl, hj, hdj⟩ := hnewData q hq hq'
      obtain ⟨l, rfl, hl, hdl⟩ := hnewData q' hr hr'
      rw [hdj, hdl] at heq
      rw [hg.distinct j l (by omega) hj (by omega) hl heq]
    · -- the new header sector is marked already, its data sectors are not
      intro i q hi hi' hq hq' heq
      obtain ⟨j, -, hj, hdj⟩ := hnewData q hq hq'
      obtain rfl : i = hs.length := by omega
      rw [hend, hdj] at heq
      have := hclear j hj
      rw [← heq, hxm] at this
      cases this
  · rw [hg.taken_iff]
    constructor
    · rintro (⟨i, hi, rfl⟩ | ⟨q, hq, rfl⟩)
      · by_cases h1 : i < hs.length
        · exact Or.inl (Or.inl ⟨i, h1, hold i h1⟩)
        · obtain rfl : i = hs.length := by omega
          exact Or.inr (Or.inl hend)
      · by_cases h1 : q < sectorCount disk hs
        · exact Or.inl (Or.inr ⟨q, h1, hdata q h1⟩)
        · obtain ⟨j, -, hj, heq⟩ := hnewData q (by omega) hq
          exact Or.inr (Or.inr ⟨j, by omega, hj, heq⟩)
    · rintro ((⟨i, hi, rfl⟩ | ⟨q, hq, rfl⟩) | rfl | ⟨j, -, hj, rfl⟩)
      · exact Or.inl ⟨i, by omega, (hold i hi).symm⟩
      · exact Or.inr ⟨q, by omega, (hdata q hq).symm⟩
      · exact Or.inl ⟨hs.length, by omega, hend.symm⟩
      · refine Or.inr ⟨numDirect * hs.length + j, by omega, ?_⟩
        rw [dataSector_index (by omega), hheadEnd]
  · rw [fileLength, fileLength, hlen, Nat.add_sub_cancel, hheadEnd, hbytes, hfull]
    have hhb : headerBytes = 3712 := rfl
    rw [hhb]
    omega

end Longer
end PaldOs
