import PaldOs.Operations

/-! # Removing files

`Remove` clears the sectors of a file in its copy of the free map, header after header, and stores
the free map; then it empties the entry and stores the directory.  At least the sector of the
header is free at that time, so the directory is stored as far as its entries go.
-/
namespace PaldOs

open Sys

/-- A sector of the headers from `i` on. -/
def UsesFrom (disk : ℕ → Sector) (hs : List ℕ) (i x : ℕ) : Prop :=
  ∃ i', i ≤ i' ∧ i' < hs.length ∧ (x = hs.getD i' 0 ∨
    ∃ j, j < (headerOf disk hs i').numSectors ∧ x = (headerOf disk hs i').dataSectors j)

section Clearing
variable {disk : ℕ → Sector} {hs : List ℕ} {h : RawFileHeader} {freeMap : Bitmap} {s : System}

theorem usesFrom_zero {x : ℕ} : UsesFrom disk hs 0 x ↔ Uses disk hs x := by
  constructor
  · rintro ⟨i, -, hi, hx⟩
    exact ⟨i, hi, hx⟩
  · rintro ⟨i, hi, hx⟩
    exact ⟨i, Nat.zero_le i, hi, hx⟩

theorem usesFrom_succ {i x : ℕ} (hi : i < hs.length) : UsesFrom disk hs i x ↔
    (x = hs.getD i 0 ∨ ∃ j, j < (headerOf disk hs i).numSectors ∧
      x = (headerOf disk hs i).dataSectors j) ∨ UsesFrom disk hs (i + 1) x := by
  constructor
  · rintro ⟨i', hle, hlt, hx⟩
    rcases Nat.eq_or_lt_of_le hle with rfl | hgt
    · exact Or.inl hx
    · exact Or.inr ⟨i', hgt, hlt, hx⟩
  · rintro (hx | ⟨i', hle, hlt, hx⟩)
    · exact ⟨i, le_rfl, hi, hx⟩
    · exact ⟨i', by omega, hlt, hx⟩

theorem not_usesFrom_length {i x : ℕ} (hi : hs.length ≤ i) : ¬ UsesFrom disk hs i x := by
  rintro ⟨i', hle, hlt, -⟩
  omega

/-- The loop of `Deallocate`. -/
theorem RawFileHeader.deallocateFrom_eq (n : ℕ) : ∀ (freeMap : Bitmap) (i : ℕ),
    (∀ j, i ≤ j → j < i + n → h.dataSectors j < PaldOs.numSectors ∧
      freeMap (h.dataSectors j) = true) →
    (∀ j l, i ≤ j → j < i + n → i ≤ l → l < i + n → h.dataSectors j = h.dataSectors l → j = l) →
    ∃ freeMap', h.deallocateFrom freeMap i n = some freeMap' ∧
      ∀ x, freeMap' x = true ↔ freeMap x = true ∧
        ¬ ∃ j, i ≤ j ∧ j < i + n ∧ x = h.dataSectors j := by
  induction n with
  | zero =>
    intro freeMap i _ _
    refine ⟨freeMap, rfl, fun x => ⟨fun hx => ⟨hx, ?_⟩, And.left⟩⟩
    rintro ⟨j, h1, h2, -⟩
    omega
  | succ n ih =>
    intro freeMap i hmarked hdistinct
    have hi := hmarked i le_rfl (by omega)
    have hmarked' : ∀ j, i + 1 ≤ j → j < i + 1 + n → h.dataSectors j < PaldOs.numSectors ∧
        freeMap.clear (h.dataSectors i) (h.dataSectors j) = true := by
      intro j h1 h2
      obtain ⟨hlt, hm⟩ := hmarked j (by omega) (by omega)
      refine ⟨hlt, ?_⟩
      have hne : h.dataSectors j ≠ h.dataSectors i := by
        intro he
        have := hdistinct j i (by omega) (by omega) le_rfl (by omega) he
        omega
      exact (Function.update_of_ne hne ..).trans hm
    obtain ⟨freeMap', heq, hbits⟩ := ih (freeMap.clear (h.dataSectors i)) (i + 1) hmarked'
      fun j l h1 h2 h3 h4 h5 => hdistinct j l (by omega) (by omega) (by omega) (by omega) h5
    refine ⟨freeMap', ?_, fun x => ?_⟩
    · rw [deallocateFrom, if_pos hi]
      exact heq
    · rw [hbits x, Bitmap.clear]
      rcases eq_or_ne x (h.dataSectors i) with rfl | hne
      · rw [Function.update_self]
        constructor
        · rintro ⟨hc, -⟩
          cases hc
        · rintro ⟨-, hno⟩
          exact absurd ⟨i, le_rfl, by omega, rfl⟩ hno
      · rw [Function.update_of_ne hne]
        refine and_congr_right fun _ => not_congr ⟨?_, ?_⟩
        · rintro ⟨j, h1, h2, h3⟩
          exact ⟨j, by omega, by omega, h3⟩
        · rintro ⟨j, h1, h2, h3⟩
          have hij : j ≠ i := by
            rintro rfl
            exact hne h3
          exact ⟨j, by omega, by omega, h3⟩

/-- The sectors of one header are cleared. -/
theorem clearHeader_ends (hok : HeaderOk h) (hd : h.Distinct) (sector : ℕ)
    (hmarked : ∀ j, j < h.numSectors → freeMap (h.dataSectors j) = true) :
    s.Ends (FileSystem.clearHeader h sector freeMap) (fun freeMap' s' => s' = s ∧
      ∀ x, freeMap' x = true ↔ freeMap x = true ∧
        ¬ (x = sector ∨ ∃ j, j < h.numSectors ∧ x = h.dataSectors j)) := by
  obtain ⟨freeMap', heq, hbits⟩ := RawFileHeader.deallocateFrom_eq (h := h) h.numSectors freeMap 0
    (fun j _ hj => ⟨hok.lt j (by omega), hmarked j (by omega)⟩)
    (fun j l _ hj _ hl he => hd j l (by omega) (by omega) he)
  unfold FileSystem.clearHeader RawFileHeader.deallocate
  rw [heq]
  refine Prog.ends_pure.mpr ⟨rfl, fun x => ?_⟩
  have hex : (∃ j, 0 ≤ j ∧ j < 0 + h.numSectors ∧ x = h.dataSectors j) ↔
      ∃ j, j < h.numSectors ∧ x = h.dataSectors j := by
    refine exists_congr fun j => ?_
    rw [Nat.zero_add]
    exact and_iff_right (Nat.zero_le j)
  rw [Bitmap.clear]
  rcases eq_or_ne x sector with rfl | hne
  · rw [Function.update_self]
    simp
  · rw [Function.update_of_ne hne, hbits x, hex]
    simp [hne]

theorem Sound.distinct (hf : Sound disk hs) {i : ℕ} (hi : i < hs.length) :
    (headerOf disk hs i).Distinct :=
  fun j l hj hl heq => (hf.data_distinct i j i l hi hj hi hl heq).2

/-- **The loop of `Remove`** over the headers from the one with index `i` on. -/
theorem clearNext_ends (hf : Sound s.disk hs) (fuel : ℕ) : ∀ (i : ℕ) (freeMap : Bitmap),
    i ≤ hs.length → hs.length < i + fuel → 0 < i →
    (∀ i' j, i ≤ i' → i' < hs.length → j < (headerOf s.disk hs i').numSectors →
      freeMap ((headerOf s.disk hs i').dataSectors j) = true) →
    s.Ends (FileSystem.clearNext fuel (if i < hs.length then hs.getD i 0 else 0) freeMap)
      (fun freeMap' s' => s' = s ∧ ∀ x, freeMap' x = true ↔
        freeMap x = true ∧ ¬ UsesFrom s.disk hs i x) := by
  induction fuel with
  | zero =>
    intro i freeMap hle hlen
    omega
  | succ fuel ih =>
    intro i freeMap hle hlen hpos hmarked
    unfold FileSystem.clearNext
    by_cases hi : i < hs.length
    · rw [if_pos hi, if_pos (hf.nonzero i hpos hi)]
      simp only [Prog.ends_bind, ends_readSector]
      refine ⟨hf.heads_lt i hi, ?_⟩
      refine (clearHeader_ends (hf.headers i hi) (hf.distinct hi) (hs.getD i 0)
        fun j hj => hmarked i j le_rfl hi hj).mono ?_
      rintro freeMap' s' ⟨hs', hbits⟩
      obtain rfl := hs'.symm
      have hnext : (RawFileHeader.ofSector (s.disk (hs.getD i 0))).nextFileHeader =
          if i + 1 < hs.length then hs.getD (i + 1) 0 else 0 := by
        show (headerOf s.disk hs i).nextFileHeader = _
        by_cases hlast : i + 1 < hs.length
        · rw [if_pos hlast]
          exact hf.next i hlast
        · rw [if_neg hlast]
          have heq : i = hs.length - 1 := by omega
          rw [heq]
          exact hf.last
      rw [hnext]
      refine (ih (i + 1) freeMap' hi (by omega) (Nat.succ_pos i) fun i' j hle hlt hj => ?_).mono ?_
      · rw [hbits]
        refine ⟨hmarked i' j (by omega) hlt hj, ?_⟩
        rintro (he | ⟨l, hl, he⟩)
        · exact hf.apart i i' j hi hlt hj he.symm
        · have := (hf.data_distinct i' j i l hlt hj hi hl he).1
          omega
      · rintro freeMap'' s'' ⟨hs'', hbits'⟩
        refine ⟨hs'', fun x => ?_⟩
        have hstep := hbits x
        change freeMap' x = true ↔ freeMap x = true ∧
          ¬ (x = hs.getD i 0 ∨ ∃ j, j < (headerOf s.disk hs i).numSectors ∧
            x = (headerOf s.disk hs i).dataSectors j) at hstep
        rw [hbits' x, hstep, usesFrom_succ hi, and_assoc, ← not_or]
    · rw [if_neg hi, if_neg (by simp)]
      refine Prog.ends_pure.mpr ⟨rfl, fun x => ?_⟩
      have hend : ¬ UsesFrom s.disk hs i x := not_usesFrom_length (Nat.not_lt.mp hi)
      exact ⟨fun hx => ⟨hx, hend⟩, And.left⟩

end Clearing

/-! ## `Remove` -/

section Space
variable {disk : ℕ → Sector} {chain : List ℕ} {t : Directory} {freeMap : Bitmap}

/-- With a free sector there is space for one more entry in the headers there are. -/
theorem TableOn.not_short (ht : TableOn disk chain t) (hok : FileOk disk chain)
    (hfree : 0 < freeMap.countClear) {size : ℕ} (hsize : size ≤ t.length + 1) :
    ¬ Short disk chain freeMap 0 (size * DirectoryEntry.size) := by
  intro hshort
  rw [Short, lt_divRoundUp_iff (by decide)] at hshort
  have hlen := hok.fileLength_le
  rw [ht.length] at hlen
  have hss : sectorSize = 128 := rfl
  have hes : DirectoryEntry.size = 32 := rfl
  rw [hss, hes] at hshort hlen
  omega

end Space

/-- **No sector is lost** when the file at `x` is removed from the directory at `c`: with the
sectors of the file free, the directory is stored without new headers for nothing. -/
def RemoveKeeps (disk : ℕ → Sector) (c x size : ℕ) : Prop :=
  ∀ freeMap : Bitmap, (∀ y, y < numSectors → (freeMap y = true ↔
      mapAt disk y = true ∧ ¬ Uses disk (chainOn disk x) y)) →
    Roomy disk (chainOn disk c) freeMap 0 (size * DirectoryEntry.size)

/-- **What is given back is the file at `x`**: its sectors are clear and its entry in the directory
at `c` is empty, and but for the free map and that directory the disk is the same. -/
structure Freed (m : ℕ) (disk : ℕ → Sector) (c x : ℕ) (disk' : ℕ → Sector) : Prop where
  map : ∀ y, y < numSectors → (mapOn disk' m y = true ↔
    mapOn disk m y = true ∧ ¬ Uses disk (chainOn disk x) y)
  frame : ∀ y, y ≠ m → ¬ Uses disk (chainOn disk c) y → disk' y = disk y
  chain : chainOn disk' c = chainOn disk c
  length : (tableAt disk' c).length = (tableAt disk c).length
  slot : ∃ j, ((tableAt disk c).slot j).inUse = true ∧ ((tableAt disk c).slot j).sector = x ∧
    ∀ q, (tableAt disk' c).slot q =
      if q = j then ((tableAt disk c).slot j).emptied else (tableAt disk c).slot q

/-- After the file at `x` is removed. -/
structure Removed (D : Discipline) (V : Volume) (s : System) (c x : ℕ) (V' : Volume) (s' : System) :
    Prop where
  ready : Ready D V' s'
  map : V'.map = V.map
  handles : V'.handles = V.handles
  extra : V'.extra = V.extra
  reached : V.AllReached → V'.AllReached
  dir : ∃ chain t, AtDir V' s' c chain t
  freeMapFile : s'.freeMapFile = s.freeMapFile
  directoryFile : s'.directoryFile = s.directoryFile
  createLock : s'.held filesysCreateLock = s.held filesysCreateLock
  keeps : RemoveKeeps s.disk c x s.directorySize → ∀ y, V'.leaked y → V.leaked y
  freed : s.directorySize ≤ (tableAt s.disk c).length → Freed V.map s.disk c x s'.disk

section Remove
variable {D : Discipline} {V : Volume} {s : System} {c x j : ℕ} {chain : List ℕ}
  {t d : Directory} {name : List UInt8} {i : FileInfo}

/-- A file nobody has open is gone. -/
theorem HandlesOk.erase (hh : HandlesOk D V s) (hcount : (s.openFilesTable x).count = 0) :
    HandlesOk D (V.erase x) s ∧ ∀ g, (g, x) ∉ V.handles := by
  have hno : ∀ g, (g, x) ∉ V.handles := by
    intro g hg
    have hpos : 0 < V.handles.countP (fun p => p.2 == x) :=
      List.countP_pos_iff.mpr ⟨(g, x), hg, by simp⟩
    have := hh.counts x
    omega
  have hfiles : ∀ h, h ≠ x → (V.erase x).files h = V.files h := fun h hne =>
    Function.update_of_ne hne ..
  refine ⟨{ hh with
    on := fun g h hg => ?_
    cursor := fun g h chain hg hi => hh.cursor g h chain hg (erase_files_cases.mp hi).2
    quiet := fun h hs => ?_ }, hno⟩
  · have hne : h ≠ x := by
      rintro rfl
      exact hno g hg
    rw [hfiles h hne]
    exact hh.on g h hg
  · have hne : h ≠ x := by
      rintro rfl
      have hself : (V.erase h).files h = none := Function.update_self ..
      rw [hself] at hs
      cases hs
    rw [hfiles h hne] at hs
    exact hh.quiet h hs

/-- The entry of a sector without a file is changed, but not its locks and its count. -/
theorem HandlesOk.putGone (hh : HandlesOk D V s) (hnone : V.files x = none) {e : OpenFileEntry}
    (hcount : e.count = (s.openFilesTable x).count)
    (h1 : e.removeLock = (s.openFilesTable x).removeLock)
    (h2 : e.writeLock = (s.openFilesTable x).writeLock)
    (h3 : e.closeLock = (s.openFilesTable x).closeLock) : HandlesOk D V (s.putEntry x e) := by
  have hself : (s.putEntry x e).openFilesTable x = e := Function.update_self ..
  have hother : ∀ y, y ≠ x → (s.putEntry x e).openFilesTable y = s.openFilesTable y :=
    fun y hy => Function.update_of_ne hy ..
  have hfm := hh.freeMap
  refine ⟨⟨hfm.numBytes_eq, hfm.numSectors_eq, hfm.sector_eq, hfm.lt⟩, hh.freeMapFile, hh.sector,
    hh.lt, hh.nodup, hh.on, hh.cursor, fun y => ?_, fun y hy => ?_, fun h hs => ?_,
    hh.locks.putSame h1 h2 h3⟩
  · rcases eq_or_ne y x with rfl | hne
    · rw [hself, hcount]
      exact hh.counts y
    · rw [hother y hne]
      exact hh.counts y
  · rcases eq_or_ne y x with rfl | hne
    · rw [hself] at hy ⊢
      rw [hcount] at hy
      obtain ⟨hw, hr, hc⟩ := hh.locked y hy
      exact ⟨h2 ▸ hw, h1 ▸ hr, h3 ▸ hc⟩
    · rw [hother y hne] at hy ⊢
      exact hh.locked y hy
  · have hne : h ≠ x := by
      rintro rfl
      rw [hnone] at hs
      cases hs
    rw [hother h hne]
    exact hh.quiet h hs

/-- **The sectors of a file are cleared** in a copy of the free map. -/
theorem DiskOk.clearFile (hd : DiskOk D V s.disk) (hi : V.files x = some i) {freeMap : Bitmap}
    (hmap : ∀ y, y < numSectors → freeMap y = mapOn s.disk V.map y) :
    s.Ends (FileSystem.clearHeader (headerOn s.disk x) x freeMap) (fun freeMap₁ s₁ =>
      s₁.Ends (FileSystem.clearNext (numSectors + 1) (headerOn s.disk x).nextFileHeader freeMap₁)
        (fun freeMap' s' => s' = s ∧ ∀ y, freeMap' y = true ↔
          freeMap y = true ∧ ¬ Uses s.disk i.chain y)) := by
  have hf := (hd.file x i hi).sound
  have hhead : i.chain.getD 0 0 = x := (hd.file x i hi).head
  have hheader : headerOn s.disk x = headerOf s.disk i.chain 0 := by
    rw [headerOf, hhead]
  have hmarked : ∀ i' j, i' < i.chain.length → j < (headerOf s.disk i.chain i').numSectors →
      freeMap ((headerOf s.disk i.chain i').dataSectors j) = true := by
    intro i' j hi' hj
    obtain ⟨hlt, hm⟩ := hd.owned_marked ⟨x, i, hi, i', hi', Or.inr ⟨j, hj, rfl⟩⟩
    exact (hmap _ hlt).trans hm
  have hnext : (headerOn s.disk x).nextFileHeader =
      if 1 < i.chain.length then i.chain.getD 1 0 else 0 := by
    rw [hheader]
    by_cases hlast : 1 < i.chain.length
    · rw [if_pos hlast]
      exact hf.next 0 hlast
    · rw [if_neg hlast]
      have hlen : i.chain.length - 1 = 0 := by omega
      exact hlen ▸ hf.last
  rw [hnext, hheader]
  refine (clearHeader_ends (hf.headers 0 hf.pos) (hf.distinct hf.pos) x
    fun j hj => hmarked 0 j hf.pos hj).mono ?_
  rintro freeMap₁ s₁ ⟨hs₁, hbits⟩
  obtain rfl := hs₁.symm
  have hlen := hf.length_le
  refine (clearNext_ends hf (numSectors + 1) 1 freeMap₁ hf.pos (by omega) Nat.one_pos
    fun i' j h1 h2 hj => ?_).mono ?_
  · rw [hbits]
    refine ⟨hmarked i' j h2 hj, ?_⟩
    rintro (he | ⟨l, hl, he⟩)
    · exact hf.apart 0 i' j hf.pos h2 hj (hhead.trans he.symm)
    · have := (hf.data_distinct i' j 0 l h2 hj hf.pos hl he).1
      omega
  · rintro freeMap' s' ⟨hs', hbits'⟩
    refine ⟨hs', fun y => ?_⟩
    rw [hbits' y, hbits y, ← usesFrom_zero, usesFrom_succ hf.pos, hhead, and_assoc, ← not_or]

/-- **The tree without the entry.** -/
theorem TreeOk.unregister {k : ℕ} {chain' reserved : List ℕ} (ht : TreeOk V)
    (hc : V.files c = some ⟨chain, some t⟩) (hj : (t.slot j).inUse = true)
    (hx : (t.slot j).sector = x) (hne : c ≠ x) (hempty : ∀ q, (V.slot x q).inUse = false)
    (hmerge : ∀ q, (d.merge t k).slot q = if q = j then (t.slot j).emptied else t.slot q)
    {V' : Volume} (hV' : V' = (V.erase x).grown c ⟨chain', some (d.merge t k)⟩ reserved) :
    TreeOk V' ∧ (V.AllReached → V'.AllReached) := by
  have hdirectory : V'.files c = some ⟨chain', some (d.merge t k)⟩ := by
    rw [hV']
    exact put_files_self
  have hgone : V'.files x = none := by
    rw [hV']
    exact (put_files_of_ne hne.symm).trans (Function.update_self ..)
  have hother : ∀ h, h ≠ c → h ≠ x → V'.files h = V.files h := by
    intro h h1 h2
    rw [hV']
    exact (put_files_of_ne h1).trans (Function.update_of_ne h2 ..)
  have hdrops : Drops V c j x V' := by
    refine ⟨?_, ?_, hempty, fun h q hh => ?_, fun h => ?_⟩
    · rw [slot_of_files hc]
      exact hj
    · rw [slot_of_files hc]
      exact hx
    · rcases eq_or_ne h c with rfl | h1
      · rw [slot_of_files hdirectory, slot_of_files hc, slot_of_files hc, hmerge q]
        simp only [true_and]
      · rw [Volume.slot, hother h h1 hh, if_neg (fun hc => h1 hc.1), Volume.slot]
    · rcases eq_or_ne h x with rfl | h2
      · rw [Volume.kind, hgone, if_pos rfl]
        rfl
      · rw [if_neg h2]
        rcases eq_or_ne h c with rfl | h1
        · rw [kind_of_files hdirectory, kind_of_files hc]
          rfl
        · rw [Volume.kind, hother h h1 h2, Volume.kind]
  refine ⟨ht.drop hdrops fun h chain₁ t₁ hi₁ => ?_, fun hall h i₁ hi₁ => ?_⟩
  · rcases eq_or_ne h c with rfl | h1
    · rw [hdirectory, Option.some.injEq, FileInfo.mk.injEq, Option.some.injEq] at hi₁
      rw [← hi₁.2, Directory.length_merge]
      exact (ht.long h chain t hc).trans (Nat.le_max_left ..)
    · have h2 : h ≠ x := by
        rintro rfl
        rw [hgone] at hi₁
        cases hi₁
      rw [hother h h1 h2] at hi₁
      exact ht.long h chain₁ t₁ hi₁
  · have h2 : h ≠ x := by
      rintro rfl
      rw [hgone] at hi₁
      cases hi₁
    have hold : ∃ i₀, V.files h = some i₀ := by
      rcases eq_or_ne h c with rfl | h1
      · exact ⟨_, hc⟩
      · exact ⟨i₁, (hother h h1 h2).symm.trans hi₁⟩
    obtain ⟨i₀, hi₀⟩ := hold
    exact (hall h i₀ hi₀).drop hdrops h2

/-- The lock under which a file is removed: its own, or none, and then nothing changes. -/
def HoldsRemoveLock (s : System) (x l : ℕ) (b : Bool) : Prop :=
  (s.openFilesTable x).removeLock = some l ∧ b = true ∨
    (s.openFilesTable x).removeLock = none ∧ l = filesysCreateLock ∧
      b = s.held filesysCreateLock

/-- **The sectors of a file are given back**, while the lock is held. -/
theorem Ready.freeSectors (hr : Ready D V s) (hi : V.files x = some i)
    (hcount : (s.openFilesTable x).count = 0) {e : OpenFileEntry}
    (he : e = { s.openFilesTable x with removing := true }) {freeMap : Bitmap}
    (hmap : ∀ y, y < numSectors → (freeMap y = true ↔
      mapOn s.disk V.map y = true ∧ ¬ Uses s.disk i.chain y)) (l : ℕ) (b : Bool) :
    ((s.putHeld l b).putEntry x e).Ends (writeBackFreeMap freeMap) (fun _ s' => ∃ s₁,
      s' = s₁.putHeld l b ∧ DiskOk D (V.erase x) s₁.disk ∧ HandlesOk D (V.erase x) s₁ ∧
      (∀ y, y < numSectors → mapOn s₁.disk V.map y = freeMap y) ∧
      (∀ y, y ≠ V.map → s₁.disk y = s.disk y) ∧ Same { s with disk := s₁.disk } s₁ ∧
      s₁.openFilesTable = Function.update s.openFilesTable x e) := by
  have hm := hr.handles.freeMap
  have hm' : FreeMapOk ((s.putHeld l b).putEntry x e) V.map :=
    ⟨hm.numBytes_eq, hm.numSectors_eq, hm.sector_eq, hm.lt⟩
  refine (writeBackFreeMap_ends hm' freeMap).mono ?_
  rintro _ _ ⟨data, rfl, hbits⟩
  have hafter : ∀ y, y < numSectors →
      mapOn ((s.putEntry x e).putSector V.map data).disk V.map y = freeMap y := by
    intro y hy
    rw [mapOn]
    exact (congrArg (fun sector => Bitmap.ofBytes sector y) (Function.update_self ..)).trans
      (hbits y hy)
  have hsame : ∀ y, y ≠ V.map → ((s.putEntry x e).putSector V.map data).disk y = s.disk y :=
    fun y hy => Function.update_of_ne hy ..
  refine ⟨(s.putEntry x e).putSector V.map data, rfl, hr.disk.erase hi hsame fun y hy => ?_, ?_,
    hafter, hsame, ⟨rfl, rfl, rfl, rfl, rfl⟩, rfl⟩
  · rw [hafter y hy]
    exact hmap y hy
  · have hgone : (V.erase x).files x = none := Function.update_self ..
    have hh := ((hr.handles.erase hcount).1.putGone (e := e) hgone (by rw [he]) (by rw [he])
      (by rw [he]) (by rw [he]))
    have hcongr : ∀ h i', V.files h = some i' → ∀ y, Uses s.disk i'.chain y →
        ((s.putEntry x e).putSector V.map data).disk y = s.disk y := by
      intro h i' hi' y hy
      refine hsame y ?_
      rintro rfl
      exact (hr.disk.reserved h i' hi').2 hy
    exact { hh with
      freeMap := ⟨hh.freeMap.numBytes_eq, hh.freeMap.numSectors_eq, hh.freeMap.sector_eq,
        hh.freeMap.lt⟩
      cursor := fun g h chain' hg hi' => by
        have hi'' := (erase_files_cases.mp hi').2
        exact D.cursor_congr _ _ _ _ (hr.disk.file h _ hi'').sound (hcongr h _ hi'')
          (hh.cursor g h chain' hg hi')
      locks := hh.locks.of_eq rfl le_rfl hh.locks.free }

/-- The directory is stored as far as its entries go. -/
theorem merge_remove {k : ℕ} (hslot : ∀ q, d.slot q = t.slot q) (hj : t.findIndex name = some j)
    (hk : t.length ≤ k) (q : ℕ) :
    ((d.remove name).merge t k).slot q = if q = j then (t.slot j).emptied else t.slot q := by
  have hj' : d.findIndex name = some j := (Directory.findIndex_congr hslot).trans hj
  have hlt : j < t.length := by
    refine Directory.lt_of_inUse ?_
    exact (Bool.and_eq_true_iff.mp (Directory.findIndex_eq_some hj).2).1
  rw [Directory.slot_merge]
  by_cases hq : q < k
  · rw [if_pos hq, Directory.slot_remove hj', hslot, hslot]
  · rw [if_neg hq, if_neg (by omega)]

/-- The lock is given back. -/
theorem HandlesOk.unlockRemoved {s₀ : System} (hh : HandlesOk D V s) {l : ℕ} {b : Bool}
    (hl : HoldsRemoveLock s₀ x l b)
    (hlock : (s.openFilesTable x).removeLock = (s₀.openFilesTable x).removeLock)
    (hheld : s.held filesysCreateLock = s₀.held filesysCreateLock) {e : OpenFileEntry}
    (he : e.removeLock = (s.openFilesTable x).removeLock) :
    ((s.putHeld l b).putEntry x e).Ends (FileSystem.releaseIfAny e.removeLock)
      (fun _ s' => s' = s.putEntry x e) := by
  rcases hl with ⟨hsome, rfl⟩ | ⟨hnone, rfl, rfl⟩
  · have hsome' : (s.openFilesTable x).removeLock = some l := hlock.trans hsome
    have hne : l ≠ filesysCreateLock := by
      rintro rfl
      exact hh.locks.removeLock x hsome'
    rw [he, hsome']
    refine ends_release.mpr ⟨Function.update_self .., ?_⟩
    have hback : Function.update (Function.update s.held l true) l false = s.held := by
      rw [Function.update_idem, ← hh.locks.free l hne, Function.update_eq_self]
    unfold System.putHeld System.putEntry
    rw [hback]
  · rw [he, hlock, hnone]
    refine Prog.ends_pure.mpr ?_
    rw [System.putHeld_eq_self hheld]

/-- **`Remove`, from where it has the lock.** -/
theorem Ready.removeFile (hr : Ready D V s) (ha : AtDir V s c chain t)
    (hlen : d.length = s.directorySize) (hslot : ∀ q, d.slot q = t.slot q)
    (hj : t.findIndex name = some j) (hx : (t.slot j).sector = x) (hi : V.files x = some i)
    (hcount : (s.openFilesTable x).count = 0) (hempty : ∀ q, (V.slot x q).inUse = false) {l : ℕ}
    {b : Bool} (hl : HoldsRemoveLock s x l b) :
    (s.putHeld l b).Ends (FileSystem.removeFile d name x) (fun r s' =>
      r = true ∧ ∃ V', Removed D V s c x V' s') := by
  have hd := hr.disk
  have hc := ha.file
  have hinUse : (t.slot j).inUse = true :=
    (Bool.and_eq_true_iff.mp (Directory.findIndex_eq_some hj).2).1
  have hne : c ≠ x := by
    rintro rfl
    exact (hr.handles.erase hcount).2 _ ha.handle
  have hm := hr.handles.freeMap
  have hm' : FreeMapOk (s.putHeld l b) V.map :=
    ⟨hm.numBytes_eq, hm.numSectors_eq, hm.sector_eq, hm.lt⟩
  obtain ⟨e, he⟩ : ∃ e, e = { s.openFilesTable x with removing := true } := ⟨_, rfl⟩
  have hself : ((s.putHeld l b).putEntry x e).openFilesTable x = e := Function.update_self ..
  unfold FileSystem.removeFile
  refine Prog.ends_bind.mpr (ends_readSector.mpr ⟨hr.file_lt hi, ?_⟩)
  refine Prog.ends_bind.mpr ((fetchFreeMap_ends hm').mono ?_)
  rintro freeMap _ ⟨rfl, hmap⟩
  refine Prog.ends_bind.mpr (ends_getEntry.mpr (Prog.ends_bind.mpr (ends_setEntry.mpr ?_)))
  have hentry : { (s.putHeld l b).openFilesTable x with removing := true } = e := he.symm
  rw [hentry]
  -- nobody has the file open
  have hwait : ∀ Q : Unit → System → Prop, Q () ((s.putHeld l b).putEntry x e) →
      ((s.putHeld l b).putEntry x e).Ends (FileSystem.awaitClosed x) Q := by
    intro Q hQ
    unfold FileSystem.awaitClosed
    refine Prog.ends_bind.mpr (ends_getEntry.mpr ?_)
    rw [hself, if_neg (by rw [he]; simp [hcount])]
    exact Prog.ends_pure.mpr hQ
  refine Prog.ends_bind.mpr (hwait _ ?_)
  refine Prog.ends_bind.mpr ((hd.clearFile (s := (s.putHeld l b).putEntry x e) hi hmap).mono ?_)
  intro freeMap₁ s₁ h₁
  refine Prog.ends_bind.mpr (h₁.mono ?_)
  rintro freeMap₂ _ ⟨rfl, hbits⟩
  have hcleared : ∀ y, y < numSectors → (freeMap₂ y = true ↔
      mapOn s.disk V.map y = true ∧ ¬ Uses s.disk i.chain y) := by
    intro y hy
    rw [hbits y, hmap y hy]
    exact Iff.rfl
  refine Prog.ends_bind.mpr ((hr.freeSectors hi hcount he hcleared l b).mono ?_)
  rintro _ _ ⟨s₂, rfl, hd₂, hh₂, hmap₂, hdisk₂, hs₂, htable₂⟩
  have hfile₂ : s₂.directoryFile = s.directoryFile := hs₂.directoryFile
  refine Prog.ends_bind.mpr (ends_getDirectoryFile.mpr ?_)
  have hfile : (s₂.putHeld l b).directoryFile = s.directoryFile := hfile₂
  rw [hfile]
  -- the directory is stored
  have hc₂ : (V.erase x).files c = some ⟨chain, some t⟩ := erase_files_cases.mpr ⟨hne, hc⟩
  obtain ⟨hhead, hok, ht⟩ := hd.directory hc
  obtain ⟨-, hok₂, ht₂⟩ := hd₂.directory hc₂
  have hten : numDirEntries = 10 := rfl
  have hlong := hr.tree.long c chain t hc
  have hle := ha.le
  have hsize := ha.size_le
  have hentries := ht.length_le hok
  have hrlen : (d.remove name).length = s.directorySize := Directory.length_remove.trans hlen
  have hentry₂ : s₂.openFilesTable x = e := by
    rw [htable₂]
    exact Function.update_self ..
  have hother₂ : ∀ y, y ≠ x → s₂.openFilesTable y = s.openFilesTable y := by
    intro y hy
    rw [htable₂]
    exact Function.update_of_ne hy ..
  have hsector : ∀ q, ((d.remove name).slot q).sector < 2 ^ 32 := by
    intro q
    rw [Directory.slot_remove ((Directory.findIndex_congr hslot).trans hj)]
    split
    · rw [hslot j]
      exact ht.sector_lt j
    · rw [hslot q]
      exact ht.sector_lt q
  have hwl : (s₂.openFilesTable c).writeLock ≠ some l := by
    rw [hother₂ c hne]
    rcases hl with ⟨hsome, -⟩ | ⟨-, rfl, -⟩
    · exact hr.handles.locks.apart x c l hsome
    · exact hr.handles.locks.writeLock c
  refine Prog.ends_bind.mpr ((hh₂.writeBack (d := d.remove name) hd₂ ha.handle hc₂ (by omega)
    (by omega) (by omega) hsector b hwl).mono ?_)
  rintro _ _ ⟨s₃, k, chain', reserved, rfl, hw⟩
  have hclear : mapOn s₂.disk V.map x = false := by
    have hno : ¬ freeMap₂ x = true := fun h =>
      ((hcleared x (hr.file_lt hi)).mp h).2 (hd.file x i hi).uses_self
    rw [hmap₂ x (hr.file_lt hi)]
    exact Bool.eq_false_iff.mpr hno
  have hfree : 0 < (mapOn s₂.disk V.map).countClear := by
    have := Bitmap.countClear_mark (hr.file_lt hi) hclear
    omega
  have hk : t.length ≤ k := by
    refine hw.existing ?_
    rw [hrlen]
    exact ht₂.not_short hok₂ hfree hsize
  -- the entry of `openFilesTable`
  have hentry₃ : s₃.openFilesTable x = e := by
    rw [hw.entries]
    exact hentry₂
  obtain ⟨e₁, he₁⟩ : ∃ e₁, e₁ = { e with removed := true } := ⟨_, rfl⟩
  obtain ⟨e₂, he₂⟩ : ∃ e₂, e₂ = { e₁ with removing := false } := ⟨_, rfl⟩
  have hcreate₃ : s₃.held filesysCreateLock = s.held filesysCreateLock :=
    hw.createLock.trans hs₂.createLock
  refine Prog.ends_bind.mpr (ends_getEntry.mpr (Prog.ends_bind.mpr (ends_setEntry.mpr ?_)))
  have hput₁ : { (s₃.putHeld l b).openFilesTable x with removed := true } = e₁ := by
    rw [he₁, ← hentry₃]
    rfl
  rw [hput₁]
  have hself₁ : ((s₃.putHeld l b).putEntry x e₁).openFilesTable x = e₁ := Function.update_self ..
  refine Prog.ends_bind.mpr (ends_getEntry.mpr ?_)
  rw [hself₁]
  refine Prog.ends_bind.mpr ((hw.handles.unlockRemoved (e := e₁) hl ?_ hcreate₃ ?_).mono ?_)
  · rw [hentry₃, he]
  · rw [he₁, hentry₃]
  rintro _ _ rfl
  have hself₂ : (s₃.putEntry x e₁).openFilesTable x = e₁ := Function.update_self ..
  refine Prog.ends_bind.mpr (ends_getEntry.mpr ?_)
  rw [hself₂, ← he₂]
  refine Prog.ends_bind.mpr (ends_setEntry.mpr (Prog.ends_pure.mpr ⟨rfl, ?_⟩))
  have hput₂ : (s₃.putEntry x e₁).putEntry x e₂ = s₃.putEntry x e₂ := by
    unfold System.putEntry
    rw [Function.update_idem]
  rw [hput₂]
  obtain ⟨V', hV'⟩ : ∃ V', V' = (V.erase x).grown c
    ⟨chain', some ((d.remove name).merge t k)⟩ reserved := ⟨_, rfl⟩
  have hdisk₃ := hw.disk
  have hhandles₃ := hw.handles
  rw [← hV'] at hdisk₃ hhandles₃
  have hnone : V'.files x = none := by
    rw [hV']
    exact (put_files_of_ne hne.symm).trans (Function.update_self ..)
  obtain ⟨htree, hreached⟩ := hr.tree.unregister hc hinUse hx hne hempty
    (merge_remove hslot hj hk) hV'
  have hdirectory : V'.files c = some ⟨chain', some ((d.remove name).merge t k)⟩ := by
    rw [hV']
    exact put_files_self
  refine ⟨V', ⟨hdisk₃, htree, hhandles₃.putGone hnone ?_ ?_ ?_ ?_⟩, ?_, ?_, ?_, hreached,
    ⟨chain', _, ?_, hdirectory, ?_, ?_⟩, ?_, ?_, hcreate₃, fun hkeeps y hy => ?_, fun hfull => ?_⟩
  · rw [he₂, he₁, hentry₃]
  · rw [he₂, he₁, hentry₃]
  · rw [he₂, he₁, hentry₃]
  · rw [he₂, he₁, hentry₃]
  · rw [hV']
    rfl
  · rw [hV']
    rfl
  · rw [hV']
    rfl
  · show (s₃.directoryFile, c) ∈ V'.handles
    rw [hw.directoryFile, hfile₂, hV']
    exact ha.handle
  · show _ ≤ s₃.directorySize
    rw [hw.directorySize, hs₂.directorySize, Directory.length_merge]
    have hwle := hw.le
    rw [hrlen] at hwle
    exact max_le hle hwle
  · show s₃.directorySize ≤ _
    rw [hw.directorySize, hs₂.directorySize, Directory.length_merge]
    exact hsize.trans (Nat.succ_le_succ (Nat.le_max_left ..))
  · exact hw.freeMapFile.trans hs₂.freeMapFile
  · exact hw.directoryFile.trans hfile₂
  · have hroomy : Roomy s.disk chain (mapOn s₂.disk V.map) 0
        (s.directorySize * DirectoryEntry.size) := by
      have h := hkeeps (mapOn s₂.disk V.map) fun y hy => by
        rw [hmap₂ y hy, hcleared y hy, hd.mapAt_eq, hd.chainOn_eq hi]
      rw [hd.chainOn_eq hc] at h
      exact h
    have hsectors : sectorCount s₂.disk chain = sectorCount s.disk chain :=
      hr.sectorCount_frame hc fun y hy => hdisk₂ y (by
        rintro rfl
        obtain ⟨h, i', hi', hu⟩ := hy
        exact (hd.reserved h i' hi').2 hu)
    have hres : reserved = [] := by
      refine hw.roomy ?_
      rw [hrlen]
      unfold Roomy at hroomy ⊢
      rw [hsectors]
      exact hroomy
    rw [hV', hres] at hy
    exact hy.elim id fun h => nomatch h
  · -- the directory gets no longer
    have htable := hd.tableAt_eq hc
    have htable' : tableAt s₃.disk c = (d.remove name).merge t k := hdisk₃.tableAt_eq hdirectory
    have hchain := hd.chainOn_eq hc
    have hchain' : chainOn s₃.disk c = chain' := hdisk₃.chainOn_eq hdirectory
    rw [htable] at hfull
    have hkt : k ≤ t.length := hw.le.trans (hrlen.le.trans hfull)
    have hcap := hok.length_bounds.2
    rw [ht.length] at hcap
    have hres : reserved = [] := by
      refine hw.roomy (roomy_of_le ?_)
      have hes : DirectoryEntry.size = 32 := rfl
      rw [hrlen, hes]
      rw [hes] at hcap
      omega
    obtain ⟨hmap₃, hframe₃⟩ :
        (∀ y, y < numSectors → mapOn s₃.disk V.map y = mapOn s₂.disk V.map y) ∧
        ∀ y, y ≠ V.map → ¬ Uses s₂.disk chain y → s₃.disk y = s₂.disk y :=
      hw.map_still hd₂ hc₂ hkt hres
    have huses : ∀ y, Uses s₂.disk chain y ↔ Uses s.disk chain y := uses_congr fun y hy =>
      hdisk₂ y (by rintro rfl; exact (hd.reserved c _ hc).2 hy)
    refine ⟨fun y hy => ?_, fun y hy hnot => ?_, ?_, ?_, j, ?_, ?_, fun q => ?_⟩
    · show mapOn s₃.disk V.map y = true ↔ _
      rw [hmap₃ y hy, hmap₂ y hy, hd.chainOn_eq hi]
      exact hcleared y hy
    · rw [hchain, ← huses] at hnot
      exact (hframe₃ y hy hnot).trans (hdisk₂ y hy)
    · exact (hchain'.trans (hw.still hd₂ hc₂ hkt).1).trans hchain.symm
    · show (tableAt s₃.disk c).length = _
      rw [htable', htable, Directory.length_merge, Nat.max_eq_left hkt]
    · rw [htable]
      exact hinUse
    · rw [htable]
      exact hx
    · show (tableAt s₃.disk c).slot q = _
      rw [htable', htable]
      exact merge_remove hslot hj hk q

/-- **`Remove` of a file that is open** waits for a message. -/
theorem Ready.removeFile_waits (hr : Ready D V s)
    (hcount : (s.openFilesTable x).count ≠ 0) (d : Directory) (name : List UInt8) (l : ℕ)
    (b : Bool) :
    (s.putHeld l b).Yields (FileSystem.removeFile d name x) (fun _ _ => False) := by
  have hm := hr.handles.freeMap
  have hm' : FreeMapOk (s.putHeld l b) V.map :=
    ⟨hm.numBytes_eq, hm.numSectors_eq, hm.sector_eq, hm.lt⟩
  unfold FileSystem.removeFile
  refine Prog.yields_bind.mpr (yields_readSector.mpr fun _ => ?_)
  refine Prog.yields_bind.mpr ((fetchFreeMap_ends hm').yields.mono ?_)
  rintro freeMap _ ⟨rfl, -⟩
  refine Prog.yields_bind.mpr (yields_getEntry.mpr (Prog.yields_bind.mpr (yields_setEntry.mpr ?_)))
  refine Prog.yields_bind.mpr ?_
  unfold FileSystem.awaitClosed
  refine Prog.yields_bind.mpr (yields_getEntry.mpr ?_)
  have hpos : 0 < (((s.putHeld l b).putEntry x { (s.putHeld l b).openFilesTable x with
      removing := true }).openFilesTable x).count := by
    rw [show ((s.putHeld l b).putEntry x { (s.putHeld l b).openFilesTable x with
      removing := true }).openFilesTable x = _ from Function.update_self ..]
    exact Nat.pos_of_ne_zero hcount
  rw [if_pos hpos]
  intro a s' hrun
  cases hrun

end Remove

/-! ## `Remove` and `RemoveDir` between operations -/

/-- The file that `Remove` removes. -/
def removeTarget (disk : ℕ → Sector) (c : ℕ) (name : List UInt8) (callingFromRemoveDir : Bool) :
    Option ℕ :=
  if (tableAt disk c).findDir name && !callingFromRemoveDir then none
  else (tableAt disk c).find name

section IdleRemove
variable {D : Discipline} {V : Volume} {s s' : System} {c x : ℕ} {rest : List (ℕ × ℕ)}
  {name : List UInt8}

theorem Idle.of_same (hi : Idle D V s c rest) (hs : Same s s') (hr : Ready D V s') :
    Idle D V s' c rest where
  ready := hr
  handles := by
    rw [hs.directoryFile]
    exact hi.handles
  dir := by
    obtain ⟨chain, t, ha⟩ := hi.dir
    exact ⟨chain, t, ha.of_same hs⟩
  reached := hi.reached
  unlocked := hs.createLock.trans hi.unlocked

theorem Idle.removed {V' : Volume} (hi : Idle D V s c rest) (hrem : Removed D V s c x V' s') :
    Idle D V' s' c rest where
  ready := hrem.ready
  handles := by
    rw [hrem.handles, hrem.directoryFile]
    exact hi.handles
  dir := hrem.dir
  reached := hrem.reached hi.reached
  unlocked := hrem.createLock.trans hi.unlocked

/-- Without `RemoveDir`, what is removed is not a directory. -/
theorem Idle.target_entry (hi : Idle D V s c rest)
    (hx : removeTarget s.disk c name false = some x) :
    ∃ j, (tableAt s.disk c).findIndex name = some j ∧ (V.slot c j).sector = x ∧
      (V.slot c j).inUse = true ∧ (V.slot c j).isDirectory = false ∧ V.kind x = some false := by
  obtain ⟨chain, t, ha⟩ := hi.dir
  rw [removeTarget, hi.ready.disk.tableAt_eq ha.file] at hx
  rw [hi.ready.disk.tableAt_eq ha.file]
  by_cases hdir : t.findDir name = true
  · rw [if_pos (by rw [hdir]; rfl)] at hx
    cases hx
  · rw [if_neg (by simp [hdir]), Directory.find_eq, Option.map_eq_some_iff] at hx
    obtain ⟨j, hj, rfl⟩ := hx
    have hnamed := (Directory.findIndex_eq_some hj).2
    have hfalse : (t.slot j).isDirectory = false := by
      by_contra hc
      exact hdir (Directory.findDir_iff.mpr ⟨j, hnamed, Bool.not_eq_false _ ▸ hc⟩)
    have hslot := slot_of_files ha.file j
    have hu : (V.slot c j).inUse = true := by
      rw [hslot]
      exact (Bool.and_eq_true_iff.mp hnamed).1
    have hk := (hi.ready.tree.entry c j hu).1
    rw [hslot, hfalse] at hk
    exact ⟨j, hj, by rw [hslot], hu, by rw [hslot]; exact hfalse, hk⟩

theorem Idle.target_regular (hi : Idle D V s c rest)
    (hx : removeTarget s.disk c name false = some x)
    (q : ℕ) : (V.slot x q).inUse = false := by
  obtain ⟨j, -, -, -, -, hk⟩ := hi.target_entry hx
  rw [Volume.kind, Option.map_eq_some_iff] at hk
  obtain ⟨⟨chain', table⟩, hi', hnone⟩ := hk
  have htable : table = none := by simpa using hnone
  rw [htable] at hi'
  rw [slot_of_regular hi']
  rfl

/-- What `Remove` does before it removes the file. -/
theorem Idle.remove_run (hi : Idle D V s c rest) {callingFromRemoveDir : Bool}
    (hx : removeTarget s.disk c name callingFromRemoveDir = some x) :
    ∃ d s₁ l b, Same s s₁ ∧ Ready D V s₁ ∧ d.length = s.directorySize ∧
      (∀ q, d.slot q = (tableAt s.disk c).slot q) ∧ HoldsRemoveLock s₁ x l b ∧
      (FileSystem.remove name callingFromRemoveDir).run System.act s =
        (FileSystem.removeFile d name x).run System.act (s₁.putHeld l b) := by
  obtain ⟨chain, t, ha⟩ := hi.dir
  have htable := hi.ready.disk.tableAt_eq ha.file
  rw [htable]
  rw [removeTarget, htable] at hx
  obtain ⟨d, s₁, hrun, hlen, hslot, hs₁, hr₁⟩ := hi.ready.currentTable ha
  have hgo : ¬ (t.findDir name && !callingFromRemoveDir) = true := by
    intro hc
    rw [if_pos hc] at hx
    cases hx
  rw [if_neg hgo] at hx
  obtain ⟨i, hfile⟩ := hi.ready.tree.find ha.file hx
  have hremoved : (s₁.openFilesTable x).removed = false :=
    (hr₁.handles.quiet x (by rw [hfile]; rfl)).2
  have hprefix : (FileSystem.remove name callingFromRemoveDir).run System.act s =
      (do
        let e ← getEntry x
        FileSystem.acquireIfAny e.removeLock
        let e ← getEntry x
        if e.removed then
          releaseAt e.removeLock
          return false
        else FileSystem.removeFile d name x : Sys Bool).run System.act s₁ := by
    unfold FileSystem.remove
    rw [Prog.run_bind, hrun, Option.bind_some, Directory.find_congr hslot, hx]
    dsimp only
    rw [Directory.findDir_congr hslot, if_neg hgo]
  cases hlock : (s₁.openFilesTable x).removeLock with
  | some l =>
    have hne : l ≠ filesysCreateLock := by
      rintro rfl
      exact hr₁.handles.locks.removeLock x hlock
    refine ⟨d, s₁, l, true, hs₁, hr₁, hlen, hslot, Or.inl ⟨hlock, rfl⟩, hprefix.trans ?_⟩
    have hget : (getEntry x).run System.act s₁ = some (s₁.openFilesTable x, s₁) := rfl
    have hacq : (acquire l).run System.act s₁ = some ((), s₁.putHeld l true) := by
      show ((if s₁.held l then none else some ((), s₁.putHeld l true)).bind _) = _
      rw [hr₁.handles.locks.free l hne]
      rfl
    have hget' : (getEntry x).run System.act (s₁.putHeld l true) =
      some (s₁.openFilesTable x, s₁.putHeld l true) := rfl
    rw [Prog.run_bind, hget, Option.bind_some, Prog.run_bind, hlock]
    show ((acquire l).run System.act s₁).bind _ = _
    rw [hacq, Option.bind_some, Prog.run_bind, hget', Option.bind_some, hremoved]
    rfl
  | none =>
    refine ⟨d, s₁, filesysCreateLock, s₁.held filesysCreateLock, hs₁, hr₁, hlen, hslot,
      Or.inr ⟨hlock, rfl, rfl⟩, hprefix.trans ?_⟩
    have hget : (getEntry x).run System.act s₁ = some (s₁.openFilesTable x, s₁) := rfl
    rw [System.putHeld_eq_self rfl, Prog.run_bind, hget, Option.bind_some, Prog.run_bind, hlock]
    show (Option.some ((), s₁)).bind _ = _
    rw [Option.bind_some, Prog.run_bind, hget, Option.bind_some, hremoved]
    rfl

theorem Idle.count_eq (hi : Idle D V s c rest) (hr : Ready D V s') (x : ℕ) :
    (s'.openFilesTable x).count = (s.openFilesTable x).count :=
  (hr.handles.counts x).trans (hi.ready.handles.counts x).symm

/-- `Remove` of a name that is not there, or is that of a directory. -/
theorem Idle.remove_refused (hi : Idle D V s c rest) {callingFromRemoveDir : Bool}
    (hx : removeTarget s.disk c name callingFromRemoveDir = none) :
    s.Ends (FileSystem.remove name callingFromRemoveDir) (fun r s' =>
      r = false ∧ Same s s' ∧ Ready D V s') := by
  obtain ⟨chain, t, ha⟩ := hi.dir
  rw [removeTarget, hi.ready.disk.tableAt_eq ha.file] at hx
  unfold FileSystem.remove
  refine Prog.ends_bind.mpr ((hi.ready.currentTable ha).mono ?_)
  rintro d s₁ ⟨-, hslot, hs₁, hr₁⟩
  rw [Directory.find_congr hslot, Directory.findDir_congr hslot]
  cases hfind : t.find name with
  | none => exact Prog.ends_pure.mpr ⟨rfl, hs₁, hr₁⟩
  | some y =>
    dsimp only
    by_cases hdir : (t.findDir name && !callingFromRemoveDir) = true
    · rw [if_pos hdir]
      exact Prog.ends_pure.mpr ⟨rfl, hs₁, hr₁⟩
    · rw [if_neg hdir, hfind] at hx
      cases hx

/-- **`Remove` of a file that nobody has open.** -/
theorem Idle.remove (hi : Idle D V s c rest) {callingFromRemoveDir : Bool}
    (hx : removeTarget s.disk c name callingFromRemoveDir = some x)
    (hempty : ∀ q, (V.slot x q).inUse = false) (hcount : (s.openFilesTable x).count = 0) :
    s.Ends (FileSystem.remove name callingFromRemoveDir) (fun r s' =>
      r = true ∧ ∃ V', Removed D V s c x V' s') := by
  obtain ⟨d, s₁, l, b, hs₁, hr₁, hlen, hslot, hl, hrun⟩ := hi.remove_run hx
  obtain ⟨chain, t, ha⟩ := hi.dir
  have htable := hi.ready.disk.tableAt_eq ha.file
  rw [htable] at hslot
  have hfind : t.find name = some x := by
    rw [removeTarget, htable] at hx
    split at hx
    · cases hx
    · exact hx
  obtain ⟨i, hfile⟩ := hi.ready.tree.find ha.file hfind
  rw [Directory.find_eq, Option.map_eq_some_iff] at hfind
  obtain ⟨j, hj, hsector⟩ := hfind
  obtain ⟨r, s', hend, hr, V', hrem⟩ := hr₁.removeFile (ha.of_same hs₁)
    (hlen.trans hs₁.directorySize.symm) hslot hj hsector hfile ((hi.count_eq hr₁ x).trans hcount)
    hempty hl
  refine ⟨r, s', hrun.trans hend, hr, V', ⟨hrem.ready, hrem.map, hrem.handles, hrem.extra,
    hrem.reached, hrem.dir, hrem.freeMapFile.trans hs₁.freeMapFile,
    hrem.directoryFile.trans hs₁.directoryFile, hrem.createLock.trans hs₁.createLock, ?_, ?_⟩⟩
  · rw [← hs₁.disk, ← hs₁.directorySize]
    exact hrem.keeps
  · rw [← hs₁.disk, ← hs₁.directorySize]
    exact hrem.freed

/-- **`Remove` of a file that is open** does not come back. -/
theorem Idle.remove_waits (hi : Idle D V s c rest) {callingFromRemoveDir : Bool}
    (hx : removeTarget s.disk c name callingFromRemoveDir = some x)
    (hcount : (s.openFilesTable x).count ≠ 0) :
    s.Yields (FileSystem.remove name callingFromRemoveDir) (fun _ _ => False) := by
  obtain ⟨d, s₁, l, b, -, hr₁, -, -, -, hrun⟩ := hi.remove_run hx
  intro a s' ha
  refine hr₁.removeFile_waits ?_ d name l b a s' (hrun.symm.trans ha)
  rw [hi.count_eq hr₁ x]
  exact hcount

/-- What `RemoveDir` does before it removes the directory. -/
theorem Idle.removeDir_run (hi : Idle D V s c rest)
    (hdir : (tableAt s.disk c).findDir name = true) :
    ∃ x s₁, removeTarget s.disk c name true = some x ∧ V.kind x = some true ∧ Same s s₁ ∧
      Ready D V s₁ ∧ (FileSystem.removeDir name).run System.act s =
        (if (tableAt s.disk x).any DirectoryEntry.inUse then return -1
          else do
            let _ ← FileSystem.remove name true
            return 0 : Sys ℤ).run System.act s₁ := by
  obtain ⟨chain, t, ha⟩ := hi.dir
  have htable := hi.ready.disk.tableAt_eq ha.file
  rw [htable] at hdir
  obtain ⟨x, chain', t', hx, hfile⟩ := hi.ready.tree.findDir ha.file hdir
  have htable' := hi.ready.disk.tableAt_eq hfile
  obtain ⟨d, s₁, hrun₁, -, hslot, hs₁, hr₁⟩ := hi.ready.currentTable ha
  obtain ⟨f, s₂, hrun₂, hs₂, hr₂⟩ := hr₁.openExisting (ha.of_same hs₁) hx
  obtain ⟨n, s₃, hrun₃, rfl, hs₃, hr₃⟩ := hr₂.tableSize List.mem_cons_self hfile
  have hmax : t'.length ≤ maxDirEntries + 1 := by
    obtain ⟨-, hok, ht⟩ := hi.ready.disk.directory hfile
    exact (ht.length_le hok).trans (Nat.le_succ _)
  obtain ⟨⟨m, d'⟩, s₄, hrun₄, -, -, hslot', hs₄, hr₄⟩ :=
    hr₃.fetchFrom List.mem_cons_self hfile le_rfl hmax
  obtain ⟨_, s₅, hrun₅, hs₅, hr₅⟩ := hr₄.close (List.Perm.refl _) (by rw [hfile]; rfl)
  have hany : d'.any DirectoryEntry.inUse = t'.any DirectoryEntry.inUse := by
    rw [Bool.eq_iff_iff, Directory.any_inUse_iff, Directory.any_inUse_iff]
    exact exists_congr fun j => by rw [show d'.slot j = t'.slot j from hslot' j]
  refine ⟨x, s₅, ?_, kind_true_iff.mpr ⟨chain', t', hfile⟩, (((hs₁.trans hs₂).trans hs₃).trans
    hs₄).trans hs₅, hr₅, ?_⟩
  · rw [removeTarget, htable, Bool.not_true, Bool.and_false, if_neg Bool.false_ne_true]
    exact hx
  · unfold FileSystem.removeDir
    rw [Prog.run_bind, hrun₁, Option.bind_some, Directory.findDir_congr hslot, if_pos hdir,
      Prog.run_bind, hrun₂, Option.bind_some, Prog.run_bind, hrun₃, Option.bind_some, Prog.run_bind,
      hrun₄, Option.bind_some, htable']
    dsimp only
    rw [hany]
    by_cases hused : t'.any DirectoryEntry.inUse = true
    · rw [if_pos hused, if_pos hused, Prog.run_bind, hrun₅, Option.bind_some]
    · rw [if_neg hused, if_neg hused, Prog.run_bind, hrun₅, Option.bind_some]

/-- `RemoveDir` of a name that is not that of a directory. -/
theorem Idle.removeDir_refused (hi : Idle D V s c rest)
    (hdir : ¬ (tableAt s.disk c).findDir name = true) :
    s.Ends (FileSystem.removeDir name) (fun r s' => r = -2 ∧ Same s s' ∧ Ready D V s') := by
  obtain ⟨chain, t, ha⟩ := hi.dir
  rw [hi.ready.disk.tableAt_eq ha.file] at hdir
  unfold FileSystem.removeDir
  refine Prog.ends_bind.mpr ((hi.ready.currentTable ha).mono ?_)
  rintro d s₁ ⟨-, hslot, hs₁, hr₁⟩
  rw [Directory.findDir_congr hslot, if_neg hdir]
  exact Prog.ends_pure.mpr ⟨rfl, hs₁, hr₁⟩

/-- `RemoveDir` of a directory with entries in use. -/
theorem Idle.removeDir_nonempty (hi : Idle D V s c rest)
    (hdir : (tableAt s.disk c).findDir name = true)
    (hx : removeTarget s.disk c name true = some x)
    (hused : (tableAt s.disk x).any DirectoryEntry.inUse = true) :
    s.Ends (FileSystem.removeDir name) (fun r s' => r = -1 ∧ Same s s' ∧ Ready D V s') := by
  obtain ⟨y, s₁, hy, -, hs₁, hr₁, hrun⟩ := hi.removeDir_run hdir
  obtain rfl := Option.some.inj (hx.symm.trans hy)
  rw [if_pos hused] at hrun
  exact ⟨-1, s₁, hrun, rfl, hs₁, hr₁⟩

/-- **`RemoveDir` of an empty directory that nobody has open.** -/
theorem Idle.removeDir (hi : Idle D V s c rest) (hdir : (tableAt s.disk c).findDir name = true)
    (hx : removeTarget s.disk c name true = some x)
    (hused : ¬ (tableAt s.disk x).any DirectoryEntry.inUse = true)
    (hcount : (s.openFilesTable x).count = 0) :
    s.Ends (FileSystem.removeDir name) (fun r s' => r = 0 ∧ ∃ V', Removed D V s c x V' s') := by
  obtain ⟨y, s₁, hy, hkind, hs₁, hr₁, hrun⟩ := hi.removeDir_run hdir
  obtain rfl := Option.some.inj (hx.symm.trans hy)
  rw [if_neg hused] at hrun
  have hempty : ∀ q, (V.slot x q).inUse = false := by
    intro q
    rw [← hi.ready.disk.slot_eq hkind q]
    exact Bool.eq_false_iff.mpr fun h => hused (Directory.any_inUse_iff.mpr ⟨q, h⟩)
  have hx₁ : removeTarget s₁.disk c name true = some x := by
    rw [hs₁.disk]
    exact hx
  obtain ⟨b, s₂, hrun₂, -, V', hrem⟩ := (hi.of_same hs₁ hr₁).remove hx₁ hempty
    ((hi.count_eq hr₁ x).trans hcount)
  refine ⟨0, s₂, ?_, rfl, V', ⟨hrem.ready, hrem.map, hrem.handles, hrem.extra,
    hrem.reached, hrem.dir, hrem.freeMapFile.trans hs₁.freeMapFile,
    hrem.directoryFile.trans hs₁.directoryFile, hrem.createLock.trans hs₁.createLock, ?_, ?_⟩⟩
  · rw [hrun, Prog.run_bind, hrun₂]
    rfl
  · rw [← hs₁.disk, ← hs₁.directorySize]
    exact hrem.keeps
  · rw [← hs₁.disk, ← hs₁.directorySize]
    exact hrem.freed

/-- **`RemoveDir` of an empty directory that is open** does not come back. -/
theorem Idle.removeDir_waits (hi : Idle D V s c rest)
    (hdir : (tableAt s.disk c).findDir name = true)
    (hx : removeTarget s.disk c name true = some x)
    (hused : ¬ (tableAt s.disk x).any DirectoryEntry.inUse = true)
    (hcount : (s.openFilesTable x).count ≠ 0) :
    s.Yields (FileSystem.removeDir name) (fun _ _ => False) := by
  obtain ⟨y, s₁, hy, -, hs₁, hr₁, hrun⟩ := hi.removeDir_run hdir
  obtain rfl := Option.some.inj (hx.symm.trans hy)
  rw [if_neg hused] at hrun
  have hx₁ : removeTarget s₁.disk c name true = some x := by
    rw [hs₁.disk]
    exact hx
  intro a s' ha
  rw [hrun, Prog.run_bind, Option.bind_eq_some_iff] at ha
  obtain ⟨⟨b, s₂⟩, hrun₂, -⟩ := ha
  refine (hi.of_same hs₁ hr₁).remove_waits hx₁ ?_ b s₂ hrun₂
  rw [hi.count_eq hr₁ x]
  exact hcount

end IdleRemove
end PaldOs
