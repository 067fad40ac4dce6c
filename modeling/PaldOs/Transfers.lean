import Mathlib.Data.List.Nodup
import PaldOs.OpenFile

/-! # Reading and writing through a header

The rules for the accesses, and what `ReadAt` and `WriteAt` do: through a header whose
data sectors are different sectors of the disk they read and write a byte array, and
the rest of the disk stays as it is.  The free map is a file with one data sector, and
its two operations follow.
-/
namespace PaldOs

open Sys

/-- From state `s` the program gets to its end, with `Q` there. -/
abbrev System.Ends {α : Type} (s : System) (p : Sys α) (Q : α → System → Prop) : Prop :=
  Prog.Ends System.act p s Q

/-! ## Rules -/

section Rules
variable {α : Type} {s : System}

@[simp] theorem ends_readSector {n : ℕ} {Q : Sector → System → Prop} :
    s.Ends (readSector n) Q ↔ n < numSectors ∧ Q (s.disk n) s := by
  refine Prog.ends_call.trans ⟨?_, ?_⟩
  · rintro ⟨r, hr, hq⟩
    simp only [System.act] at hr
    split at hr
    · rename_i hn
      rw [← Option.some.inj hr] at hq
      exact ⟨hn, hq⟩
    · cases hr
  · rintro ⟨hn, hq⟩
    exact ⟨(s.disk n, s), if_pos hn, hq⟩

@[simp] theorem ends_writeSector {n : ℕ} {data : Sector} {Q : Unit → System → Prop} :
    s.Ends (writeSector n data) Q ↔ n < numSectors ∧ Q () (s.putSector n data) := by
  refine Prog.ends_call.trans ⟨?_, ?_⟩
  · rintro ⟨r, hr, hq⟩
    simp only [System.act] at hr
    split at hr
    · rename_i hn
      rw [← Option.some.inj hr] at hq
      exact ⟨hn, hq⟩
    · cases hr
  · rintro ⟨hn, hq⟩
    exact ⟨((), s.putSector n data), if_pos hn, hq⟩

/-- An access that is always possible. -/
theorem ends_always {o : Access} {r : o.Result × System} (h : System.act o s = some r)
    {Q : o.Result → System → Prop} : s.Ends o.call Q ↔ Q r.1 r.2 := by
  refine Prog.ends_call.trans ⟨?_, fun hq => ⟨r, h, hq⟩⟩
  rintro ⟨r', hr', hq⟩
  rw [h] at hr'
  rw [Option.some.inj hr']
  exact hq

@[simp] theorem ends_getEntry {n : ℕ} {Q : OpenFileEntry → System → Prop} :
    s.Ends (getEntry n) Q ↔ Q (s.openFilesTable n) s :=
  ends_always (o := .getEntry n) rfl

@[simp] theorem ends_setEntry {n : ℕ} {e : OpenFileEntry} {Q : Unit → System → Prop} :
    s.Ends (setEntry n e) Q ↔ Q () (s.putEntry n e) :=
  ends_always (o := .setEntry n e) rfl

@[simp] theorem ends_getOpenFile {f : ℕ} {Q : OpenFile → System → Prop} :
    s.Ends (getOpenFile f) Q ↔ Q (s.openFile f) s :=
  ends_always (o := .getOpenFile f) rfl

@[simp] theorem ends_setOpenFile {f : ℕ} {o : OpenFile} {Q : Unit → System → Prop} :
    s.Ends (setOpenFile f o) Q ↔ Q () (s.putOpenFile f o) :=
  ends_always (o := .setOpenFile f o) rfl

@[simp] theorem ends_getFreeMapFile {Q : ℕ → System → Prop} :
    s.Ends getFreeMapFile Q ↔ Q s.freeMapFile s :=
  ends_always (o := .getFreeMapFile) rfl

@[simp] theorem ends_setFreeMapFile {f : ℕ} {Q : Unit → System → Prop} :
    s.Ends (setFreeMapFile f) Q ↔ Q () { s with freeMapFile := f } :=
  ends_always (o := .setFreeMapFile f) rfl

@[simp] theorem ends_getDirectoryFile {Q : ℕ → System → Prop} :
    s.Ends getDirectoryFile Q ↔ Q s.directoryFile s :=
  ends_always (o := .getDirectoryFile) rfl

@[simp] theorem ends_setDirectoryFile {f : ℕ} {Q : Unit → System → Prop} :
    s.Ends (setDirectoryFile f) Q ↔ Q () { s with directoryFile := f } :=
  ends_always (o := .setDirectoryFile f) rfl

@[simp] theorem ends_getDirectorySize {Q : ℕ → System → Prop} :
    s.Ends getDirectorySize Q ↔ Q s.directorySize s :=
  ends_always (o := .getDirectorySize) rfl

@[simp] theorem ends_setDirectorySize {n : ℕ} {Q : Unit → System → Prop} :
    s.Ends (setDirectorySize n) Q ↔ Q () { s with directorySize := n } :=
  ends_always (o := .setDirectorySize n) rfl

@[simp] theorem ends_newLock {Q : ℕ → System → Prop} : s.Ends newLock Q ↔
    Q s.nextLock { s.putHeld s.nextLock false with nextLock := s.nextLock + 1 } :=
  ends_always (o := .newLock) rfl

@[simp] theorem ends_getHeap {Q : (ℕ → UInt8) → System → Prop} :
    s.Ends getHeap Q ↔ Q s.heap s :=
  ends_always (o := .getHeap) rfl

@[simp] theorem ends_newOpenFile {o : OpenFile} {Q : ℕ → System → Prop} :
    s.Ends (newOpenFile o) Q ↔ Q s.nextOpenFile { s.putOpenFile s.nextOpenFile o with
      nextOpenFile := s.nextOpenFile + 1 } :=
  ends_always (o := .newOpenFile o) rfl

@[simp] theorem ends_fail {Q : Unit → System → Prop} : ¬ s.Ends fail Q := by
  intro h
  obtain ⟨r, hr, -⟩ := Prog.ends_call.mp h
  cases hr

@[simp] theorem ends_assert {c : Prop} [Decidable c] {Q : Unit → System → Prop} :
    s.Ends (assert c) Q ↔ c ∧ Q () s := by
  unfold assert
  split
  · rename_i hc
    exact Prog.ends_pure.trans ⟨fun hq => ⟨hc, hq⟩, And.right⟩
  · rename_i hc
    exact ⟨fun h => absurd h ends_fail, fun h => absurd h.1 hc⟩

@[simp] theorem ends_acquire {l : ℕ} {Q : Unit → System → Prop} :
    s.Ends (acquire l) Q ↔ s.held l = false ∧ Q () (s.putHeld l true) := by
  refine Prog.ends_call.trans ⟨?_, ?_⟩
  · rintro ⟨r, hr, hq⟩
    simp only [System.act] at hr
    split at hr
    · cases hr
    · rename_i hl
      rw [← Option.some.inj hr] at hq
      exact ⟨by simpa using hl, hq⟩
  · rintro ⟨hl, hq⟩
    exact ⟨((), s.putHeld l true), if_neg (by simp [hl]), hq⟩

@[simp] theorem ends_release {l : ℕ} {Q : Unit → System → Prop} :
    s.Ends (release l) Q ↔ s.held l = true ∧ Q () (s.putHeld l false) := by
  refine Prog.ends_call.trans ⟨?_, ?_⟩
  · rintro ⟨r, hr, hq⟩
    simp only [System.act] at hr
    split at hr
    · rename_i hl
      rw [← Option.some.inj hr] at hq
      exact ⟨hl, hq⟩
    · cases hr
  · rintro ⟨hl, hq⟩
    exact ⟨((), s.putHeld l false), if_pos hl, hq⟩

/-- If the program gets to its end from state `s`, `Q` holds there. -/
abbrev System.Yields {α : Type} (s : System) (p : Sys α) (Q : α → System → Prop) : Prop :=
  Prog.Yields System.act p s Q

/-- No access changes what there is in memory for new tables. -/
theorem yields_heap {α : Type} (p : Sys α) (s : System) :
    s.Yields p (fun _ s' => s'.heap = s.heap) := by
  refine Prog.yields_of_kept (fun o s₁ r hr hs => ?_) p rfl
  rw [← hs]
  cases o with
  | readSector n | writeSector n data | release l =>
    obtain ⟨-, hr⟩ := Option.ite_none_right_eq_some.mp hr
    obtain rfl := Option.some.inj hr
    rfl
  | acquire l =>
    obtain ⟨-, hr⟩ := Option.ite_none_left_eq_some.mp hr
    obtain rfl := Option.some.inj hr
    rfl
  | awaitMessage | fail => cases hr
  | _ =>
    obtain rfl := Option.some.inj hr
    rfl

theorem yields_readSector {n : ℕ} {Q : Sector → System → Prop} :
    s.Yields (readSector n) Q ↔ (n < numSectors → Q (s.disk n) s) :=
  Prog.yields_of_ends fun _ => ends_readSector

theorem yields_getOpenFile {f : ℕ} {Q : OpenFile → System → Prop} :
    s.Yields (getOpenFile f) Q ↔ Q (s.openFile f) s :=
  (Prog.yields_of_ends fun _ => by rw [true_and]; exact ends_getOpenFile).trans true_imp_iff

theorem yields_setOpenFile {f : ℕ} {o : OpenFile} {Q : Unit → System → Prop} :
    s.Yields (setOpenFile f o) Q ↔ Q () (s.putOpenFile f o) :=
  (Prog.yields_of_ends fun _ => by rw [true_and]; exact ends_setOpenFile).trans true_imp_iff

theorem yields_getEntry {n : ℕ} {Q : OpenFileEntry → System → Prop} :
    s.Yields (getEntry n) Q ↔ Q (s.openFilesTable n) s :=
  (Prog.yields_of_ends fun _ => by rw [true_and]; exact ends_getEntry).trans true_imp_iff

theorem yields_setEntry {n : ℕ} {e : OpenFileEntry} {Q : Unit → System → Prop} :
    s.Yields (setEntry n e) Q ↔ Q () (s.putEntry n e) :=
  (Prog.yields_of_ends fun _ => by rw [true_and]; exact ends_setEntry).trans true_imp_iff

theorem yields_assert {c : Prop} [Decidable c] {Q : Unit → System → Prop} :
    s.Yields (assert c) Q ↔ (c → Q () s) :=
  Prog.yields_of_ends fun _ => ends_assert

theorem yields_fail {Q : Unit → System → Prop} : s.Yields fail Q :=
  fun a s' hrun => (ends_fail (Q := fun _ _ => True) ⟨a, s', hrun, trivial⟩).elim

end Rules

namespace System
variable (s : System)

@[simp] theorem putSector_openFile (n : ℕ) (data : Sector) :
    (s.putSector n data).openFile = s.openFile := rfl
@[simp] theorem putSector_freeMapFile (n : ℕ) (data : Sector) :
    (s.putSector n data).freeMapFile = s.freeMapFile := rfl
@[simp] theorem putSector_self (n : ℕ) (data : Sector) : (s.putSector n data).disk n = data :=
  Function.update_self ..
theorem putSector_of_ne {n x : ℕ} (data : Sector) (h : x ≠ n) :
    (s.putSector n data).disk x = s.disk x := Function.update_of_ne h ..
@[simp] theorem putOpenFile_self (f : ℕ) (o : OpenFile) : (s.putOpenFile f o).openFile f = o :=
  Function.update_self ..
@[simp] theorem putOpenFile_disk (f : ℕ) (o : OpenFile) : (s.putOpenFile f o).disk = s.disk := rfl
@[simp] theorem putOpenFile_freeMapFile (f : ℕ) (o : OpenFile) :
    (s.putOpenFile f o).freeMapFile = s.freeMapFile := rfl
@[simp] theorem putOpenFile_putOpenFile (f : ℕ) (o o' : OpenFile) :
    (s.putOpenFile f o).putOpenFile f o' = s.putOpenFile f o' := by
  simp [putOpenFile]

end System

/-! ## Headers in good order -/

/-- Byte `p` of the data of a header. -/
def RawFileHeader.byte (h : RawFileHeader) (disk : ℕ → Sector) (p : ℕ) : UInt8 :=
  disk (h.dataSectors (p / sectorSize)) (p % sectorSize)

/-- A header in good order: its sectors are as many as its bytes need, and on the disk. -/
structure HeaderOk (h : RawFileHeader) : Prop where
  numBytes_le : h.numBytes ≤ headerBytes
  numSectors_eq : h.numSectors = divRoundUp h.numBytes sectorSize
  lt : ∀ j, j < h.numSectors → h.dataSectors j < numSectors

/-- The data sectors of the header are different. -/
def RawFileHeader.Distinct (h : RawFileHeader) : Prop :=
  ∀ i j, i < h.numSectors → j < h.numSectors → h.dataSectors i = h.dataSectors j → i = j

/-- The data sectors of a header. -/
def RawFileHeader.sectors (h : RawFileHeader) : List ℕ :=
  (List.range h.numSectors).map h.dataSectors

theorem RawFileHeader.mem_sectors {h : RawFileHeader} {x : ℕ} :
    x ∈ h.sectors ↔ ∃ j, j < h.numSectors ∧ h.dataSectors j = x := by
  rw [RawFileHeader.sectors, List.mem_map]
  simp only [List.mem_range]

theorem RawFileHeader.nodup_sectors {h : RawFileHeader} : h.sectors.Nodup ↔ h.Distinct := by
  rw [RawFileHeader.sectors, List.nodup_map_iff_inj_on List.nodup_range]
  simp only [List.mem_range]
  exact ⟨fun hs i j hi hj => hs i hi j hj, fun hs i hi j hj => hs i j hi hj⟩

/-- Every byte of the data of a header is in a sector of the disk, and a sector past the last one
is still counted by an `unsigned`. -/
structure RawFileHeader.Covered (h : RawFileHeader) : Prop where
  short : h.numBytes + sectorSize < 2 ^ 32
  lt : ∀ j, j * sectorSize < h.numBytes → h.dataSectors j < PaldOs.numSectors

/-- The sectors with bytes of the header are different. -/
def RawFileHeader.Apart (h : RawFileHeader) : Prop :=
  ∀ i j, i * sectorSize < h.numBytes → j * sectorSize < h.numBytes →
    h.dataSectors i = h.dataSectors j → i = j

section HeaderOk
variable {h : RawFileHeader} {p : ℕ}

theorem HeaderOk.index_iff (hok : HeaderOk h) {j : ℕ} :
    j < h.numSectors ↔ j * sectorSize < h.numBytes := by
  rw [hok.numSectors_eq, lt_divRoundUp_iff (by decide)]

theorem HeaderOk.covered (hok : HeaderOk h) : h.Covered := by
  have hle := hok.numBytes_le
  have hbytes : headerBytes = 3712 := rfl
  have hss : sectorSize = 128 := rfl
  exact ⟨by omega, fun j hj => hok.lt j (hok.index_iff.mpr hj)⟩

theorem HeaderOk.apart (hok : HeaderOk h) (hd : h.Distinct) : h.Apart :=
  fun i j hi hj => hd i j (hok.index_iff.mpr hi) (hok.index_iff.mpr hj)

theorem HeaderOk.sector_lt (hok : HeaderOk h) (hp : p < h.numBytes) :
    p / sectorSize < h.numSectors := by
  rw [hok.numSectors_eq, lt_divRoundUp_iff (by decide)]
  exact lt_of_le_of_lt (Nat.div_mul_le_self _ _) hp

theorem HeaderOk.numBytes_le_mul (hok : HeaderOk h) : h.numBytes ≤ h.numSectors * sectorSize := by
  rw [hok.numSectors_eq]
  exact le_divRoundUp_mul (by decide) _

theorem HeaderOk.numSectors_le (hok : HeaderOk h) : h.numSectors ≤ numDirect := by
  rw [hok.numSectors_eq, divRoundUp_le_iff (by decide)]
  exact hok.numBytes_le

end HeaderOk

/-! ## `ReadAt` -/

section ReadAt
variable {s : System} {f : ℕ}

/-- The sectors of the file, one after the other in the buffer. -/
theorem readSectors_ends {buf : ℕ → UInt8} {offset i n : ℕ}
    (hlt : ∀ j, j < n → (s.openFile f).hdr.dataSectors (i + j) < numSectors) :
    s.Ends (OpenFile.readSectors f buf offset i n) (fun buf' s' => s' = s ∧ ∀ a, buf' a =
      if offset ≤ a ∧ a < offset + n * sectorSize then
        s.disk ((s.openFile f).hdr.dataSectors (i + (a - offset) / sectorSize))
          ((a - offset) % sectorSize)
      else buf a) := by
  induction n generalizing buf offset i with
  | zero =>
    simp only [OpenFile.readSectors, Prog.ends_pure, true_and]
    intro a
    rw [if_neg (by omega)]
  | succ n ih =>
    have hss : sectorSize = 128 := rfl
    have hsec : (s.openFile f).hdr.byteToSector (i * sectorSize) =
        (s.openFile f).hdr.dataSectors i := by
      rw [RawFileHeader.byteToSector, Nat.mul_div_cancel _ (by decide)]
    simp only [OpenFile.readSectors, Prog.ends_bind, ends_getOpenFile, ends_readSector, hsec]
    refine ⟨hlt 0 (by omega), (ih fun j hj => ?_).mono ?_⟩
    · rw [Nat.add_assoc, Nat.add_comm 1 j]
      exact hlt (j + 1) (by omega)
    · rintro buf' s' ⟨rfl, hbuf⟩
      refine ⟨rfl, fun a => ?_⟩
      rw [hbuf a]
      -- the sector just read comes first, the others are those of the recursive call
      by_cases hfirst : offset ≤ a ∧ a < offset + sectorSize
      · rw [if_neg (by omega), if_pos (by rw [hss] at hfirst ⊢; omega), blit, if_pos hfirst]
        have h0 : (a - offset) / sectorSize = 0 := Nat.div_eq_of_lt (by omega)
        have h1 : (a - offset) % sectorSize = a - offset := Nat.mod_eq_of_lt (by omega)
        rw [h0, h1, Nat.add_zero]
      · by_cases hrest : offset + sectorSize ≤ a ∧ a < offset + sectorSize + n * sectorSize
        · rw [if_pos hrest, if_pos (by rw [hss] at hrest ⊢; omega)]
          have hd : (a - offset) / sectorSize = (a - (offset + sectorSize)) / sectorSize + 1 := by
            rw [hss] at hrest ⊢
            omega
          have hm : (a - offset) % sectorSize = (a - (offset + sectorSize)) % sectorSize := by
            rw [hss] at hrest ⊢
            omega
          rw [hd, hm, Nat.add_assoc i 1, Nat.add_comm 1]
        · rw [if_neg hrest, if_neg (by rw [hss] at hfirst hrest ⊢; omega), blit, if_neg hfirst]

/-- **`ReadAt` returns a slice of the file.** -/
theorem readAt_slice (hc : (s.openFile f).hdr.Covered) {n position : ℕ} (hn : 0 < n)
    (hsum : position + n < 2 ^ 32) :
    s.Ends (OpenFile.readAt f n position) (fun r s' => s' = s ∧
      r.1 = min n ((s.openFile f).hdr.numBytes - position) ∧
      ∀ i, i < r.1 → r.2 i = (s.openFile f).hdr.byte s.disk (position + i)) := by
  have hss : sectorSize = 128 := rfl
  unfold OpenFile.readAt
  simp only [Prog.ends_bind, ends_assert, ends_getOpenFile]
  refine ⟨hn, ?_⟩
  by_cases hend : (s.openFile f).hdr.numBytes ≤ position
  · rw [if_pos hend]
    simp only [Prog.ends_pure, true_and]
    exact ⟨by omega, fun i hi => absurd hi (Nat.not_lt_zero i)⟩
  · rw [if_neg hend]
    have hshort := hc.short
    -- `k` bytes are read
    generalize hk : (if (s.openFile f).hdr.numBytes < (position + n) % 2 ^ 32 then
      (s.openFile f).hdr.numBytes - position else n) = k
    have hk' : k = min n ((s.openFile f).hdr.numBytes - position) := by
      rw [← hk, Nat.mod_eq_of_lt hsum]
      split <;> omega
    have hlast : (position + k + 2 ^ 32 - 1) % 2 ^ 32 = position + k - 1 := by omega
    simp only [Prog.ends_bind, hlast]
    refine (readSectors_ends fun j hj => ?_).mono ?_
    · refine hc.lt _ ?_
      rw [hss] at hj ⊢
      omega
    · rintro buf s' ⟨rfl, hbuf⟩
      simp only [ends_assert, Prog.ends_pure, true_and]
      refine ⟨?_, hk', fun i hi => ?_⟩
      · rw [hss] at hshort ⊢
        omega
      · rw [hbuf, if_pos (by rw [hss]; omega), RawFileHeader.byte]
        have hd : position / sectorSize + (position - position / sectorSize * sectorSize + i - 0) /
            sectorSize = (position + i) / sectorSize := by
          rw [hss]
          omega
        have hm : (position - position / sectorSize * sectorSize + i - 0) % sectorSize =
            (position + i) % sectorSize := by
          rw [hss]
          omega
        rw [hd, hm]

/-- `ReadAt` through a header in good order. -/
theorem readAt_ends (hok : HeaderOk (s.openFile f).hdr) {n position : ℕ} (hn : 0 < n)
    (hsum : position + n < 2 ^ 32) :
    s.Ends (OpenFile.readAt f n position) (fun r s' => s' = s ∧
      r.1 = min n ((s.openFile f).hdr.numBytes - position) ∧
      ∀ i, i < r.1 → r.2 i = (s.openFile f).hdr.byte s.disk (position + i)) :=
  readAt_slice hok.covered hn hsum

end ReadAt

/-! ## `WriteAt` -/

/-- The state with another disk. -/
def System.withDisk (s : System) (disk : ℕ → Sector) : System := { s with disk := disk }

@[simp] theorem System.withDisk_disk (s : System) (disk : ℕ → Sector) :
    (s.withDisk disk).disk = disk := rfl
@[simp] theorem System.withDisk_openFile (s : System) (disk : ℕ → Sector) :
    (s.withDisk disk).openFile = s.openFile := rfl
@[simp] theorem System.withDisk_freeMapFile (s : System) (disk : ℕ → Sector) :
    (s.withDisk disk).freeMapFile = s.freeMapFile := rfl

section WriteAt
variable {s : System} {f : ℕ}

/-- The buffer goes to the sectors of the file, and nothing else changes. -/
theorem writeSectors_ends {buf : ℕ → UInt8} {offset i n : ℕ}
    (hlt : ∀ j, j < n → (s.openFile f).hdr.dataSectors (i + j) < numSectors)
    (hne : ∀ j l, j < n → l < n → (s.openFile f).hdr.dataSectors (i + j) =
      (s.openFile f).hdr.dataSectors (i + l) → j = l) :
    s.Ends (OpenFile.writeSectors f buf offset i n) (fun _ s' => ∃ disk, s' = s.withDisk disk ∧
      (∀ j, j < n → ∀ o, disk ((s.openFile f).hdr.dataSectors (i + j)) o =
        buf (offset + j * sectorSize + o)) ∧
      ∀ x, (∀ j, j < n → x ≠ (s.openFile f).hdr.dataSectors (i + j)) → disk x = s.disk x) := by
  induction n generalizing s offset i with
  | zero =>
    simp only [OpenFile.writeSectors, Prog.ends_pure]
    exact ⟨s.disk, rfl, fun j hj => absurd hj (Nat.not_lt_zero j), fun x _ => rfl⟩
  | succ n ih =>
    have hsec : (s.openFile f).hdr.byteToSector (i * sectorSize) =
        (s.openFile f).hdr.dataSectors i := by
      rw [RawFileHeader.byteToSector, Nat.mul_div_cancel _ (by decide)]
    have hshift : ∀ j, i + 1 + j = i + (j + 1) := by
      intro j
      omega
    simp only [OpenFile.writeSectors, Prog.ends_bind, ends_getOpenFile, ends_writeSector, hsec]
    refine ⟨hlt 0 (by omega), (ih ?_ ?_).mono ?_⟩
    · intro j hj
      rw [hshift]
      exact hlt (j + 1) (by omega)
    · intro j l hj hl heq
      rw [hshift, hshift] at heq
      have := hne (j + 1) (l + 1) (by omega) (by omega) heq
      omega
    · rintro _ s' ⟨disk, rfl, hin, hout⟩
      simp only [System.putSector_openFile] at hin hout
      refine ⟨disk, rfl, fun j hj o => ?_, fun x hx => ?_⟩
      · cases j with
        | zero =>
          -- later sectors of the file are other sectors
          have hlater : ∀ j, j < n →
              (s.openFile f).hdr.dataSectors i ≠ (s.openFile f).hdr.dataSectors (i + 1 + j) := by
            intro j hj heq
            rw [hshift] at heq
            have := hne 0 (j + 1) (by omega) (by omega) heq
            omega
          rw [Nat.add_zero, hout _ hlater, System.putSector_self, Nat.zero_mul, Nat.add_zero]
        | succ j =>
          rw [← hshift, hin j (by omega)]
          congr 1
          rw [Nat.succ_mul]
          omega
      · have hfirst : x ≠ (s.openFile f).hdr.dataSectors i := hx 0 (by omega)
        rw [hout x fun j hj => by rw [hshift]; exact hx (j + 1) (by omega)]
        exact s.putSector_of_ne _ hfirst

/-- A sector of the file in the buffer, if it is needed. -/
theorem readPartial_ends (hc : (s.openFile f).hdr.Covered) (needed : Bool) (buf : ℕ → UInt8)
    (offset : ℕ) {q : ℕ} (hq : q * sectorSize < (s.openFile f).hdr.numBytes) :
    s.Ends (OpenFile.readPartial f needed buf offset q) (fun buf' s' => s' = s ∧ ∀ a, buf' a =
      if needed = true ∧ offset ≤ a ∧ a < offset + sectorSize ∧
          q * sectorSize + (a - offset) < (s.openFile f).hdr.numBytes then
        (s.openFile f).hdr.byte s.disk (q * sectorSize + (a - offset))
      else buf a) := by
  have hshort := hc.short
  unfold OpenFile.readPartial
  cases needed with
  | false =>
    simp only [Bool.false_eq_true, if_false, false_and, Prog.ends_pure, true_and]
    exact fun _ => trivial
  | true =>
    simp only [if_true, true_and, Prog.ends_bind]
    refine (readAt_slice hc (by decide) (by omega)).mono ?_
    rintro ⟨n, data⟩ s' ⟨rfl, hn, hdata⟩
    simp only [Prog.ends_pure, true_and]
    simp only at hn hdata
    intro a
    rw [blit]
    by_cases hin : offset ≤ a ∧ a < offset + n
    · rw [if_pos hin, if_pos (by omega), hdata _ (by omega)]
    · rw [if_neg hin, if_neg (by omega)]

/-- **`WriteAt` replaces a slice of the file.**  It stops at the end of the file, and it writes to
the sectors of the slice only. -/
theorem writeAt_slice (hc : (s.openFile f).hdr.Covered) (hd : (s.openFile f).hdr.Apart)
    {src : ℕ → UInt8} {n position : ℕ} (hn : 0 < n) (hsum : position + n < 2 ^ 32) :
    s.Ends (OpenFile.writeAt f src n position) (fun r s' =>
      r = min n ((s.openFile f).hdr.numBytes - position) ∧ ∃ disk, s' = s.withDisk disk ∧
      (∀ p, p < (s.openFile f).hdr.numBytes → (s.openFile f).hdr.byte disk p =
        if position ≤ p ∧ p < position + r then src (p - position)
        else (s.openFile f).hdr.byte s.disk p) ∧
      ∀ x, (∀ p, position ≤ p → p < position + r →
        x ≠ (s.openFile f).hdr.dataSectors (p / sectorSize)) → disk x = s.disk x) := by
  have hss : sectorSize = 128 := rfl
  have hshort := hc.short
  unfold OpenFile.writeAt
  simp only [Prog.ends_bind, ends_assert, ends_getOpenFile]
  refine ⟨hn, ?_⟩
  by_cases hend : (s.openFile f).hdr.numBytes ≤ position
  · rw [if_pos hend]
    simp only [Prog.ends_pure]
    refine ⟨by omega, s.disk, rfl, fun p hp => ?_, fun _ _ => rfl⟩
    rw [if_neg (by omega)]
  rw [if_neg hend]
  -- `k` bytes are written
  generalize hk : (if (s.openFile f).hdr.numBytes < (position + n) % 2 ^ 32 then
    (s.openFile f).hdr.numBytes - position else n) = k
  have hk' : k = min n ((s.openFile f).hdr.numBytes - position) := by
    rw [← hk, Nat.mod_eq_of_lt hsum]
    split <;> omega
  have hlast : (position + k + 2 ^ 32 - 1) % 2 ^ 32 = position + k - 1 := by omega
  have hend32 : (position + k) % 2 ^ 32 = position + k := by omega
  simp only [hend32, hlast, Prog.ends_bind]
  generalize hfirst : position / sectorSize = first
  generalize hlst : (position + k - 1) / sectorSize = last
  rw [hss] at hfirst hlst hshort
  -- the two sectors that are modified in part are read
  refine (readPartial_ends hc _ _ _ (by rw [hss]; omega)).mono ?_
  rintro buf s' ⟨rfl, hbuf⟩
  refine (readPartial_ends hc _ _ _ (by rw [hss]; omega)).mono ?_
  rintro buf' s' ⟨rfl, hbuf'⟩
  refine ends_assert.mpr ⟨by rw [hss]; omega, (writeSectors_ends ?_ ?_).mono ?_⟩
  · intro j hj
    refine hc.lt _ ?_
    rw [hss]
    omega
  · intro j l hj hl heq
    have := hd _ _ (by rw [hss]; omega) (by rw [hss]; omega) heq
    omega
  · rintro _ s'' ⟨disk, rfl, hin, hout⟩
    simp only [Prog.ends_pure]
    refine ⟨hk', disk, rfl, fun p hp => ?_, fun x hx => hout x fun j hj => ?_⟩
    · unfold RawFileHeader.byte
      by_cases hmid : first ≤ p / sectorSize ∧ p / sectorSize ≤ last
      · obtain ⟨j, hj⟩ := Nat.exists_eq_add_of_le hmid.1
        have hplace : 0 + j * sectorSize + p % sectorSize = p - first * sectorSize := by
          rw [hss] at hj ⊢
          omega
        rw [hj, hin j (by omega), hplace, blit, ← hj]
        by_cases hpos : position ≤ p ∧ p < position + k
        · have hidx : p - first * sectorSize - (position - first * sectorSize) = p - position := by
            rw [hss]
            omega
          rw [if_pos hpos, if_pos (by rw [hss]; omega), hidx]
        · rw [if_neg hpos, if_neg (by rw [hss] at hmid ⊢; omega), hbuf']
          simp only [hss] at hmid hbuf ⊢
          -- the byte comes from the last sector, if that was read, or from the first
          by_cases hneed : (!position + k == (last + 1) * 128 &&
              (first != last || position == first * 128)) = true ∧
              (last - first) * 128 ≤ p - first * 128 ∧
              p - first * 128 < (last - first) * 128 + 128 ∧
              last * 128 + (p - first * 128 - (last - first) * 128) < (s'.openFile f).hdr.numBytes
          · have hp' : last * 128 + (p - first * 128 - (last - first) * 128) = p := by omega
            rw [if_pos hneed, hp', RawFileHeader.byte, hss]
          · have hp' : first * 128 + (p - first * 128 - 0) = p := by omega
            simp only [Bool.and_eq_true, Bool.not_eq_true', Bool.or_eq_true, bne_iff_ne, ne_eq,
              beq_iff_eq, beq_eq_false_iff_ne] at hneed hbuf
            rw [if_neg (by simpa using hneed), hbuf, if_pos (by omega), hp', RawFileHeader.byte,
              hss]
      · have hpos : ¬ (position ≤ p ∧ p < position + k) := by
          rw [hss] at hmid
          omega
        rw [if_neg hpos, hout]
        intro j hj heq
        have := hd _ _ (by rw [hss]; omega) (by rw [hss]; omega) heq
        omega
    · -- the first byte of the slice in that sector
      have hat : max position ((first + j) * 128) / sectorSize = first + j := by
        rw [hss]
        omega
      rw [← hat]
      exact hx _ (by omega) (by omega)

/-- `WriteAt` through a header in good order, inside the file. -/
theorem writeAt_ends (hok : HeaderOk (s.openFile f).hdr) (hd : (s.openFile f).hdr.Distinct)
    {src : ℕ → UInt8} {n position : ℕ} (hn : 0 < n)
    (hfit : position + n ≤ (s.openFile f).hdr.numBytes) :
    s.Ends (OpenFile.writeAt f src n position) (fun r s' => r = n ∧ ∃ disk, s' = s.withDisk disk ∧
      (∀ p, p < (s.openFile f).hdr.numBytes → (s.openFile f).hdr.byte disk p =
        if position ≤ p ∧ p < position + n then src (p - position)
        else (s.openFile f).hdr.byte s.disk p) ∧
      ∀ x, (∀ j, j < (s.openFile f).hdr.numSectors → x ≠ (s.openFile f).hdr.dataSectors j) →
        disk x = s.disk x) := by
  have hshort := hok.covered.short
  refine (writeAt_slice hok.covered (hok.apart hd) hn (by omega)).mono ?_
  rintro r s' ⟨hr, disk, rfl, hbyte, hout⟩
  obtain rfl : r = n := by omega
  exact ⟨rfl, disk, rfl, hbyte, fun x hx => hout x fun p _ hp => hx _ (hok.sector_lt (by omega))⟩

end WriteAt

/-! ## The free map -/

/-- The free map on disk, in sector `m`. -/
def mapOn (disk : ℕ → Sector) (m : ℕ) : Bitmap := Bitmap.ofBytes (disk m)

/-- The free map is a file with one data sector, `m`. -/
structure FreeMapOk (s : System) (m : ℕ) : Prop where
  numBytes_eq : (s.openFile s.freeMapFile).hdr.numBytes = freeMapFileSize
  numSectors_eq : (s.openFile s.freeMapFile).hdr.numSectors = 1
  sector_eq : (s.openFile s.freeMapFile).hdr.dataSectors 0 = m
  lt : m < numSectors

section FreeMap
variable {s : System} {m : ℕ}

theorem FreeMapOk.headerOk (hm : FreeMapOk s m) : HeaderOk (s.openFile s.freeMapFile).hdr := by
  refine ⟨?_, ?_, fun j hj => ?_⟩
  · rw [hm.numBytes_eq]
    decide
  · rw [hm.numBytes_eq, hm.numSectors_eq]
    decide
  · rw [hm.numSectors_eq] at hj
    obtain rfl : j = 0 := by omega
    rw [hm.sector_eq]
    exact hm.lt

/-- Byte `p` of the free map. -/
theorem FreeMapOk.byte_eq (hm : FreeMapOk s m) (disk : ℕ → Sector) {p : ℕ}
    (hp : p < freeMapFileSize) : (s.openFile s.freeMapFile).hdr.byte disk p = disk m p := by
  have hlt : p < sectorSize := hp
  rw [RawFileHeader.byte, Nat.div_eq_of_lt hlt, Nat.mod_eq_of_lt hlt, hm.sector_eq]

theorem fetchFreeMap_ends (hm : FreeMapOk s m) :
    s.Ends fetchFreeMap (fun freeMap s' => s' = s ∧
      ∀ i, i < numSectors → freeMap i = mapOn s.disk m i) := by
  unfold fetchFreeMap
  simp only [Prog.ends_bind, ends_getFreeMapFile]
  refine (readAt_ends hm.headerOk (by decide) (by decide)).mono ?_
  rintro ⟨n, map⟩ s' ⟨rfl, hn, hmap⟩
  simp only [Prog.ends_pure, true_and]
  simp only [hm.numBytes_eq, Nat.sub_zero, Nat.min_self] at hn hmap
  intro i hi
  have hlt : i / 8 < freeMapFileSize := by
    show i / 8 < 128
    have : i < 1024 := hi
    omega
  refine Bitmap.ofBytes_congr ?_
  rw [blit, if_pos (by omega), Nat.sub_zero, hmap _ (by omega), Nat.zero_add, hm.byte_eq _ hlt]

theorem writeBackFreeMap_ends (hm : FreeMapOk s m) (freeMap : Bitmap) :
    s.Ends (writeBackFreeMap freeMap) (fun _ s' => ∃ data, s' = s.putSector m data ∧
      ∀ i, i < numSectors → Bitmap.ofBytes data i = freeMap i) := by
  have hdistinct : (s.openFile s.freeMapFile).hdr.Distinct := by
    intro i j hi hj _
    rw [hm.numSectors_eq] at hi hj
    omega
  unfold writeBackFreeMap
  simp only [Prog.ends_bind, ends_getFreeMapFile]
  refine (writeAt_ends hm.headerOk hdistinct (by decide)
    (by rw [hm.numBytes_eq, Nat.zero_add])).mono ?_
  rintro _ s' ⟨-, disk, rfl, hbyte, hout⟩
  simp only [Prog.ends_pure]
  refine ⟨disk m, ?_, fun i hi => ?_⟩
  · have hdisk : disk = Function.update s.disk m (disk m) := by
      funext x
      by_cases hx : x = m
      · rw [hx, Function.update_self]
      · rw [Function.update_of_ne hx]
        refine hout x fun j hj => ?_
        rw [hm.numSectors_eq] at hj
        obtain rfl : j = 0 := by omega
        rw [hm.sector_eq]
        exact hx
    rw [System.withDisk, hdisk, System.putSector, Function.update_self]
  · have hlt : i / 8 < freeMapFileSize := by
      show i / 8 < 128
      have : i < 1024 := hi
      omega
    have hb := hbyte (i / 8) (by rw [hm.numBytes_eq]; exact hlt)
    rw [hm.byte_eq _ hlt, if_pos (by omega), Nat.sub_zero] at hb
    rw [Bitmap.ofBytes_congr hb, Bitmap.ofBytes_toBytes]

end FreeMap
end PaldOs
