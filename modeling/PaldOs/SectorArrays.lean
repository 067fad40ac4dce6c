import PaldOs.RoundTrip

/-! # Sectors as an array of bytes

What a header describes is an array of bytes: its data sectors, one after the other, up to its
length.  `ReadAt` returns a slice of the array, and `WriteAt` replaces one, wherever the slice
begins and ends.  A sector of which a part is written is read before, so the rest of it stays.

The header is any header with enough data sectors, all different and on the disk, not only one
that `Allocate` made.
-/
namespace PaldOs

/-! ## The array of a header -/

/-- The bytes a header describes. -/
def RawFileHeader.content (h : RawFileHeader) (disk : ℕ → Sector) : List UInt8 :=
  (List.range h.numBytes).map (h.byte disk)

/-- A header with enough data sectors for its bytes, different ones of the disk. -/
structure HeaderOnDisk (h : RawFileHeader) : Prop where
  enough : divRoundUp h.numBytes sectorSize ≤ h.numSectors
  lt : ∀ j, j < h.numSectors → h.dataSectors j < numSectors
  distinct : h.Distinct

section HeaderOnDisk
variable {h : RawFileHeader}

/-- There are no more different sectors than the disk has. -/
theorem HeaderOnDisk.numSectors_le (hh : HeaderOnDisk h) : h.numSectors ≤ numSectors := by
  have hnodup : ((List.range h.numSectors).map h.dataSectors).Nodup := by
    refine List.Nodup.map_on (fun i hi j hj heq => ?_) List.nodup_range
    exact hh.distinct i j (List.mem_range.mp hi) (List.mem_range.mp hj) heq
  have hsub : (List.range h.numSectors).map h.dataSectors ⊆ List.range numSectors := by
    intro x hx
    obtain ⟨i, hi, rfl⟩ := List.mem_map.mp hx
    exact List.mem_range.mpr (hh.lt i (List.mem_range.mp hi))
  simpa using hnodup.length_le_of_subset hsub

theorem HeaderOnDisk.index_lt (hh : HeaderOnDisk h) {j : ℕ} (hj : j * sectorSize < h.numBytes) :
    j < h.numSectors :=
  lt_of_lt_of_le ((lt_divRoundUp_iff (by decide)).mpr hj) hh.enough

theorem HeaderOnDisk.covered (hh : HeaderOnDisk h) : h.Covered := by
  refine ⟨?_, fun j hj => hh.lt j (hh.index_lt hj)⟩
  have hle := (divRoundUp_le_iff (by decide)).mp (hh.enough.trans hh.numSectors_le)
  have hss : sectorSize = 128 := rfl
  have hns : numSectors = 1024 := rfl
  rw [hss, hns] at hle
  omega

theorem HeaderOnDisk.apart (hh : HeaderOnDisk h) : h.Apart :=
  fun i j hi hj => hh.distinct i j (hh.index_lt hi) (hh.index_lt hj)

end HeaderOnDisk

/-! ## `ReadAt` and `WriteAt` on the array -/

/-- The bytes that `ReadAt` returns. -/
def bytesRead (r : ℕ × (ℕ → UInt8)) : List UInt8 := (List.range r.1).map r.2

section Array
variable {s : System} {f : ℕ} {n position : ℕ}

/-- `ReadAt` returns a slice of the array. -/
theorem readAt_content (hc : (s.openFile f).hdr.Covered) (hn : 0 < n)
    (hsum : position + n < 2 ^ 32) : s.Ends (OpenFile.readAt f n position) (fun r s' => s' = s ∧
      bytesRead r = (((s.openFile f).hdr.content s.disk).drop position).take n) := by
  refine (readAt_slice hc hn hsum).mono ?_
  rintro ⟨k, data⟩ s' ⟨rfl, hk, hdata⟩
  refine ⟨rfl, ?_⟩
  simp only at hk hdata
  rw [RawFileHeader.content, take_drop_map_range, ← hk]
  refine List.map_congr_left fun i hi => ?_
  exact hdata i (List.mem_range.mp hi)

/-- `WriteAt` replaces a slice of the array, in the sectors of that slice. -/
theorem writeAt_content (hc : (s.openFile f).hdr.Covered) (hd : (s.openFile f).hdr.Apart)
    {src : ℕ → UInt8} (hn : 0 < n) (hsum : position + n < 2 ^ 32) :
    s.Ends (OpenFile.writeAt f src n position) (fun k s' =>
      k = min n ((s.openFile f).hdr.numBytes - position) ∧ ∃ disk, s' = s.withDisk disk ∧
      (s.openFile f).hdr.content disk =
        overwrite ((s.openFile f).hdr.content s.disk) position ((List.range k).map src) ∧
      ∀ x, (∀ p, position ≤ p → p < position + k →
        x ≠ (s.openFile f).hdr.dataSectors (p / sectorSize)) → disk x = s.disk x) := by
  refine (writeAt_slice hc hd hn hsum).mono ?_
  rintro k s' ⟨hk, disk, rfl, hbyte, hout⟩
  refine ⟨hk, disk, rfl, ?_, hout⟩
  rcases Nat.le_total position (s.openFile f).hdr.numBytes with hle | hle
  · have hmax : max (s.openFile f).hdr.numBytes (position + k) = (s.openFile f).hdr.numBytes := by
      omega
    refine ((overwrite_map_range hle fun p hp => hbyte p ?_).trans (by rw [hmax]; rfl)).symm
    rwa [hmax] at hp
  · -- nothing is written past the end
    obtain rfl : k = 0 := by omega
    rw [List.range_zero, List.map_nil, overwrite, List.append_nil, List.length_nil, Nat.add_zero,
      List.take_append_drop]
    refine List.map_congr_left fun p hp => ?_
    rw [hbyte p (List.mem_range.mp hp), if_neg (by omega)]

/-- **`ReadAt` and `WriteAt` are a byte array on sectors.**  `ReadAt` returns the slice that is
asked for, as far as the array goes, and changes nothing.  `WriteAt` writes as many bytes as the
array has from the position on; what a `ReadAt` over the whole array returns afterwards is the old
array with these bytes replaced, and the sectors without such bytes are as they were. -/
theorem readAt_writeAt_array (hh : HeaderOnDisk (s.openFile f).hdr) (src : ℕ → UInt8) (hn : 0 < n)
    (hsum : position + n < 2 ^ 32) :
    s.Ends (OpenFile.readAt f n position) (fun r s' => s' = s ∧
      bytesRead r = (((s.openFile f).hdr.content s.disk).drop position).take n) ∧
    s.Ends (OpenFile.writeAt f src n position) (fun k s' =>
      k = min n ((s.openFile f).hdr.numBytes - position) ∧
      (∃ disk, s' = s.withDisk disk ∧ ∀ x, (∀ p, position ≤ p → p < position + k →
        x ≠ (s.openFile f).hdr.dataSectors (p / sectorSize)) → disk x = s.disk x) ∧
      (0 < (s.openFile f).hdr.numBytes →
        s'.Ends (OpenFile.readAt f (s.openFile f).hdr.numBytes 0) (fun r s'' => s'' = s' ∧
          bytesRead r = overwrite ((s.openFile f).hdr.content s.disk) position
            ((List.range k).map src)))) := by
  refine ⟨readAt_content hh.covered hn hsum, ?_⟩
  refine (writeAt_content hh.covered hh.apart hn hsum).mono ?_
  rintro k s' ⟨hk, disk, rfl, hcontent, hout⟩
  refine ⟨hk, ⟨disk, rfl, hout⟩, fun hpos => ?_⟩
  have hshort := hh.covered.short
  have hsmall : 0 + (s.openFile f).hdr.numBytes < 2 ^ 32 := by omega
  have hread : (s.withDisk disk).Ends (OpenFile.readAt f (s.openFile f).hdr.numBytes 0) _ :=
    readAt_content hh.covered hpos hsmall
  refine hread.mono ?_
  rintro r s'' ⟨rfl, hr⟩
  refine ⟨rfl, ?_⟩
  rw [System.withDisk_openFile, System.withDisk_disk, hcontent, List.drop_zero,
    List.take_of_length_le] at hr
  · exact hr
  · rw [← hcontent, RawFileHeader.content, List.length_map, List.length_range]

end Array

/-- In a file of 200 bytes the 100 bytes from byte 150 on are written: there are 50 of them. -/
theorem readAt_writeAt_array_shortFile :
    shortFileSystem.Ends (OpenFile.readAt 3 100 150) (fun r s' => s' = shortFileSystem ∧
      bytesRead r = ((shortFileHeader.content shortFileSystem.disk).drop 150).take 100) ∧
    shortFileSystem.Ends (OpenFile.writeAt 3 (fun _ => 1) 100 150) (fun k s' =>
      k = min 100 (200 - 150) ∧
      (∃ disk, s' = shortFileSystem.withDisk disk ∧ ∀ x, (∀ p, 150 ≤ p → p < 150 + k →
        x ≠ shortFileHeader.dataSectors (p / sectorSize)) → disk x = shortFileSystem.disk x) ∧
      (0 < 200 → s'.Ends (OpenFile.readAt 3 200 0) (fun r s'' => s'' = s' ∧
        bytesRead r = overwrite (shortFileHeader.content shortFileSystem.disk) 150
          ((List.range k).map fun _ => 1)))) := by
  have hhdr : (shortFileSystem.openFile 3).hdr = shortFileHeader := rfl
  have hnum : shortFileHeader.numBytes = 200 := rfl
  have hh : HeaderOnDisk (shortFileSystem.openFile 3).hdr := by
    refine ⟨by decide, ?_, ?_⟩
    · show ∀ j, j < 2 → shortFileHeader.dataSectors j < numSectors
      decide
    · show ∀ i j, i < 2 → j < 2 →
        shortFileHeader.dataSectors i = shortFileHeader.dataSectors j → i = j
      intro i j hi hj
      interval_cases i <;> interval_cases j <;> decide
  have h := @readAt_writeAt_array shortFileSystem 3 100 150 hh (fun _ => 1) (by decide) (by decide)
  rw [hhdr, hnum] at h
  exact h

end PaldOs
