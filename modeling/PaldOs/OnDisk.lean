import PaldOs.Naming

/-! # What is on a disk

The files of a disk as they can be read from it, without a volume: the chain of headers that starts
at a sector, the table of a directory, the files that are found from the root by the indices of the
entries on the way.

On a disk that holds a volume these are the files of the volume.
-/
namespace PaldOs

/-- The headers from the one at `h` on, at most `n` of them. -/
def chainFrom (disk : ℕ → Sector) : ℕ → ℕ → List ℕ
  | 0, _ => []
  | n + 1, h => h ::
      if (headerOn disk h).nextFileHeader = 0 then []
      else chainFrom disk n (headerOn disk h).nextFileHeader

/-- The headers of the file at `h`. -/
def chainOn (disk : ℕ → Sector) (h : ℕ) : List ℕ := chainFrom disk numSectors h

/-- The table of the directory at `h`. -/
def tableAt (disk : ℕ → Sector) (h : ℕ) : Directory :=
  .ofBytes (fileByte disk (chainOn disk h)) (fileLength disk (chainOn disk h) / DirectoryEntry.size)

/-- The data sector of the free map. -/
def mapSector (disk : ℕ → Sector) : ℕ := (headerOn disk freeMapSector).dataSectors 0

/-- The free map. -/
def mapAt (disk : ℕ → Sector) : Bitmap := mapOn disk (mapSector disk)

/-- **The file at `h` is found from the root** through the entries with these indices, and whether
it is a directory. -/
inductive Found (disk : ℕ → Sector) : List ℕ → ℕ → Bool → Prop
  | root : Found disk [] directorySector true
  | entry {path : List ℕ} {h : ℕ} (j : ℕ) : Found disk path h true →
      ((tableAt disk h).slot j).inUse = true →
      Found disk (path ++ [j]) ((tableAt disk h).slot j).sector
        ((tableAt disk h).slot j).isDirectory

section Chains
variable {disk : ℕ → Sector} {hs : List ℕ} {h : ℕ}

theorem Sound.nodup (hf : Sound disk hs) : hs.Nodup := by
  refine List.nodup_iff_injective_getElem.mpr fun i j hij => Fin.ext ?_
  refine hf.heads_distinct i j i.isLt j.isLt ?_
  rw [List.getD_eq_getElem _ _ i.isLt, List.getD_eq_getElem _ _ j.isLt]
  exact hij

theorem Sound.length_le (hf : Sound disk hs) : hs.length ≤ numSectors := by
  have hsub : hs ⊆ List.range numSectors := by
    intro x hx
    obtain ⟨i, hi, rfl⟩ := List.mem_iff_getElem.mp hx
    have := hf.heads_lt i hi
    rw [List.getD_eq_getElem _ _ hi] at this
    exact List.mem_range.mpr this
  have := hf.nodup.length_le_of_subset hsub
  rwa [List.length_range] at this

theorem Sound.chainFrom_eq (hf : Sound disk hs) (n : ℕ) :
    ∀ i, i < hs.length → hs.length ≤ i + n → chainFrom disk n (hs.getD i 0) = hs.drop i := by
  induction n with
  | zero =>
    intro i hi hle
    omega
  | succ n ih =>
    intro i hi hle
    rw [chainFrom, List.drop_eq_getElem_cons hi, ← List.getD_eq_getElem hs 0 hi]
    congr 1
    by_cases hlast : i + 1 < hs.length
    · have hnext : (headerOn disk (hs.getD i 0)).nextFileHeader = hs.getD (i + 1) 0 :=
        hf.next i hlast
      rw [hnext, if_neg (hf.nonzero (i + 1) (Nat.succ_pos i) hlast)]
      exact ih (i + 1) hlast (by omega)
    · have hend : i = hs.length - 1 := by omega
      have hnext : (headerOn disk (hs.getD i 0)).nextFileHeader = 0 := by
        rw [hend]
        exact hf.last
      rw [if_pos hnext, List.drop_eq_nil_of_le (by omega)]

/-- The chain that is read is the chain of the file. -/
theorem Sound.chainOn_eq (hf : Sound disk hs) (hhead : hs.getD 0 0 = h) : chainOn disk h = hs := by
  have := hf.chainFrom_eq numSectors 0 hf.pos (by have := hf.length_le; omega)
  rw [hhead, List.drop_zero] at this
  exact this

/-- The table that is read is the table of the directory. -/
theorem TableOn.tableAt_eq {t : Directory} (ht : TableOn disk hs t) (hf : FileOk disk hs)
    (hhead : hs.getD 0 0 = h) : tableAt disk h = t := by
  have hlen : fileLength disk hs / DirectoryEntry.size = t.length := by
    rw [ht.length]
    exact Nat.mul_div_cancel_left _ (by decide)
  rw [tableAt, hf.sound.chainOn_eq hhead, hlen]
  refine List.ext_getElem Directory.length_ofBytes fun j hj hj' => ?_
  have hslot : (Directory.ofBytes (fileByte disk hs) t.length).slot j = t.slot j :=
    (Directory.slot_ofBytes hj').trans (ht.entry j hj')
  rw [Directory.slot, Directory.slot, List.getD_eq_getElem _ _ hj,
    List.getD_eq_getElem _ _ hj'] at hslot
  exact hslot

end Chains

section OfVolume
variable {D : Discipline} {V : Volume} {disk : ℕ → Sector} {h : ℕ}

theorem DiskOk.chainOn_eq (hd : DiskOk D V disk) {i : FileInfo} (hi : V.files h = some i) :
    chainOn disk h = i.chain :=
  (hd.file h i hi).sound.chainOn_eq (hd.file h i hi).head

theorem DiskOk.tableAt_eq (hd : DiskOk D V disk) {chain : List ℕ} {t : Directory}
    (hi : V.files h = some ⟨chain, some t⟩) : tableAt disk h = t := by
  obtain ⟨hhead, hok, ht⟩ := hd.directory hi
  exact ht.tableAt_eq hok hhead

theorem DiskOk.mapSector_eq (hd : DiskOk D V disk) : mapSector disk = V.map := hd.mapHeader.2.2.1

theorem DiskOk.mapAt_eq (hd : DiskOk D V disk) : mapAt disk = mapOn disk V.map := by
  rw [mapAt, hd.mapSector_eq]

/-- The slots that are read are those of the volume. -/
theorem DiskOk.slot_eq (hd : DiskOk D V disk) (hk : V.kind h = some true) (j : ℕ) :
    (tableAt disk h).slot j = V.slot h j := by
  obtain ⟨chain, t, hi⟩ := kind_true_iff.mp hk
  rw [hd.tableAt_eq hi, slot_of_files hi]

/-- **What is found is a file of the volume.** -/
theorem DiskOk.found (hd : DiskOk D V disk) (ht : TreeOk V) {path : List ℕ} {b : Bool}
    (hf : Found disk path h b) : V.kind h = some b := by
  induction hf with
  | root => exact ht.root
  | entry j _ hu ih =>
    rw [hd.slot_eq ih] at hu ⊢
    exact (ht.entry _ j hu).1

/-- What the volume leads to is found. -/
theorem DiskOk.found_of_reaches (hd : DiskOk D V disk) (ht : TreeOk V) (hr : V.Reaches h) :
    ∃ path b, Found disk path h b ∧ V.kind h = some b := by
  induction hr with
  | root => exact ⟨[], true, .root, ht.root⟩
  | @entry h j _ hu ih =>
    obtain ⟨path, b, hf, hk⟩ := ih
    obtain rfl : b = true := Option.some.inj (hk.symm.trans (kind_of_inUse hu))
    have hslot := hd.slot_eq hk j
    refine ⟨path ++ [j], (V.slot h j).isDirectory, ?_, (ht.entry h j hu).1⟩
    rw [← hslot] at hu ⊢
    exact .entry j hf hu

/-- **A file is found in one way only.** -/
theorem DiskOk.found_unique (hd : DiskOk D V disk) (ht : TreeOk V) {path : List ℕ} {b : Bool}
    (hf : Found disk path h b) : ∀ {path' : List ℕ} {b' : Bool}, Found disk path' h b' →
      path = path' := by
  induction hf with
  | root =>
    intro path' b' hf'
    generalize hh : directorySector = h' at hf'
    cases hf' with
    | root => rfl
    | entry j hf' hu =>
      have hk := hd.found ht hf'
      rw [hd.slot_eq hk] at hu hh
      exact absurd hh.symm (ht.entry _ j hu).2
  | @entry path h j hf hu ih =>
    intro path' b' hf'
    have hk := hd.found ht hf
    generalize hh : ((tableAt disk h).slot j).sector = h' at hf'
    rw [hd.slot_eq hk] at hu hh
    cases hf' with
    | root => exact absurd hh (ht.entry _ j hu).2
    | @entry path' h' j' hf' hu' =>
      have hk' := hd.found ht hf'
      rw [hd.slot_eq hk'] at hu' hh
      obtain ⟨rfl, rfl⟩ := ht.once _ _ _ _ hu hu' hh
      rw [ih hf']

theorem DiskOk.resolve_eq (hd : DiskOk D V disk) (ht : TreeOk V) (names : List (List UInt8)) :
    ∀ {h : ℕ}, V.kind h = some true → resolve (tableAt disk) h names = resolve V.table h names := by
  induction names with
  | nil =>
    intro h _
    rfl
  | cons name names ih =>
    intro h hk
    obtain ⟨chain, t, hi⟩ := kind_true_iff.mp hk
    rw [resolve, resolve, hd.tableAt_eq hi, table_of_files hi]
    by_cases hdir : t.findDir name = true
    · rw [if_pos hdir, if_pos hdir]
      obtain ⟨x, chain', t', hx, hi'⟩ := ht.findDir hi hdir
      rw [hx]
      exact ih (kind_true_iff.mpr ⟨chain', t', hi'⟩)
    · rw [if_neg hdir, if_neg hdir]

theorem DiskOk.destination_eq (hd : DiskOk D V disk) (ht : TreeOk V) (hk : V.kind h = some true)
    (name : List UInt8) : destination (tableAt disk) h name = destination V.table h name := by
  unfold destination
  rw [hd.resolve_eq ht _ hk, hd.resolve_eq ht _ ht.root]

/-- Where names lead to is a directory. -/
theorem TreeOk.resolve_kind (ht : TreeOk V) (names : List (List UInt8)) :
    ∀ {h x : ℕ}, V.kind h = some true → resolve V.table h names = some x →
      V.kind x = some true := by
  induction names with
  | nil =>
    intro h x hk hx
    rw [← Option.some.inj hx]
    exact hk
  | cons name names ih =>
    intro h x hk hx
    obtain ⟨chain, t, hi⟩ := kind_true_iff.mp hk
    rw [resolve, table_of_files hi] at hx
    by_cases hdir : t.findDir name = true
    · rw [if_pos hdir] at hx
      obtain ⟨y, chain', t', hy, hi'⟩ := ht.findDir hi hdir
      rw [hy, Option.bind_some] at hx
      exact ih (kind_true_iff.mpr ⟨chain', t', hi'⟩) hx
    · rw [if_neg hdir] at hx
      cases hx

end OfVolume
end PaldOs
