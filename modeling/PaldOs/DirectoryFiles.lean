import PaldOs.Handles

/-! # Reading and writing directories

A directory is read into a table with room for at least its entries, and what is beyond them is
not in use.  It is written from its start; for lack of space a part of the table may stay
unwritten, a number of whole entries: the file then has the new entries up to there and the old
ones from there on.
-/
namespace PaldOs

open Sys

section Fetch
variable {D : Discipline} {V : Volume} {s : System} {f h : ℕ} {chain : List ℕ} {t : Directory}

/-- The sectors of a file are different sectors of the disk. -/
theorem FileOk.count_le {disk : ℕ → Sector} {hs : List ℕ} (hf : FileOk disk hs) :
    sectorCount disk hs + hs.length ≤ numSectors := by
  have hheads : hs.Nodup := by
    refine List.nodup_iff_injective_getElem.mpr fun i j hij => Fin.ext ?_
    refine hf.heads_distinct i j i.isLt j.isLt ?_
    rw [List.getD_eq_getElem _ _ i.isLt, List.getD_eq_getElem _ _ j.isLt]
    exact hij
  have hdata : ((List.range (sectorCount disk hs)).map (dataSector disk hs)).Nodup := by
    refine List.Nodup.map_on ?_ List.nodup_range
    intro q hq q' hq' heq
    exact hf.data_distinct q q' (List.mem_range.mp hq) (List.mem_range.mp hq') heq
  have hmem : ∀ x ∈ hs, ∃ i, i < hs.length ∧ x = hs.getD i 0 := by
    intro x hx
    obtain ⟨i, hi, rfl⟩ := List.mem_iff_getElem.mp hx
    exact ⟨i, hi, (List.getD_eq_getElem hs 0 hi).symm⟩
  have hnodup : ((List.range (sectorCount disk hs)).map (dataSector disk hs) ++ hs).Nodup := by
    refine List.nodup_append.mpr ⟨hdata, hheads, ?_⟩
    intro x hx y hy heq
    obtain ⟨q, hq, rfl⟩ := List.mem_map.mp hx
    obtain ⟨i, hi, rfl⟩ := hmem y hy
    exact hf.apart i q hi (List.mem_range.mp hq) heq.symm
  have hsub : (List.range (sectorCount disk hs)).map (dataSector disk hs) ++ hs ⊆
      List.range numSectors := by
    intro x hx
    rcases List.mem_append.mp hx with hx | hx
    · obtain ⟨q, hq, rfl⟩ := List.mem_map.mp hx
      exact List.mem_range.mpr (hf.data_lt (List.mem_range.mp hq))
    · obtain ⟨i, hi, rfl⟩ := hmem x hx
      exact List.mem_range.mpr (hf.heads_lt i hi)
  have hle := hnodup.length_le_of_subset hsub
  rwa [List.length_append, List.length_map, List.length_range, List.length_range] at hle

/-- A directory does not have more entries than the largest table. -/
theorem TableOn.length_le {disk : ℕ → Sector} {hs : List ℕ} (ht : TableOn disk hs t)
    (hf : FileOk disk hs) : t.length ≤ maxDirEntries := by
  have hcount := hf.count_le
  have hlen := ht.length
  have hlast := hf.headers (hs.length - 1) (Nat.sub_lt hf.pos Nat.one_pos)
  have hpos := hf.pos
  have hbytes := hlast.numBytes_le
  have hsectors := hlast.numBytes_le_mul
  have hss : sectorSize = 128 := rfl
  have hns : numSectors = 1024 := rfl
  have hnd : numDirect = 29 := rfl
  have hhb : headerBytes = 3712 := rfl
  have hsize : DirectoryEntry.size = 32 := rfl
  have hmax : maxDirEntries = 3960 := rfl
  have hle := hlast.numSectors_le
  rw [sectorCount] at hcount
  rw [fileLength] at hlen
  rw [hss] at hsectors
  rw [hhb, hsize] at hlen
  rw [hnd] at hcount hle
  rw [hns] at hcount
  rw [hmax]
  omega

/-- A directory is read from its start. -/
theorem read_directory {into : ℕ → UInt8} {n : ℕ} {Q : ℕ × (ℕ → UInt8) → System → Prop}
    (hlt : (s.openFile f).sector < numSectors)
    (h : (s.writing f s.disk { s.openFile f with
      hdr := headerOn s.disk (s.openFile f).sector
      seekPosition := 0 }).Ends (OpenFile.read f into n false) Q) :
    s.Ends (OpenFile.read f into n true) Q := by
  unfold OpenFile.read OpenFile.rewindRead at h ⊢
  simp only [Prog.ends_bind, ends_assert, Bool.false_eq_true, if_false, if_true, Prog.ends_pure,
    OpenFile.fetchHeader, ends_getOpenFile, ends_readSector, ends_setOpenFile,
    System.putOpenFile_self, System.putOpenFile_putOpenFile, System.writing_self] at h ⊢
  exact ⟨h.1, hlt, h.2⟩

/-- **A directory is read.** -/
theorem Ready.fetchFrom (hr : Ready D V s) (hf : (f, h) ∈ V.handles)
    (hi : V.files h = some ⟨chain, some t⟩) {size : ℕ} (hsize : t.length ≤ size)
    (hmax : size ≤ maxDirEntries + 1) :
    s.Ends (Directory.fetchFrom f size) (fun r s' => r.1 = DirectoryEntry.size * t.length ∧
      r.2.length = size ∧ (∀ q, r.2.slot q = t.slot q) ∧ Same s s' ∧ Ready D V s') := by
  obtain ⟨hhead, hok, ht⟩ := hr.disk.directory hi
  have hlong := hr.tree.long h chain t hi
  have hten : numDirEntries = 10 := rfl
  have hbig : maxDirEntries = 3960 := rfl
  have hes : DirectoryEntry.size = 32 := rfl
  have hsector := hr.handles.sector f h hf
  have hn : size * DirectoryEntry.size % 2 ^ 32 = size * DirectoryEntry.size := by
    rw [hes]
    omega
  unfold Directory.fetchFrom
  simp only [Prog.ends_bind, ends_assert, Prog.ends_pure]
  refine ⟨by omega, ?_⟩
  rw [hn]
  have hreads : ReadsAt s.disk chain { s.openFile f with
      hdr := headerOn s.disk (s.openFile f).sector
      seekPosition := 0 } 0 := by
    refine ⟨0, hok.pos, ?_, rfl, Nat.zero_le _, fun _ => Or.inl rfl⟩
    show headerOn s.disk (s.openFile f).sector = headerOn s.disk (chain.getD 0 0)
    rw [hsector, hhead]
  have hread : (s.writing f s.disk _).Ends
      (OpenFile.read f (fun _ => 0) (size * DirectoryEntry.size) false) _ :=
    read_ends hok hreads (by rw [hes]; omega) (by rw [hes]; omega) (Or.inr (by
      rw [show seekOf 0 = 0 from rfl, hes]
      omega))
  have hlt : (s.openFile f).sector < numSectors := by
    rw [hsector]
    exact hr.file_lt hi
  refine ((read_directory hlt hread).and_yields read_yields).mono ?_
  rintro ⟨n, bytes⟩ s' ⟨⟨hn', hdata, -⟩, hrest, hre⟩
  simp only [Nat.zero_add, Nat.sub_zero] at hn' hdata hrest
  have hlen : n = DirectoryEntry.size * t.length := by
    rw [hn', ht.length, hes]
    omega
  refine ⟨hlen, Directory.length_ofBytes, fun q => ?_, hre.same,
    hr.reread hf (kind_of_files hi) hre⟩
  rcases Nat.lt_or_ge q size with hq | hq
  · rw [Directory.slot_ofBytes hq]
    rcases Nat.lt_or_ge q t.length with hqt | hqt
    · rw [← ht.entry q hqt]
      refine DirectoryEntry.ofBytes_congr fun o ho => hdata _ ?_
      rw [hlen]
      rw [hes] at ho ⊢
      omega
    · rw [Directory.slot_of_le hqt]
      refine DirectoryEntry.ofBytes_zero fun o ho => hrest _ ?_
      rw [hlen, hes]
      omega
  · rw [Directory.slot_of_le (by rw [Directory.length_ofBytes]; exact hq),
      Directory.slot_of_le (by omega)]

/-- **The number of entries is found out.** -/
theorem Ready.tableSize (hr : Ready D V s) (hf : (f, h) ∈ V.handles)
    (hi : V.files h = some ⟨chain, some t⟩) :
    s.Ends (Directory.tableSize f) (fun n s' => n = t.length ∧ Same s s' ∧ Ready D V s') := by
  obtain ⟨-, hok, ht⟩ := hr.disk.directory hi
  unfold Directory.tableSize
  simp only [Prog.ends_bind, Prog.ends_pure]
  refine (hr.fetchFrom hf hi (ht.length_le hok) (Nat.le_succ _)).mono ?_
  rintro ⟨n, d⟩ s' ⟨hn, -, -, hs, hr'⟩
  refine ⟨?_, hs, hr'⟩
  simp only at hn ⊢
  rw [hn]
  exact Nat.mul_div_cancel_left _ (by decide)

end Fetch

/-! ## Writing -/

section Write
variable {D : Discipline} {V : Volume} {s : System} {f h : ℕ} {chain : List ℕ} {t d : Directory}

/-- **One file grows**, through `f`: what is in memory. -/
theorem HandlesOk.grow (hh : HandlesOk D V s) (hd : DiskOk D V s.disk) {i₀ i : FileInfo}
    {disk' : ℕ → Sector} {o : OpenFile} {reserved : List ℕ} (hf : (f, h) ∈ V.handles)
    (hi : V.files h = some i₀)
    (hg : Grown V s.disk i₀.chain disk' i.chain reserved) (ho : o.sector = h)
    (hcursor : i.table = none → ∀ g, (g, h) ∈ V.handles →
      D.cursor disk' i.chain ((s.writing f disk' o).openFile g)) :
    HandlesOk D (V.grown h i reserved) (s.writing f disk' o) := by
  have hsome : (V.files h).isSome = true := by
    rw [hi]
    rfl
  have hne := hh.ne_freeMapFile hd hf hsome
  have hisSome : ∀ h', ((V.grown h i reserved).files h').isSome = (V.files h').isSome := by
    intro h'
    rcases eq_or_ne h' h with rfl | hne'
    · rw [hsome]
      exact congrArg Option.isSome put_files_self
    · exact congrArg Option.isSome (put_files_of_ne hne')
  refine ⟨hh.freeMap.writing hne _ _, hh.freeMapFile, fun g h' hg' => ?_,
    hh.lt, hh.nodup, fun g h' hg' => ?_, fun g h' chain' hg' hi' => ?_,
    hh.counts, hh.locked, fun h' hh' => hh.quiet h' (hisSome h' ▸ hh'),
    hh.locks.of_eq rfl le_rfl hh.locks.free⟩
  · rcases eq_or_ne g f with rfl | hgf
    · rw [System.writing_self, ho]
      exact (hh.sector _ _ hf).symm.trans (hh.sector _ _ hg')
    · exact (congrArg OpenFile.sector (Function.update_of_ne hgf ..)).trans
        (hh.sector g h' hg')
  · rw [hisSome h']
    exact hh.on g h' hg'
  · rcases put_files_cases hi' with ⟨rfl, rfl⟩ | ⟨hne', hi''⟩
    · exact hcursor rfl g hg'
    · have hgf : g ≠ f := by
        rintro rfl
        exact hne' ((hh.sector _ _ hg').symm.trans (hh.sector _ _ hf))
      have hopen : (s.writing f disk' o).openFile g = s.openFile g := Function.update_of_ne hgf ..
      rw [hopen]
      refine D.cursor_congr _ _ _ _ (hd.file h' _ hi'').sound (fun x hx => ?_)
        (hh.cursor g h' chain' hg' hi'')
      exact (hg.other hd hi hne' hi'' hx).2

/-- The first `k` entries of `d`, and then those of `t`. -/
def Directory.merge (d t : Directory) (k : ℕ) : Directory :=
  (List.range (max t.length k)).map fun q => if q < k then d.slot q else t.slot q

theorem Directory.length_merge (d t : Directory) (k : ℕ) :
    (d.merge t k).length = max t.length k := by
  simp [Directory.merge]

theorem Directory.slot_merge (d t : Directory) (k q : ℕ) :
    (d.merge t k).slot q = if q < k then d.slot q else t.slot q := by
  rcases Nat.lt_or_ge q (max t.length k) with hq | hq
  · rw [Directory.slot, Directory.merge, List.getD_eq_getElem _ _ (by simpa using hq)]
    simp
  · rw [Directory.slot_of_le (by rw [Directory.length_merge]; exact hq), if_neg (by omega),
      Directory.slot_of_le (by omega)]

/-- Whole entries are written over a table. -/
theorem TableOn.merge {disk disk' : ℕ → Sector} {hs hs' : List ℕ} (ht : TableOn disk hs t) {k : ℕ}
    (hh : Holds disk hs 0 d.toBytes (DirectoryEntry.size * k) disk' hs')
    (hsector : ∀ q, (d.slot q).sector < 2 ^ 32) : TableOn disk' hs' (d.merge t k) := by
  have hes : DirectoryEntry.size = 32 := rfl
  have hlen := hh.length
  rw [ht.length, Nat.zero_add] at hlen
  refine ⟨?_, fun j hj => ?_⟩
  · rw [hlen, Directory.length_merge, hes]
    omega
  · rw [Directory.length_merge] at hj
    rw [Directory.slot_merge]
    have hbyte : ∀ o, o < DirectoryEntry.size → fileByte disk' hs' (DirectoryEntry.size * j + o) =
        if j < k then (d.slot j).toBytes o else fileByte disk hs (DirectoryEntry.size * j + o) := by
      intro o ho
      rw [hh.byte _ (by rw [hlen, hes] at *; omega)]
      by_cases hjk : j < k
      · rw [if_pos hjk, if_pos (by rw [hes] at *; omega)]
        show (d.slot ((DirectoryEntry.size * j + o - 0) / DirectoryEntry.size)).toBytes
          ((DirectoryEntry.size * j + o - 0) % DirectoryEntry.size) = _
        rw [Nat.sub_zero, Nat.mul_add_div (by decide), Nat.div_eq_of_lt ho, Nat.add_zero,
          Nat.mul_add_mod, Nat.mod_eq_of_lt ho]
      · rw [if_neg hjk, if_neg (by rw [hes] at *; omega)]
    by_cases hjk : j < k
    · rw [if_pos hjk]
      refine DirectoryEntry.ofBytes_eq (hsector j) fun o ho => ?_
      rw [hbyte o ho, if_pos hjk]
    · rw [if_neg hjk, ← ht.entry j (by omega)]
      refine DirectoryEntry.ofBytes_congr fun o ho => ?_
      rw [hbyte o ho, if_neg hjk]

/-- How many entries of `d` were written, and what there is then: `k` entries of `d` in the
directory at `h`, and `reserved` sectors for nobody. -/
structure Written (D : Discipline) (V : Volume) (s : System) (h : ℕ) (chain : List ℕ)
    (t d : Directory) (k : ℕ) (chain' reserved : List ℕ) (s' : System) : Prop where
  disk : DiskOk D (V.grown h ⟨chain', some (d.merge t k)⟩ reserved) s'.disk
  handles : HandlesOk D (V.grown h ⟨chain', some (d.merge t k)⟩ reserved) s'
  grown : Grown V s.disk chain s'.disk chain' reserved
  le : k ≤ d.length
  roomy : Roomy s.disk chain (mapOn s.disk V.map) 0 (d.length * DirectoryEntry.size) → reserved = []
  existing : ¬ Short s.disk chain (mapOn s.disk V.map) 0 (d.length * DirectoryEntry.size) →
    t.length ≤ k
  most : min (d.length * DirectoryEntry.size) (headerBytes * (chain.length - 1)) ≤
    DirectoryEntry.size * k
  all : k = d.length ↔
    Ample s.disk chain (mapOn s.disk V.map) 0 (d.length * DirectoryEntry.size)
  short : Short s.disk chain (mapOn s.disk V.map) 0 (d.length * DirectoryEntry.size) →
    DirectoryEntry.size * k ≤ headerBytes * (chain.length - 1)
  count : (mapOn s'.disk V.map).countClear +
      (sectorCount s'.disk chain' + chain'.length + reserved.length) =
    (mapOn s.disk V.map).countClear + (sectorCount s.disk chain + chain.length)
  freeMapFile : s'.freeMapFile = s.freeMapFile
  directoryFile : s'.directoryFile = s.directoryFile
  directorySize : s'.directorySize = s.directorySize
  createLock : s'.held filesysCreateLock = s.held filesysCreateLock
  entries : s'.openFilesTable = s.openFilesTable
  filled : chain' = chain ∨ headerBytes * (chain'.length - 1) < DirectoryEntry.size * k
  longer : chain <+: chain'

/-- **A directory that gets no longer takes no sectors.** -/
theorem Written.still {k : ℕ} {chain' reserved : List ℕ} {s' : System}
    (hw : Written D V s h chain t d k chain' reserved s') (hd : DiskOk D V s.disk)
    (hi : V.files h = some ⟨chain, some t⟩) (hk : k ≤ t.length) :
    chain' = chain ∧ sectorCount s'.disk chain' = sectorCount s.disk chain := by
  obtain ⟨-, hok, ht⟩ := hd.directory hi
  obtain ⟨hhead, hok', ht'⟩ := hw.disk.directory put_files_self
  have hlen := ht.length
  have hlen' := ht'.length
  have hbounds := hok.length_bounds
  have hes : DirectoryEntry.size = 32 := rfl
  have hhb : headerBytes = 3712 := rfl
  rw [Directory.length_merge, Nat.max_eq_left hk] at hlen'
  refine ⟨?_, ?_⟩
  · rcases hw.filled with heq | hlt
    · exact heq
    · refine (hw.longer.eq_of_length_le ?_).symm
      have hpos := hok'.pos
      rw [hhb] at hbounds hlt
      rw [hes] at hlen hlt
      omega
  · rw [hok.sectorCount_eq, hok'.sectorCount_eq, hlen, hlen']

theorem Written.map_still {k : ℕ} {chain' reserved : List ℕ} {s' : System}
    (hw : Written D V s h chain t d k chain' reserved s') (hd : DiskOk D V s.disk)
    (hi : V.files h = some ⟨chain, some t⟩) (hk : k ≤ t.length) (hres : reserved = []) :
    (∀ x, x < numSectors → mapOn s'.disk V.map x = mapOn s.disk V.map x) ∧
      ∀ x, x ≠ V.map → ¬ Uses s.disk chain x → s'.disk x = s.disk x := by
  obtain ⟨hchain, hsectors⟩ := hw.still hd hi hk
  have hcount := hw.count
  rw [hsectors, hchain, hres, List.length_nil] at hcount
  have hsame : ∀ x, x < numSectors → mapOn s'.disk V.map x = mapOn s.disk V.map x := fun x =>
    Bitmap.eq_of_countClear_eq (fun y hy hmark => (hw.grown.marks y hy).mpr (Or.inl hmark))
      (by omega)
  refine ⟨hsame, fun x hx hnot => hw.grown.frame x hx fun hu => ?_⟩
  obtain ⟨-, hok', -⟩ := hw.disk.directory put_files_self
  have hlt := hok'.sound.uses_lt hu
  rcases hw.grown.fresh x hu with hold | hclear
  · exact hnot hold
  · have hmark := (hw.grown.marks x hlt).mpr (Or.inr (Or.inl hu))
    rw [hsame x hlt, hclear] at hmark
    cases hmark

/-- **A directory is written**, while another lock may be held. -/
theorem HandlesOk.writeBack (hh : HandlesOk D V s) (hd : DiskOk D V s.disk)
    (hf : (f, h) ∈ V.handles) (hi : V.files h = some ⟨chain, some t⟩) (hpos : 0 < d.length)
    (hlen : t.length ≤ d.length) (hmax : d.length ≤ maxDirEntries + 2)
    (hsector : ∀ q, (d.slot q).sector < 2 ^ 32) {l₀ : ℕ} (b : Bool)
    (hl₀ : (s.openFilesTable h).writeLock ≠ some l₀) :
    (s.putHeld l₀ b).Ends (d.writeBack f) (fun _ s' => ∃ s₁ k chain' reserved,
      s' = s₁.putHeld l₀ b ∧ Written D V s h chain t d k chain' reserved s₁) := by
  obtain ⟨hhead, hok, ht⟩ := hd.directory hi
  have hbig : maxDirEntries = 3960 := rfl
  have hes : DirectoryEntry.size = 32 := rfl
  have hss : sectorSize = 128 := rfl
  have hsec := hh.sector f h hf
  have hne := hh.ne_freeMapFile hd hf (by rw [hi]; rfl)
  have hn : d.length * DirectoryEntry.size % 2 ^ 32 = d.length * DirectoryEntry.size := by
    rw [hes]
    omega
  have hcount : (s.openFilesTable h).count ≠ 0 := by
    rw [hh.counts h]
    have hpos : 0 < V.handles.countP (fun p => p.2 == h) :=
      List.countP_pos_iff.mpr ⟨(f, h), hf, by simp⟩
    omega
  obtain ⟨l, hl⟩ := (hh.locked h hcount).write
  have hlne : l ≠ filesysCreateLock := by
    rintro rfl
    exact hh.locks.writeLock h hl
  have hll₀ : l ≠ l₀ := by
    rintro rfl
    exact hl₀ hl
  have hfree : (s.putHeld l₀ b).held l = false :=
    (Function.update_of_ne hll₀ ..).trans (hh.locks.free l hlne)
  have hst : Stored V.map s.disk chain (mapOn s.disk V.map) :=
    ⟨hok, fun _ _ => rfl,
      fun x hx => (hd.owned_marked ⟨h, _, hi, hok.owned_iff_uses.mp hx⟩).2, hd.map_marked,
      fun hx => (hd.reserved h _ hi).2 (hok.owned_iff_uses.mp hx), hd.zero_marked⟩
  have hcursor : CursorAt s.disk chain ((s.openFile f).rewound true) 0 :=
    ⟨0, hok.pos, by rw [hhead]; exact hsec, rfl, Nat.zero_le _⟩
  have hfm : FreeMapOk (s.putHeld l₀ b) V.map :=
    ⟨hh.freeMap.numBytes_eq, hh.freeMap.numSectors_eq, hh.freeMap.sector_eq, hh.freeMap.lt⟩
  unfold Directory.writeBack
  simp only [Prog.ends_bind, Prog.ends_pure]
  rw [hn]
  refine (write_ends (s := s.putHeld l₀ b) hfm hne hst (by rw [← hl, ← hsec]; rfl) hfree hcursor
    (by rw [hes]; omega)).mono ?_
  rintro n _ ⟨map₀, disk', chain', freeMap, reserved, o, rfl, hosec, hmap, hout, hroomy, hshort,
    hmost, hample, hstop, -⟩
  have hp := hout.progress
  have hg := hp.grown hok hmap
  -- a whole number of entries
  obtain ⟨k, rfl⟩ : ∃ k, n = DirectoryEntry.size * k := by
    rcases hout.aligned with h1 | h1 | h1
    · exact ⟨d.length, by rw [h1, Nat.mul_comm]⟩
    · exact ⟨0, h1⟩
    · refine ⟨n / 32, ?_⟩
      rw [Nat.zero_add, hss] at h1
      rw [hes]
      omega
  have htable := ht.merge hout.holds hsector
  have hle : k ≤ d.length := by
    have := hout.le
    rw [hes] at this
    omega
  have hchead : chain'.getD 0 0 = h := (getD_of_chain hp.chain hok.pos).trans hhead
  have hnew : FileOn D disk' h ⟨chain', some (d.merge t k)⟩ := .ofTable hchead hp.ok htable
  refine ⟨s.writing f disk' o, k, chain', reserved, rfl, hd.grow hi hg hnew, ?_, hg, hle, hroomy.mp,
    fun hns => ?_, hmost, ⟨fun hk => ?_, fun ha => ?_⟩, fun hs => ?_, ?_, rfl, rfl, rfl, rfl, rfl,
    ?_,
    hp.chain⟩
  · exact hh.grow hd hf hi hg (hosec.trans hsec) (by intro hc; cases hc)
  · have hk := hshort hns
    have hlength := ht.length
    have hcap : fileLength s.disk chain ≤ headerBytes * chain.length := by
      have hb := (hok.headers (chain.length - 1) (Nat.sub_lt hok.pos Nat.one_pos)).numBytes_le
      have hpos := hok.pos
      have hhb : headerBytes = 3712 := rfl
      rw [fileLength]
      rw [hhb] at hb ⊢
      omega
    rw [hlength] at hcap
    rw [Nat.sub_zero, hes] at hk
    rw [hes] at hcap
    omega
  · have hall : DirectoryEntry.size * k = d.length * DirectoryEntry.size := by
      rw [hk, Nat.mul_comm]
    rw [hall] at hout
    have hcount : map₀.countClear = (mapOn s.disk V.map).countClear :=
      Bitmap.countClear_congr hmap
    have hample' := hout.ample
    unfold Ample Short at hample' ⊢
    rw [← hcount]
    exact hample'
  · have hk := hample ha
    rw [hes] at hk
    omega
  · rcases hstop hs with hk | hk
    · rw [hk]
      exact Nat.zero_le _
    · rw [Nat.zero_add] at hk
      exact hk.le
  · have hfree := hp.free
    rw [Bitmap.countClear_congr hmap] at hfree
    have hafter : (mapOn disk' V.map).countClear = freeMap.countClear :=
      Bitmap.countClear_congr hp.onDisk
    rw [System.writing_disk, hafter]
    exact hfree
  · rw [← Nat.zero_add (DirectoryEntry.size * k)]
    exact hout.filled

theorem System.putHeld_eq_self {l : ℕ} {b : Bool} (h : s.held l = b) : s.putHeld l b = s := by
  unfold System.putHeld
  rw [← h, Function.update_eq_self]

/-- **A directory is written.** -/
theorem Ready.writeBack (hr : Ready D V s) (hf : (f, h) ∈ V.handles)
    (hi : V.files h = some ⟨chain, some t⟩) (hlen : t.length ≤ d.length)
    (hmax : d.length ≤ maxDirEntries + 2) (hsector : ∀ q, (d.slot q).sector < 2 ^ 32) :
    s.Ends (d.writeBack f) (fun _ s' =>
      ∃ k chain' reserved, Written D V s h chain t d k chain' reserved s') := by
  have hlong := hr.tree.long h chain t hi
  have hten : numDirEntries = 10 := rfl
  have hends := hr.handles.writeBack hr.disk hf hi (by omega) hlen hmax hsector
    (s.held filesysCreateLock) (hr.handles.locks.writeLock h)
  rw [System.putHeld_eq_self rfl] at hends
  refine hends.mono ?_
  rintro _ _ ⟨s₁, k, chain', reserved, rfl, hw⟩
  rw [System.putHeld_eq_self hw.createLock]
  exact ⟨k, chain', reserved, hw⟩

end Write
end PaldOs
