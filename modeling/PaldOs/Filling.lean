import PaldOs.Booting

/-! # A volume that fills up

Files are created one after the other in the root of the blank volume, and one of them is written.
What is left of the space then is known, so the cases in which an operation does not find the space
it needs can be reached.
-/
namespace PaldOs

/-- The name of file `k`: a letter. -/
def letter (k : ℕ) : List UInt8 := [UInt8.ofNat (97 + k)]

/-- **The root has `k` files**, and `free` sectors are left. -/
structure Crowded (k free : ℕ) (w : World) (V : Volume) (rest : List (ℕ × ℕ)) : Prop where
  live : Live w V directorySector rest
  used : ∀ q, (V.slot directorySector q).inUse = true ↔ q < k
  named : ∀ q, q < k → (V.slot directorySector q).named (letter q) = true
  size : w.sys.directorySize = max numDirEntries k
  free : (mapAt w.sys.disk).countClear = free
  heap : w.sys.heap = fun _ => 0

/-- The files are empty. -/
def Untouched (k : ℕ) (w : World) (V : Volume) : Prop :=
  ∀ q, q < k → ∃ h, (V.slot directorySector q).sector = h ∧ V.files h = some ⟨[h], none⟩ ∧
    fileLength w.sys.disk [h] = 0

section Letters

theorem letter_head (k : ℕ) (hk : k < 26) : (letter k).head? ≠ some slash := by
  intro h
  have hbyte : UInt8.ofNat (97 + k) = slash := Option.some.inj h
  have hnat := congrArg UInt8.toNat hbyte
  have hslash : slash.toNat = 47 := rfl
  rw [UInt8.toNat_ofNat', hslash] at hnat
  omega

/-- A file is created in the current directory. -/
theorem createAt_letter {k : ℕ} (hk : k < 26) (disk : ℕ → Sector) (c size : ℕ) :
    createAt disk c size (letter k) = some (c, size, letter k) := by
  unfold createAt
  rw [if_neg (letter_head k hk)]

/-- The name of a file is one character long. -/
theorem DirectoryEntry.nameAt_letter {e : DirectoryEntry} {k : ℕ} (hk : k < 26)
    (he : e.named (letter k) = true) : e.nameAt 0 = UInt8.ofNat (97 + k) ∧ e.nameAt 1 = 0 := by
  rw [DirectoryEntry.named, Bool.and_eq_true, sameFrom_iff] at he
  have hfirst : e.nameAt 0 = UInt8.ofNat (97 + k) :=
    he.2 0 (by decide) fun i hi => absurd hi (Nat.not_lt_zero i)
  refine ⟨hfirst, he.2 1 (by decide) fun i hi hzero => ?_⟩
  obtain rfl := Nat.lt_one_iff.mp hi
  have hnat := congrArg UInt8.toNat (hfirst.symm.trans hzero)
  have hzero' : (0 : UInt8).toNat = 0 := rfl
  rw [UInt8.toNat_ofNat', hzero'] at hnat
  omega

/-- The name of one file is not the name of another. -/
theorem DirectoryEntry.named_letter {e : DirectoryEntry} {k q : ℕ} (hk : k < 26) (hq : q < 26)
    (he : e.named (letter q) = true) (hk' : e.named (letter k) = true) : q = k := by
  have hnat := congrArg UInt8.toNat ((nameAt_letter hq he).1.symm.trans (nameAt_letter hk hk').1)
  rw [UInt8.toNat_ofNat', UInt8.toNat_ofNat'] at hnat
  omega

end Letters

section Crowded
variable {k free : ℕ} {w : World} {V : Volume} {rest : List (ℕ × ℕ)}

/-- Up to twelve entries, the root has one header and three sectors. -/
theorem Live.small_root (hl : Live w V directorySector rest) (hsize : w.sys.directorySize ≤ 12) :
    ∃ t, V.files directorySector = some ⟨[directorySector], some t⟩ ∧
      sectorCount w.sys.disk [directorySector] = 3 := by
  obtain ⟨chain, t, ha⟩ := hl.idle.dir
  obtain ⟨hhead, hok, htable⟩ := hl.idle.ready.disk.directory ha.file
  have hlong := hl.idle.ready.tree.long _ _ _ ha.file
  have hle := ha.le
  have hlen := htable.length
  have hbounds := hok.length_bounds
  have hpos := hok.pos
  have hes : DirectoryEntry.size = 32 := rfl
  have hnd : numDirEntries = 10 := rfl
  have hhb : headerBytes = 3712 := rfl
  rw [hnd] at hlong
  rw [hes] at hlen
  rw [hhb] at hbounds
  have hone : chain.length = 1 := by omega
  obtain ⟨x, rfl⟩ := List.length_eq_one_iff.mp hone
  obtain rfl : x = directorySector := hhead
  refine ⟨t, ha.file, ?_⟩
  have hss : sectorSize = 128 := rfl
  rw [hok.sectorCount_eq, hlen, hss, divRoundUp]
  split <;> omega

theorem Crowded.freeIndex (h : Crowded k free w V rest) {chain : List ℕ} {t : Directory}
    (hroot : V.files directorySector = some ⟨chain, some t⟩) : t.freeIndex = k := by
  have hslot : ∀ q, t.slot q = V.slot directorySector q := fun q => (slot_of_files hroot q).symm
  refine Directory.freeIndex_eq ?_ fun q hq => ?_
  · rw [hslot, Bool.eq_false_iff, ne_eq, h.used]
    exact Nat.lt_irrefl k
  · rw [hslot]
    exact (h.used q).mpr hq

/-- The next name is new. -/
theorem Crowded.find_none (h : Crowded k free w V rest) (hk : k < 26) {chain : List ℕ}
    {t : Directory}
    (hroot : V.files directorySector = some ⟨chain, some t⟩) : t.find (letter k) = none := by
  have hslot : ∀ q, t.slot q = V.slot directorySector q := fun q => (slot_of_files hroot q).symm
  rw [Directory.find_eq, Option.map_eq_none_iff]
  cases hfind : t.findIndex (letter k) with
  | none => rfl
  | some q =>
    exfalso
    have hnamed := (Directory.findIndex_eq_some hfind).2
    rw [hslot] at hnamed
    have hq : q < k := by
      rw [← h.used]
      rw [DirectoryEntry.named, Bool.and_eq_true] at hnamed
      exact hnamed.1
    have := DirectoryEntry.named_letter hk (by omega) (h.named q hq) hnamed
    omega

/-- What a small directory needs is there. -/
theorem ample_small {disk : ℕ → Sector} {hs : List ℕ} (hlen : hs.length = 1)
    (hcount : sectorCount disk hs = 3) (freeMap : Bitmap) {size : ℕ} (hsize : size ≤ 12) :
    Ample disk hs freeMap 0 (size * DirectoryEntry.size) ∧
      Roomy disk hs freeMap 0 (size * DirectoryEntry.size) := by
  have hes : DirectoryEntry.size = 32 := rfl
  have hhb : headerBytes = 3712 := rfl
  have hss : sectorSize = 128 := rfl
  have hzero :
      divRoundUp (0 + size * DirectoryEntry.size - headerBytes * hs.length) sectorSize = 0 := by
    rw [hlen, hes, hhb, show 0 + size * 32 - 3712 * 1 = 0 by omega]
    rfl
  refine ⟨⟨?_, ?_⟩, Or.inr (Or.inl ?_)⟩
  · rw [Short, lt_divRoundUp_iff (by decide), hcount, hes, hss]
    omega
  · rw [hzero]
    exact Nat.zero_le _
  · rw [hzero]
    exact Nat.zero_le _

/-- One more file finds its space in the root. -/
theorem Crowded.addable (h : Crowded k free w V rest) (hk : k < 12) :
    Addable w.sys.disk (chainOn w.sys.disk directorySector) (mapAt w.sys.disk)
      (tableAt w.sys.disk directorySector) w.sys.directorySize (letter k) 0 := by
  have hd := h.live.idle.ready.disk
  have hnd : numDirEntries = 10 := rfl
  have hsize := h.size
  obtain ⟨t, hroot, hsectors⟩ := h.live.small_root (by omega)
  have hindex := h.freeIndex hroot
  have hchain : chainOn w.sys.disk directorySector = [directorySector] := hd.chainOn_eq hroot
  rw [hchain, hd.tableAt_eq hroot]
  refine Or.inr (Or.inr fun freeMap j _ hfreej hused => ?_)
  obtain rfl : k = j := hindex.symm.trans (Directory.freeIndex_eq hfreej hused)
  obtain ⟨hample, hroomy⟩ := ample_small rfl hsectors freeMap
    (show max w.sys.directorySize (k + 1) ≤ 12 by omega)
  exact ⟨hroomy, Or.inr ⟨hample.1, Or.inr hample⟩⟩

/-- Its entry fits. -/
theorem Crowded.fits (h : Crowded k free w V rest) (hk : k < 12) :
    CreateFitsEntry w.sys.disk directorySector w.sys.directorySize 0 := by
  intro freeMap _
  have hd := h.live.idle.ready.disk
  have hnd : numDirEntries = 10 := rfl
  have hsize := h.size
  obtain ⟨t, hroot, hsectors⟩ := h.live.small_root (by omega)
  have hchain : chainOn w.sys.disk directorySector = [directorySector] := hd.chainOn_eq hroot
  rw [hchain, hd.tableAt_eq hroot, h.freeIndex hroot]
  obtain ⟨hample, -⟩ := ample_small rfl hsectors freeMap
    (show max w.sys.directorySize (k + 1) ≤ 12 by omega)
  exact Or.inr ⟨hample.1, Or.inr hample⟩

/-- No sector is lost for it. -/
theorem Crowded.keeps (h : Crowded k free w V rest) (hk : k < 12) :
    w.Keeps (.create (letter k)) := by
  have hcurrent := h.live.idle.current_eq
  intro p n base hat
  rw [hcurrent, createAt_letter (show k < 26 by omega)] at hat
  obtain ⟨rfl, rfl, rfl⟩ : directorySector = p ∧ w.sys.directorySize = n ∧ letter k = base := by
    simpa using hat
  exact h.addable hk

/-- **One more file.** -/
theorem Crowded.create (h : Crowded k (free + 1) w V rest) (hempty : Untouched k w V)
    (hk : k < 12) :
    ∃ s' V', w.perform (.create (letter k)) = some { w with sys := s' } ∧
      Crowded (k + 1) free { w with sys := s' } V' rest ∧
      Untouched (k + 1) { w with sys := s' } V' := by
  have hi := h.live.idle
  have hd := hi.ready.disk
  have hrel := letter_head k (by omega)
  have hnd : numDirEntries = 10 := rfl
  have hsize := h.size
  obtain ⟨t, hroot, hsectors⟩ := h.live.small_root (by omega)
  have hindex := h.freeIndex hroot
  have hfind := h.find_none (by omega) hroot
  have htable := hd.tableAt_eq hroot
  have hchain : chainOn w.sys.disk directorySector = [directorySector] := hd.chainOn_eq hroot
  have hfree := h.free
  have hat := createAt_letter (show k < 26 by omega) w.sys.disk directorySector w.sys.directorySize
  obtain ⟨r, s', V', c', hafter, hlive, hc⟩ := h.live.createWith (storeFile_ok _)
    (fun habs => absurd habs hrel) fun _ => h.heap ▸ createTyped_zero
  obtain ⟨rfl, henr⟩ := hc.stored _ _ _ hat (h.addable hk) (by rw [htable]; exact hfind) (by omega)
  obtain ⟨rfl, -⟩ := hc.returns (fun habs => absurd habs hrel)
  obtain ⟨_, _, _, _, -, -, -, -, -, -, hbound⟩ := hc.succeeded rfl
  have hsize' : s'.directorySize = max w.sys.directorySize (k + 1) := by
    rw [hc.size hrel, htable, sizeAfter, hfind, hindex]
    rfl
  obtain ⟨t', hroot', hsectors'⟩ := hlive.small_root (show s'.directorySize ≤ 12 by omega)
  have hcount := henr.count _ _ hroot'
  obtain ⟨j, e, hnamed, -, hjfree, hjused, hne, hslot, i, hifile, hichain, hitable, hilen⟩ :=
    henr.entry
  obtain rfl : j = k := by
    have hle : ¬ j < k := fun hlt => by
      rw [(h.used j).mpr hlt] at hjfree
      cases hjfree
    have hge : ¬ k < j := fun hlt => absurd ((h.used k).mp (hjused k hlt)) (Nat.lt_irrefl k)
    omega
  have hself : V'.slot directorySector j = e := by
    rw [hslot _ _ hne, if_pos ⟨rfl, rfl⟩]
  have hother : ∀ q, q ≠ j → V'.slot directorySector q = V.slot directorySector q := by
    intro q hq
    rw [hslot _ _ hne, if_neg fun hc => hq hc.2]
  refine ⟨s', V', hafter, ⟨hlive, fun q => ?_, fun q hq => ?_, ?_, ?_,
    (World.after_heap hafter).trans h.heap⟩, fun q hq => ?_⟩
  · rcases eq_or_ne q j with rfl | hne
    · rw [hself]
      rw [DirectoryEntry.named, Bool.and_eq_true] at hnamed
      exact ⟨fun _ => Nat.lt_succ_self _, fun _ => hnamed.1⟩
    · rw [hother q hne, h.used]
      omega
  · rcases eq_or_ne q j with rfl | hne
    · rw [hself]
      exact hnamed
    · rw [hother q hne]
      exact h.named q (by omega)
  · show s'.directorySize = _
    omega
  · have hmap : mapAt s'.disk = mapOn s'.disk V.map := by
      rw [← hc.map]
      exact hlive.idle.ready.disk.mapAt_eq
    show (mapAt s'.disk).countClear = free
    rw [hmap]
    rw [hchain, hsectors, ← hd.mapAt_eq, List.length_singleton] at hcount
    have hthree : sectorCount s'.disk [directorySector] = 3 := hsectors'
    omega
  · rcases eq_or_ne q j with rfl | hne
    · refine ⟨e.sector, by rw [hself], ?_, hilen rfl⟩
      rw [hifile, ← hichain]
      have htable : i.table = none := by simpa using hitable
      rw [← htable]
    · obtain ⟨x, hx, hfile, hzero⟩ := hempty q (by omega)
      obtain ⟨hfile', hsame⟩ := hbound.file x _ hfile
      refine ⟨x, by rw [hother q hne]; exact hx, hfile', ?_⟩
      have hlength : fileLength s'.disk [x] = fileLength w.sys.disk [x] :=
        fileLength_congr Nat.one_pos fun p hp => headerOf_of_uses hsame hp
      exact hlength.trans hzero

/-- All files are in the root. -/
theorem Crowded.file_iff (h : Crowded k free w V rest) (hempty : Untouched k w V) {x : ℕ} :
    (V.files x).isSome = true ↔
      x = directorySector ∨ ∃ q, q < k ∧ (V.slot directorySector q).sector = x := by
  constructor
  · intro hx
    obtain ⟨i, hi⟩ := Option.isSome_iff_exists.mp hx
    have hreach := h.live.idle.reached x i hi
    clear hi hx i
    induction hreach with
    | root => exact .inl rfl
    | @entry p j _ hu ih =>
      rcases ih with rfl | ⟨q, hq, rfl⟩
      · exact .inr ⟨j, (h.used j).mp hu, rfl⟩
      · -- an empty file has no entries
        obtain ⟨x, hx, hfile, -⟩ := hempty q hq
        rw [hx, Volume.slot, hfile] at hu
        cases hu
  · rintro (rfl | ⟨q, hq, rfl⟩)
    · obtain ⟨chain, t, hi⟩ := h.live.idle.ready.tree.rootTable
      rw [hi]
      rfl
    · obtain ⟨x, hx, hfile, -⟩ := hempty q hq
      rw [hx, hfile]
      rfl

/-- Each of them has one header, with three sectors at most. -/
theorem Crowded.small (h : Crowded k free w V rest) (hempty : Untouched k w V) (hk : k ≤ 12) {x : ℕ}
    {i : FileInfo} (hi : V.files x = some i) :
    i.chain = [x] ∧ (headerOn w.sys.disk x).numSectors ≤ 3 ∧
      (headerOn w.sys.disk x).nextFileHeader = 0 := by
  have hsingle : ∀ y, sectorCount w.sys.disk [y] = (headerOn w.sys.disk y).numSectors :=
    fun y => Nat.zero_add _
  have hsize := h.size
  have hnd : numDirEntries = 10 := rfl
  have hd := h.live.idle.ready.disk
  have hlast := (hd.file x i hi).sound.last
  rcases (h.file_iff hempty).mp (Option.isSome_iff_exists.mpr ⟨i, hi⟩) with rfl | ⟨q, hq, rfl⟩
  · obtain ⟨t, hroot, hsectors⟩ := h.live.small_root (by omega)
    obtain rfl := Option.some.inj (hi.symm.trans hroot)
    rw [hsingle] at hsectors
    exact ⟨rfl, hsectors.le, hlast⟩
  · obtain ⟨x, hx, hfile, hzero⟩ := hempty q hq
    rw [hx] at hi ⊢
    obtain rfl := Option.some.inj (hi.symm.trans hfile)
    have hcount := ((hd.file x _ hfile).regular rfl).sectorCount_eq
    rw [hzero, hsingle] at hcount
    refine ⟨rfl, ?_, hlast⟩
    rw [hcount]
    decide

/-- The first file is found. -/
theorem Crowded.find_first (h : Crowded k free w V rest) (hk : 0 < k) :
    (tableAt w.sys.disk directorySector).find (letter 0) =
      some (V.slot directorySector 0).sector := by
  have hslot := h.live.idle.ready.disk.slot_eq h.live.idle.kind 0
  have hindex : (tableAt w.sys.disk directorySector).findIndex (letter 0) = some 0 := by
    refine Directory.findIndex_iff.mpr ⟨?_, fun q hq => absurd hq (Nat.not_lt_zero q)⟩
    rw [hslot]
    exact h.named 0 hk
  rw [Directory.find_eq, hindex, Option.map_some, hslot]

/-- `Open` of the first file. -/
theorem Crowded.openFile (h : Crowded k free w V rest) (hempty : Untouched k w V) (hk : 0 < k) :
    ∃ s' f V' rest', w.perform (.openFile (letter 0)) = some ⟨s', f :: w.handles⟩ ∧
      Crowded k free ⟨s', f :: w.handles⟩ V' rest' ∧ Untouched k ⟨s', f :: w.handles⟩ V' ∧
      (s'.openFile f).sector = (V'.slot directorySector 0).sector := by
  have hfind := h.find_first hk
  obtain ⟨r, s', hperform, hs, ⟨-, hnone, -⟩ | ⟨f, x, rfl, hsome, hl'⟩⟩ := h.live.opened (letter 0)
  · rw [hfind] at hnone
    cases hnone
  obtain rfl := Option.some.inj (hfind.symm.trans hsome)
  have hdisk : s'.disk = w.sys.disk := hs.disk
  have hlegal : w.Legal (.openFile (letter 0)) := trivial
  have hheap := hlegal.heap_eq hperform
  refine ⟨s', f, _, _, hperform, ⟨hl', h.used, h.named, hs.directorySize.trans h.size, ?_,
    hheap.trans h.heap⟩, ?_, ?_⟩
  · show (mapAt s'.disk).countClear = free
    rw [hdisk]
    exact h.free
  · show ∀ q, q < k → ∃ x, _ ∧ _ ∧ fileLength s'.disk [x] = 0
    rw [hdisk]
    exact hempty
  · exact hl'.idle.ready.handles.sector f _ (List.mem_cons_of_mem _ List.mem_cons_self)

/-- `Write` to the first file. -/
theorem Crowded.write (h : Crowded k free w V rest) (hempty : Untouched k w V) (hk : 0 < k) {f : ℕ}
    (hf : f ∈ w.handles) (hsector : (w.sys.openFile f).sector = (V.slot directorySector 0).sector)
    (src : ℕ → UInt8) {n : ℕ} (hn : 0 < n) :
    w.Legal (.write f src n) ∧ ∃ x m s' V', w.perform (.write f src n) = some { w with sys := s' } ∧
      Live { w with sys := s' } V' directorySector rest ∧ V.files x = some ⟨[x], none⟩ ∧
      sectorCount w.sys.disk [x] = 0 ∧ fileLength w.sys.disk [x] = 0 ∧
      Wrote V w.sys f x [x] 0 src n m V' s' ∧
      chainOn w.sys.disk (w.sys.openFile f).sector = [x] ∧
      positionOf [x] (w.sys.openFile f) = 0 := by
  have hi := h.live.idle
  have hd := hi.ready.disk
  obtain ⟨x, hx, hfile, hzero⟩ := hempty 0 hk
  have hused := (h.used 0).mpr hk
  have hregular : (V.slot directorySector 0).isDirectory = false := by
    have hkind := (hi.ready.tree.entry _ _ hused).1
    rw [hx, kind_of_files hfile] at hkind
    exact (Option.some.inj hkind).symm
  have hfound : Found w.sys.disk ([] ++ [0]) (w.sys.openFile f).sector false := by
    have hslot := hd.slot_eq hi.kind 0
    have hroot : Found w.sys.disk [] directorySector true := .root
    have hentry := Found.entry 0 hroot (by rw [hslot]; exact hused)
    rw [hslot, hregular, ← hsector] at hentry
    exact hentry
  refine ⟨⟨hf, _, hfound⟩, ?_⟩
  obtain ⟨m, s', V', hperform, hlive, hw⟩ := h.live.wrote hf hfound src hn
  have hok : FileOk w.sys.disk [x] := (hd.file x _ hfile).regular rfl
  have hcount : sectorCount w.sys.disk [x] = 0 := by
    rw [hok.sectorCount_eq, hzero]
    rfl
  -- an open file is at the start of a file without bytes
  have hposition : positionOf [x] (w.sys.openFile f) = 0 := by
    obtain ⟨hmem, -⟩ := h.live.handle hf
    rw [hsector, hx] at hmem
    obtain ⟨p, hcur⟩ := hi.ready.handles.cursor f x [x]
      (by rw [hi.handles]; exact List.mem_cons_of_mem _ hmem) hfile
    rw [hcur.position_eq hok.sound]
    obtain ⟨i, hi', -, hp, hseek⟩ := hcur
    obtain rfl : i = 0 := Nat.lt_one_iff.mp hi'
    have hbytes :
        fileLength w.sys.disk [x] = headerBytes * 0 + (headerOf w.sys.disk [x] 0).numBytes :=
      rfl
    omega
  have hchain : chainOn w.sys.disk x = [x] := hd.chainOn_eq hfile
  rw [hsector, hx, hchain, hposition] at hw
  exact ⟨x, m, s', V', hperform, hlive, hfile, hcount, hzero, hw, by rw [hsector, hx, hchain],
    hposition⟩

/-- What is left when `n` bytes, with `headers` headers, were written to the first file. -/
theorem Crowded.wrote {s' : System} {V' : Volume} {f x n m left : ℕ} {src : ℕ → UInt8}
    (h : Crowded k free w V rest) (headers : ℕ)
    (hlive : Live { w with sys := s' } V' directorySector rest)
    (hempty : fileLength w.sys.disk [x] = 0) (hcount : sectorCount w.sys.disk [x] = 0)
    (hw : Wrote V w.sys f x [x] 0 src n m V' s')
    (hample : Ample w.sys.disk [x] (mapAt w.sys.disk) 0 n)
    (hmore : headerBytes * (headers - 1) < n) (hle : n < headerBytes * headers)
    (hleft : left + divRoundUp n sectorSize + headers = free + 1)
    (hheap : s'.heap = w.sys.heap) :
    Crowded k left { w with sys := s' } V' rest := by
  have hd := h.live.idle.ready.disk
  have hd' := hlive.idle.ready.disk
  have hmap : mapAt s'.disk = mapOn s'.disk V.map := by
    rw [← hw.map]
    exact hd'.mapAt_eq
  refine ⟨hlive, fun q => ?_, fun q hq => ?_, hw.directorySize.trans h.size, ?_,
    hheap.trans h.heap⟩
  · rw [hw.slot]
    exact h.used q
  · rw [hw.slot]
    exact h.named q hq
  · rw [hd.mapAt_eq] at hample
    obtain rfl := hw.ample hample
    obtain ⟨chain', hfile', hholds, -⟩ := hw.file
    have hok : FileOk s'.disk chain' := (hd'.file x _ hfile').regular rfl
    have hlen : fileLength s'.disk chain' = m := by
      rw [hholds.length, hempty]
      omega
    have hbounds := hok.length_bounds
    have hpos := hok.pos
    have hhb : headerBytes = 3712 := rfl
    rw [hlen, hhb] at hbounds
    rw [hhb] at hmore hle
    have hheaders : chain'.length = headers := by omega
    have hsum := hw.count (Or.inr (Or.inl hample.2)) chain' hfile'
    rw [hok.sectorCount_eq, hlen, hheaders, hcount, List.length_singleton, ← hd.mapAt_eq, h.free]
      at hsum
    show (mapAt s'.disk).countClear = left
    rw [hmap]
    omega

end Crowded

/-- `k` files are created. -/
def crowd : ℕ → List Call
  | 0 => []
  | k + 1 => crowd k ++ [.create (letter k)]

theorem blankDisk_free : (mapAt blankDisk).countClear = 1018 := by
  have hmap : mapAt blankDisk = fun x => decide (x < 6) := funext blankDisk_mapAt
  rw [hmap]
  decide +kernel

theorem crowded_blank : ∃ w₀ handles rest, World.boot blankDisk = some w₀ ∧
    Crowded 0 1018 w₀ (emptyVolume blankDisk handles) rest ∧
    Untouched 0 w₀ (emptyVolume blankDisk handles) := by
  obtain ⟨w₀, handles, rest, hboot, hl, hdisk, hsize⟩ := blankDisk_formatted.live
  refine ⟨w₀, handles, rest, hboot, ⟨hl, fun q => ?_, fun q hq => absurd hq (Nat.not_lt_zero q),
    hsize, ?_, World.boot_heap hboot⟩, fun q hq => absurd hq (Nat.not_lt_zero q)⟩
  · rw [(blankDisk_formatted.emptyVolume_slot directorySector q).1]
    exact ⟨fun h => (nomatch h), fun h => absurd h (Nat.not_lt_zero q)⟩
  · rw [hdisk]
    exact blankDisk_free

/-- **Up to twelve files** can be created on the blank volume. -/
theorem crowded {k : ℕ} (hk : k ≤ 12) : ∃ w₀ w V rest, World.boot blankDisk = some w₀ ∧
    Session (fun w call => w.Legal call ∧ w.Typed call ∧ w.Keeps call ∧ w.Returns call) w₀
      (crowd k) w ∧
    Crowded k (1018 - k) w V rest ∧ Untouched k w V := by
  induction k with
  | zero =>
    obtain ⟨w₀, handles, rest, hboot, h, hempty⟩ := crowded_blank
    exact ⟨w₀, w₀, _, rest, hboot, .start, h, hempty⟩
  | succ k ih =>
    obtain ⟨w₀, w, V, rest, hboot, hs, h, hempty⟩ := ih (by omega)
    rw [show 1018 - k = 1018 - (k + 1) + 1 by omega] at h
    obtain ⟨s', V', hperform, h', hempty'⟩ := h.create hempty (by omega)
    have hrel := letter_head k (by omega)
    have hlegal : w.Legal (.create (letter k)) := fun habs => absurd habs hrel
    have hreturns : w.Returns (.create (letter k)) := fun habs => absurd habs hrel
    exact ⟨w₀, _, V', rest, hboot,
      hs.next _ ⟨hlegal, hlegal.typed h.heap, h.keeps (by omega), hreturns⟩ hperform, h', hempty'⟩

/-- Twelve files are created, and `sectors` sectors are written to the first of them. -/
def fill (f sectors : ℕ) : List Call :=
  crowd 12 ++ [.openFile (letter 0)] ++ [.write f (fun _ => 0) (sectors * sectorSize)]

/-- **The blank volume can be filled**, up to the last sector. -/
theorem filled (sectors left : ℕ) (hlt : headerBytes * 33 < sectors * sectorSize)
    (hle : sectors * sectorSize < headerBytes * 34) (hleft : left + sectors = 973) :
    ∃ w₀ f w V rest, World.boot blankDisk = some w₀ ∧ Session World.Legal w₀ (fill f sectors) w ∧
      Crowded 12 left w V rest := by
  have hss : sectorSize = 128 := rfl
  have hhb : headerBytes = 3712 := rfl
  have hnd : numDirect = 29 := rfl
  rw [hss, hhb] at hlt hle
  obtain ⟨w₀, w₁, V₁, rest₁, hboot, hkeeping, h₁, hempty₁⟩ := crowded (k := 12) le_rfl
  have hs₁ : Session World.Legal w₀ (crowd 12) w₁ := Run.mono (fun _ _ _ hg => hg.1) hkeeping
  obtain ⟨s₂, f, V₂, rest₂, hopen, h₂, hempty₂, hsector⟩ := h₁.openFile hempty₁ (by decide)
  obtain ⟨hlegal, x, m, s₃, V₃, hwrite, hlive, -, hcount, hzero, hw, -⟩ :=
    h₂.write hempty₂ (by decide) List.mem_cons_self hsector (fun _ => 0)
      (n := sectors * sectorSize) (by rw [hss]; omega)
  have hsectors : divRoundUp (sectors * sectorSize) sectorSize = sectors := by
    rw [hss, divRoundUp, Nat.mul_div_cancel _ (by decide), Nat.mul_mod_left]
    rfl
  have hdata :
      divRoundUp (0 + sectors * sectorSize - headerBytes * 1) sectorSize = sectors - 29 := by
    rw [hss, hhb, show 0 + sectors * 128 - 3712 * 1 = (sectors - 29) * 128 by omega, divRoundUp,
      Nat.mul_div_cancel _ (by decide), Nat.mul_mod_left]
    rfl
  have hheaders : divRoundUp (sectors - 29) numDirect = 33 := by
    rw [hnd, divRoundUp]
    split <;> omega
  have hample : Ample s₂.disk [x] (mapAt s₂.disk) 0 (sectors * sectorSize) := by
    have hnone : sectorCount s₂.disk [x] = 0 := hcount
    have hfree : (mapAt s₂.disk).countClear = 1018 - 12 := h₂.free
    refine ⟨?_, ?_⟩
    · rw [Short, hnone, hfree, List.length_singleton, lt_divRoundUp_iff (by decide), hss, hhb]
      omega
    · rw [List.length_singleton, hdata, hheaders, hnone, hfree, hnd]
      omega
  refine ⟨w₀, f, _, V₃, rest₂, hboot,
    (hs₁.next (.openFile (letter 0)) trivial hopen).next _ hlegal hwrite, ?_⟩
  refine h₂.wrote 34 hlive hzero hcount hw hample ?_ ?_ ?_ (hlegal.heap_eq hwrite)
  · rw [hss, hhb]
    omega
  · rw [hss, hhb]
    omega
  · rw [hsectors]
    omega

end PaldOs
