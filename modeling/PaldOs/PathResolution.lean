import PaldOs.Booting
import PaldOs.PathBuffers

/-! # Following an absolute path

`ChangeDir` looks every component of an absolute path up twice: in a copy of the table of the
directory it has got to, and with `Open`, which reads the current directory again.  In a tree in
which names are different the two agree, and the directory it ends in is the one that `Leads` gives:
every component is the name of a directory in the directory before it, from the root on.  This is
so for the paths that have room in `nameCopy`; nothing bounds the slashes between the components.
-/
namespace PaldOs

open Sys

/-- **The components lead to the directory at `h`**, from the root through directories of these
names. -/
inductive Leads (disk : ℕ → Sector) : List (List UInt8) → ℕ → Prop
  | root : Leads disk [] directorySector
  | entry {names : List (List UInt8)} {h j : ℕ} {name : List UInt8} : Leads disk names h →
      ((tableAt disk h).slot j).named name = true → ((tableAt disk h).slot j).isDirectory = true →
      Leads disk (names ++ [name]) ((tableAt disk h).slot j).sector

/-- A change of the directory for every component in turn. -/
def FileSystem.changeDirs : List (List UInt8) → Sys Bool
  | [] => return true
  | name :: names => do
      if ← FileSystem.changeDir name true then changeDirs names else return false

section Leads
variable {D : Discipline} {V : Volume} {disk : ℕ → Sector} {x : ℕ}

theorem resolve_append (table : ℕ → Directory) (names : List (List UInt8)) (name : List UInt8)
    (c : ℕ) : resolve table c (names ++ [name]) =
      (resolve table c names).bind fun h => resolve table h [name] := by
  induction names generalizing c with
  | nil => rfl
  | cons n names ih =>
    rw [List.cons_append, resolve, resolve]
    by_cases hdir : (table c).findDir n = true
    · rw [if_pos hdir, if_pos hdir]
      cases (table c).find n with
      | none => rfl
      | some next => exact ih next
    · rw [if_neg hdir, if_neg hdir]
      rfl

/-- One component: an entry of a directory. -/
theorem TreeOk.resolve_one (ht : TreeOk V) {h : ℕ} (hk : V.kind h = some true) (name : List UInt8) :
    resolve V.table h [name] = some x ↔ ∃ j, (V.slot h j).named name = true ∧
      (V.slot h j).isDirectory = true ∧ (V.slot h j).sector = x := by
  obtain ⟨chain, t, hi⟩ := kind_true_iff.mp hk
  have hslot : ∀ q, V.slot h q = t.slot q := slot_of_files hi
  rw [resolve, table_of_files hi]
  constructor
  · intro hres
    by_cases hdir : t.findDir name = true
    · rw [if_pos hdir, Option.bind_eq_some_iff] at hres
      obtain ⟨y, hy, hres⟩ := hres
      obtain rfl : y = x := Option.some.inj hres
      obtain ⟨j, hnamed, hsector⟩ := (ht.find_iff hi).mp hy
      obtain ⟨q, hq, hqdir⟩ := Directory.findDir_iff.mp hdir
      rw [← hslot] at hq hqdir
      obtain rfl := ht.named_unique hq hnamed
      exact ⟨q, hq, hqdir, hsector⟩
    · rw [if_neg hdir] at hres
      cases hres
  · rintro ⟨j, hnamed, hdir, rfl⟩
    have hfound : t.findDir name = true := by
      refine Directory.findDir_iff.mpr ⟨j, ?_, ?_⟩
      · rwa [← hslot]
      · rwa [← hslot]
    rw [if_pos hfound, (ht.find_iff hi).mpr ⟨j, hnamed, rfl⟩]
    rfl

/-- **The components lead to where they are resolved to.** -/
theorem DiskOk.leads_iff (hd : DiskOk D V disk) (ht : TreeOk V) (names : List (List UInt8)) :
    ∀ {x : ℕ}, Leads disk names x ↔ resolve V.table directorySector names = some x := by
  -- by induction from the end: `Leads` adds a component behind the others
  induction names using List.reverseRecOn with
  | nil =>
    intro x
    constructor
    · intro hl
      generalize hnames : ([] : List (List UInt8)) = names at hl
      cases hl with
      | root => rfl
      | entry hl _ _ => exact absurd hnames.symm (List.append_ne_nil_of_right_ne_nil _ (by simp))
    · intro hres
      obtain rfl : directorySector = x := Option.some.inj hres
      exact .root
  | append_singleton names name ih =>
    intro x
    rw [resolve_append, Option.bind_eq_some_iff]
    constructor
    · intro hl
      generalize hnames : names ++ [name] = all at hl
      cases hl with
      | root => exact absurd hnames (List.append_ne_nil_of_right_ne_nil _ (by simp))
      | @entry names' h j name' hl hnamed hdir =>
        obtain ⟨rfl, hname⟩ := List.append_inj' hnames rfl
        obtain rfl : name = name' := List.singleton_inj.mp hname
        have hh := ih.mp hl
        have hk := ht.resolve_kind names ht.root hh
        rw [hd.slot_eq hk] at hnamed hdir ⊢
        exact ⟨h, hh, (ht.resolve_one hk name).mpr ⟨j, hnamed, hdir, rfl⟩⟩
    · rintro ⟨h, hh, hres⟩
      have hk := ht.resolve_kind names ht.root hh
      obtain ⟨j, hnamed, hdir, rfl⟩ := (ht.resolve_one hk name).mp hres
      rw [← hd.slot_eq hk] at hnamed hdir ⊢
      exact .entry (ih.mpr hh) hnamed hdir

end Leads

section Walk
variable {D : Discipline} {V : Volume} {s : System} {c x : ℕ} {rest : List (ℕ × ℕ)}

/-- The components of a path have no slash. -/
theorem slash_not_mem_splitOn (path : List UInt8) : ∀ name ∈ path.splitOn slash, slash ∉ name := by
  induction path with
  | nil =>
    intro name hname
    rw [List.splitOn_nil, List.mem_singleton] at hname
    rw [hname]
    exact List.not_mem_nil
  | cons b path ih =>
    rw [List.splitOn_cons_eq_if_modifyHead]
    split
    · exact List.forall_mem_cons.mpr ⟨List.not_mem_nil, ih⟩
    · rename_i hb
      cases hsplit : path.splitOn slash with
      | nil => exact absurd hsplit (List.splitOn_ne_nil _ _)
      | cons first others =>
        rw [hsplit] at ih
        obtain ⟨hfirst, hothers⟩ := List.forall_mem_cons.mp ih
        refine List.forall_mem_cons.mpr ⟨fun hmem => ?_, hothers⟩
        rcases List.mem_cons.mp hmem with he | hmem
        · exact hb (by rw [he, beq_self_eq_true])
        · exact hfirst hmem

theorem tokens_head {path name : List UInt8} (h : name ∈ tokens path) :
    name.head? ≠ some slash := by
  have hnot := slash_not_mem_splitOn path name (List.mem_of_mem_filter h)
  intro hhead
  exact hnot (List.mem_of_mem_head? hhead)

/-- **One component after the other**, from the current directory. -/
theorem Ready.changeDirs (names : List (List UInt8)) : ∀ {s : System} {c : ℕ} {chain : List ℕ}
    {t : Directory}, Ready D { V with handles := (s.directoryFile, c) :: rest } s →
      V.files c = some ⟨chain, some t⟩ → s.directorySize = t.length →
      (∀ name ∈ names, name.head? ≠ some slash) → resolve V.table c names = some x →
      s.Ends (FileSystem.changeDirs names) (fun r s' => r = true ∧ Moved D V rest x s s') := by
  induction names with
  | nil =>
    intro s c chain t hr hi hsize _ hres
    obtain rfl : c = x := Option.some.inj hres
    exact Prog.ends_pure.mpr ⟨rfl, Kept.refl s, hr, chain, t, hi, hsize⟩
  | cons name names ih =>
    intro s c chain t hr hi hsize hrel hres
    obtain ⟨hname, hrel⟩ := List.forall_mem_cons.mp hrel
    have ha : AtDir { V with handles := (s.directoryFile, c) :: rest } s c chain t :=
      ⟨List.mem_cons_self, hi, hsize.ge, hsize.le.trans (Nat.le_succ _)⟩
    obtain ⟨next, hnext, hthere⟩ : ∃ next, resolve V.table c [name] = some next ∧
        resolve V.table next names = some x := by
      rw [resolve] at hres ⊢
      by_cases hdir : (V.table c).findDir name = true
      · rw [if_pos hdir, Option.bind_eq_some_iff] at hres
        obtain ⟨next, hnext, hthere⟩ := hres
        refine ⟨next, ?_, hthere⟩
        rw [if_pos hdir, hnext]
        rfl
      · rw [if_neg hdir] at hres
        cases hres
    unfold FileSystem.changeDirs
    refine Prog.ends_bind.mpr ((hr.changeDir ha fun habs => absurd habs hname).mono ?_)
    rintro r s₁ (⟨c', rfl, hc', hm⟩ | ⟨-, hnone, -⟩)
    · rw [destination, if_neg hname, hnext, Option.some.injEq] at hc'
      subst hc'
      obtain ⟨chain', t', hi', hsize'⟩ := hm.size
      rw [if_pos rfl]
      refine (ih hm.ready hi' hsize' hrel hthere).mono ?_
      rintro r s₂ ⟨hr₂, hm₂⟩
      exact ⟨hr₂, hm.kept.trans hm₂.kept, hm₂.ready, hm₂.size⟩
    · rw [destination, if_neg hname, hnext] at hnone
      cases hnone

/-- Where the current directory is after a change of the directory. -/
theorem Moved.current {s' : System} (hm : Moved D V rest x s s') (hd : DiskOk D V s.disk) :
    (s'.openFile s'.directoryFile).sector = x ∧
      s'.directorySize = (tableAt s.disk x).length := by
  obtain ⟨chain, t, hi, hsize⟩ := hm.size
  refine ⟨hm.ready.handles.sector _ _ List.mem_cons_self, ?_⟩
  rw [hsize, hd.tableAt_eq hi]

/-- **What `ChangeDir` is to do with an absolute path**: it comes back, and succeeds exactly if the
components lead to a directory from the root; then this is the current directory, with the number
of its entries, as after a change for every component, and otherwise the current directory is the
one it was. -/
def Resolves (s : System) (name : List UInt8) (onlyChange : Bool) : Prop :=
  ∃ r s', (FileSystem.changeDir name onlyChange).run System.act s = some (r, s') ∧
    (r = true ↔ ∃ x, Leads s.disk (tokens name.tail) x) ∧
    (r = true → ∃ x s'', Leads s.disk (tokens name.tail) x ∧
      (s'.openFile s'.directoryFile).sector = x ∧
      s'.directorySize = (tableAt s.disk x).length ∧
      (FileSystem.changeDirs ([slash] :: tokens name.tail)).run System.act s = some (true, s'') ∧
      (s''.openFile s''.directoryFile).sector = x ∧
      s''.directorySize = (tableAt s.disk x).length) ∧
    (r = false → s'.directoryFile = s.directoryFile ∧ s'.directorySize = s.directorySize ∧
      (s'.openFile s'.directoryFile).sector = (s.openFile s.directoryFile).sector)

/-- A path of at most nine components that has room in `nameCopy` is followed. -/
theorem Ready.resolves (hr : Ready D V s) (hhandles : V.handles = (s.directoryFile, c) :: rest)
    (hc : (V.files c).isSome = true) {name : List UInt8} (habs : name.head? = some slash)
    (hlen : name.length ≤ filePathMaxLen) (hnames : (tokens name.tail).length ≤ 9)
    (onlyChange : Bool) : Resolves s name onlyChange := by
  have hd := hr.disk
  have hleads : ∀ x, Leads s.disk (tokens name.tail) x ↔
      resolve V.table directorySector (tokens name.tail) = some x :=
    fun x => hd.leads_iff hr.tree _
  have hr' : Ready D { V with handles := (s.directoryFile, c) :: rest } s := by
    rw [← hhandles]
    exact hr
  have hlength : name.tail.length < filePathMaxLen := by
    cases name with
    | nil => cases habs
    | cons b path => exact hlen
  have hlevel : (tokens name.tail).length < maxDirLevel := Nat.lt_succ_of_le hnames
  have hsector := hr'.handles.sector _ _ List.mem_cons_self
  obtain ⟨r, s', hrun, hcases⟩ := hr'.changeDirFromRoot hc onlyChange hlength hlevel
  have hchange : FileSystem.changeDir name onlyChange =
      FileSystem.changeDirFromRoot name.tail onlyChange := by
    unfold FileSystem.changeDir
    rw [if_pos habs]
  refine ⟨r, s', by rw [hchange]; exact hrun, ?_⟩
  rcases hcases with ⟨x, rfl, hx, hm⟩ | ⟨x, rfl, hnone, hlost⟩
  · obtain ⟨hcurrent, hsize⟩ := hm.current hd
    refine ⟨iff_of_true rfl ⟨x, (hleads x).mpr hx⟩, fun _ => ?_, (fun h => by cases h)⟩
    -- the same from the root, one component after the other
    have hsteps : s.Ends (FileSystem.changeDirs ([slash] :: tokens name.tail))
        (fun r s'' => r = true ∧ Moved D V rest x s s'') := by
      rw [FileSystem.changeDirs]
      have hroot : s.Ends (FileSystem.changeDirFromRoot [] true) _ :=
        hr'.changeDirFromRoot hc true (by decide) (by decide)
      refine Prog.ends_bind.mpr (hroot.mono ?_)
      rintro r₁ s₁ (⟨c₁, rfl, hc₁, hm₁⟩ | ⟨-, -, hnone, -⟩)
      · obtain rfl : directorySector = c₁ := Option.some.inj hc₁
        obtain ⟨chain, t, hi, hsize₁⟩ := hm₁.size
        rw [if_pos rfl] at hm₁ ⊢
        refine (Ready.changeDirs _ hm₁.ready hi hsize₁ (fun _ => tokens_head) hx).mono ?_
        rintro r₂ s₂ ⟨hr₂, hm₂⟩
        exact ⟨hr₂, hm₁.kept.trans hm₂.kept, hm₂.ready, hm₂.size⟩
      · cases hnone
    obtain ⟨r'', s'', hrun'', rfl, hm''⟩ := hsteps
    obtain ⟨hcurrent'', hsize''⟩ := hm''.current hd
    exact ⟨x, s'', (hleads x).mpr hx, hcurrent, hsize, hrun'', hcurrent'', hsize''⟩
  · refine ⟨iff_of_false (by decide) ?_, (fun h => by cases h),
      fun _ => ⟨hlost.same.directoryFile, hlost.same.directorySize, ?_⟩⟩
    · rintro ⟨y, hy⟩
      rw [hleads, hnone] at hy
      cases hy
    · rw [hsector]
      refine hlost.ready.handles.sector _ _ ?_
      rw [hlost.same.directoryFile]
      exact List.mem_cons_self

/-- Slashes have no component. -/
theorem tokens_slashes (n : ℕ) : tokens (List.replicate n slash) = [] := by
  induction n with
  | zero => rfl
  | succ n ih => rw [List.replicate_succ, PathBuffers.tokens_slash, ih]

/-- A longer path does not get past its copy. -/
theorem FileSystem.changeDir_length {name : List UInt8} (habs : name.head? = some slash)
    {onlyChange : Bool} (h : s.Ends (FileSystem.changeDir name onlyChange) fun _ _ => True) :
    name.length ≤ filePathMaxLen := by
  unfold FileSystem.changeDir FileSystem.changeDirFromRoot at h
  rw [if_pos habs] at h
  have hlt := (ends_assert.mp (Prog.ends_bind.mp h)).1
  rw [List.length_tail] at hlt
  omega

/-- **Absolute paths of at most nine components** are followed exactly if they have room in
`nameCopy`. -/
theorem changeDir_resolves_iff (hr : Ready D V s)
    (hhandles : V.handles = (s.directoryFile, c) :: rest) (hc : (V.files c).isSome = true)
    {name : List UInt8} (habs : name.head? = some slash)
    (hnames : (tokens name.tail).length ≤ 9) (onlyChange : Bool) :
    Resolves s name onlyChange ↔ name.length ≤ filePathMaxLen := by
  constructor
  · rintro ⟨r, s', hrun, -⟩
    exact FileSystem.changeDir_length habs ⟨r, s', hrun, trivial⟩
  · exact fun hlen => hr.resolves hhandles hc habs hlen hnames onlyChange

end Walk

/-! ### Directories one in the other -/

/-- The sector of the header of the directory `k` levels below the root. -/
def levelSector (k : ℕ) : ℕ := if k = 0 then directorySector else 4 * k + 2

/-- The first entry of its table: `a` in the root, `b` in `a` and nothing in `b`. -/
def levelEntry (k : ℕ) : DirectoryEntry :=
  if k < 2 then DirectoryEntry.fresh.filled [97 + k.toUInt8] (levelSector (k + 1)) true else .fresh

/-- Its table. -/
def levelTable (k : ℕ) : Directory := levelEntry k :: List.replicate 9 .fresh

/-- A disk with the directories `/a` and `/a/b`. -/
def nestedDisk : ℕ → Sector
  | 0 => blankMapHeader.toSector
  | 1 => (tableHeader 3).toSector
  | 2 => Bitmap.toBytes fun x => decide (x < 14)
  | x + 3 =>
      if x % 4 = 3 then (tableHeader (x + 4)).toSector
      else fun o => (levelTable (x / 4)).toBytes (sectorSize * (x % 4) + o)

/-- Its volume. -/
def nestedVolume : Volume where
  map := 2
  files h := ((List.range 3).find? fun k => levelSector k == h).map fun k =>
    ⟨[levelSector k], some (levelTable k)⟩
  leaked _ := False
  handles := []
  extra _ := 0

section Nested
variable {k h j x : ℕ}

theorem levelSector_cases (k : ℕ) : k = 0 ∧ levelSector k = 1 ∨
    k ≠ 0 ∧ levelSector k = 4 * k + 2 := by
  unfold levelSector
  split
  · exact Or.inl ⟨‹_›, rfl⟩
  · exact Or.inr ⟨‹_›, rfl⟩

theorem nestedDisk_levelSector (k : ℕ) :
    nestedDisk (levelSector k) = (tableHeader (4 * k + 3)).toSector := by
  cases k with
  | zero => rfl
  | succ n =>
    have hsector : levelSector (n + 1) = 4 * n + 3 + 3 := by
      rw [levelSector, if_neg (Nat.succ_ne_zero n)]
      omega
    rw [hsector, nestedDisk, if_pos (by omega)]
    rfl

theorem nestedDisk_header (hk : k < 3) :
    headerOn nestedDisk (levelSector k) = tableHeader (4 * k + 3) := by
  have hns : numSectors = 1024 := rfl
  exact headerOn_tableHeader (by omega) (nestedDisk_levelSector k)

theorem nestedDisk_map : headerOn nestedDisk freeMapSector = blankMapHeader := blankDisk_map

theorem nestedDisk_byte (k : ℕ) {p : ℕ} (hp : p < directoryFileSize) :
    (tableHeader (4 * k + 3)).byte nestedDisk p = (levelTable k).toBytes p := by
  have hss : sectorSize = 128 := rfl
  have hsize : directoryFileSize = 320 := rfl
  have hindex : p / sectorSize < 3 := by
    rw [hss]
    omega
  have hdata : (tableHeader (4 * k + 3)).dataSectors (p / sectorSize) =
      4 * k + p / sectorSize + 3 := by
    show (if p / sectorSize < 3 then 4 * k + 3 + p / sectorSize else 0) = _
    rw [if_pos hindex]
    omega
  rw [RawFileHeader.byte, hdata]
  generalize hq : p / sectorSize = q at hindex
  have hdiv : (4 * k + q) / 4 = k := by omega
  have hmod : (4 * k + q) % 4 = q := by omega
  rw [nestedDisk, hdiv, hmod, if_neg (by omega), ← hq, Nat.div_add_mod]

theorem levelEntry_of_lt (hk : k < 2) : levelEntry k =
    DirectoryEntry.fresh.filled [97 + k.toUInt8] (levelSector (k + 1)) true := if_pos hk

theorem levelTable_slot (k : ℕ) : (levelTable k).slot (j + 1) = .fresh := by
  rw [levelTable, Directory.slot_cons_succ]
  rcases Nat.lt_or_ge j 9 with hlt | hge
  · rw [Directory.slot, List.getD_eq_getElem _ _ (by rwa [List.length_replicate]),
      List.getElem_replicate]
  · exact Directory.slot_of_le (by rwa [List.length_replicate])

/-- What is in use is the first entry of the first two. -/
theorem levelTable_inUse : ((levelTable k).slot j).inUse = true ↔ k < 2 ∧ j = 0 := by
  cases j with
  | zero =>
    show (levelEntry k).inUse = true ↔ _
    rw [levelEntry]
    split
    · rename_i hk
      exact iff_of_true rfl ⟨hk, rfl⟩
    · rename_i hk
      exact iff_of_false (by decide) fun h => hk h.1
  | succ j =>
    rw [levelTable_slot]
    exact iff_of_false (by decide) fun h => Nat.succ_ne_zero j h.2

theorem nestedVolume_level (hk : k < 3) : nestedVolume.files (levelSector k) =
    some ⟨[levelSector k], some (levelTable k)⟩ := by
  obtain rfl | rfl | rfl : k = 0 ∨ k = 1 ∨ k = 2 := by omega
  · rfl
  · rfl
  · rfl

theorem nestedVolume_files {i : FileInfo} (hi : nestedVolume.files h = some i) :
    ∃ k, k < 3 ∧ h = levelSector k ∧ i = ⟨[levelSector k], some (levelTable k)⟩ := by
  obtain ⟨k, hk, rfl⟩ := Option.map_eq_some_iff.mp hi
  have hsector := List.find?_some (p := fun k => levelSector k == h) hk
  exact ⟨k, List.mem_range.mp (List.mem_of_find?_eq_some hk), (beq_iff_eq.mp hsector).symm, rfl⟩

theorem nestedDisk_uses (hk : k < 3) : Uses nestedDisk [levelSector k] x ↔
    x = levelSector k ∨ 4 * k + 3 ≤ x ∧ x < 4 * k + 6 :=
  uses_tableHeader (nestedDisk_header hk)

theorem nestedDisk_fileOk (hk : k < 3) : FileOk nestedDisk [levelSector k] := by
  have hns : numSectors = 1024 := rfl
  have hlevel := levelSector_cases k
  exact fileOk_tableHeader (nestedDisk_header hk) (by omega) (by omega)

theorem nestedVolume_diskOk : DiskOk .strict nestedVolume nestedDisk := by
  have howns : ∀ {x}, nestedVolume.Owns nestedDisk x ↔ x ≠ 0 ∧ x ≠ 2 ∧ x < 14 := by
    intro x
    constructor
    · rintro ⟨h, i, hi, hu⟩
      obtain ⟨k, hk, rfl, rfl⟩ := nestedVolume_files hi
      have hlevel := levelSector_cases k
      have hu' := (nestedDisk_uses hk).mp hu
      omega
    · intro hx
      have hk : (x - 2) / 4 < 3 := by omega
      refine ⟨_, _, nestedVolume_level hk, (nestedDisk_uses hk).mpr ?_⟩
      have hlevel := levelSector_cases ((x - 2) / 4)
      omega
  refine ⟨fun h i hi => ?_, fun h h' i i' x hi hi' hu hu' => ?_, fun x _ => ?_,
    fun x hx => hx.elim, fun h i hi => ?_, by decide, by decide, ?_⟩
  · obtain ⟨k, hk, rfl, rfl⟩ := nestedVolume_files hi
    refine .ofTable rfl (nestedDisk_fileOk hk) (.of_bytes rfl (fun q => ?_) ?_ fun p hp => ?_)
    · cases q with
      | zero =>
        show (levelEntry k).sector < 2 ^ 32
        rw [levelEntry]
        split
        · have hlevel := levelSector_cases (k + 1)
          show levelSector (k + 1) < 2 ^ 32
          omega
        · decide
      | succ q =>
        rw [levelTable_slot]
        decide
    · rw [nestedDisk_header hk]
      rfl
    · rw [nestedDisk_header hk]
      exact nestedDisk_byte k hp
  · obtain ⟨k, hk, rfl, rfl⟩ := nestedVolume_files hi
    obtain ⟨k', hk', rfl, rfl⟩ := nestedVolume_files hi'
    have hlevel := levelSector_cases k
    have hlevel' := levelSector_cases k'
    have hx := (nestedDisk_uses hk).mp hu
    have hx' := (nestedDisk_uses hk').mp hu'
    have heq : k = k' := by omega
    rw [heq]
  · have hdata : mapOn nestedDisk nestedVolume.map x = decide (x < 14) := by
      show Bitmap.ofBytes (Bitmap.toBytes fun x => decide (x < 14)) x = _
      rw [Bitmap.ofBytes_toBytes]
    have hiff : x < 14 ↔ x = 0 ∨ x = 2 ∨ x ≠ 0 ∧ x ≠ 2 ∧ x < 14 := by omega
    rw [hdata, howns, decide_eq_true_iff]
    exact hiff.trans (or_congr_right (or_congr_right (false_or _).symm.to_iff))
  · have howns' : ∀ {x}, Uses nestedDisk i.chain x → x ≠ 0 ∧ x ≠ 2 ∧ x < 14 :=
      fun hu => howns.mp ⟨h, i, hi, hu⟩
    exact ⟨fun hu => (howns' hu).1 rfl, fun hu => (howns' hu).2.1 rfl⟩
  · show (headerOn nestedDisk freeMapSector).numBytes = freeMapFileSize ∧
      (headerOn nestedDisk freeMapSector).numSectors = 1 ∧
      (headerOn nestedDisk freeMapSector).dataSectors 0 = 2 ∧
      (headerOn nestedDisk freeMapSector).nextFileHeader = 0
    rw [nestedDisk_map]
    exact ⟨rfl, rfl, rfl, rfl⟩

theorem nestedVolume_slot (hk : k < 3) (j : ℕ) :
    nestedVolume.slot (levelSector k) j = (levelTable k).slot j :=
  slot_of_files (nestedVolume_level hk) j

/-- The entries in use. -/
theorem nestedVolume_inUse (hu : (nestedVolume.slot h j).inUse = true) :
    ∃ k, k < 2 ∧ h = levelSector k ∧ j = 0 ∧ nestedVolume.slot h j = levelEntry k := by
  cases hi : nestedVolume.files h with
  | none =>
    rw [Volume.slot, hi] at hu
    cases hu
  | some i =>
    obtain ⟨k, hk, rfl, rfl⟩ := nestedVolume_files hi
    rw [nestedVolume_slot hk] at hu ⊢
    obtain ⟨hk', rfl⟩ := levelTable_inUse.mp hu
    exact ⟨k, hk', rfl, rfl, rfl⟩

theorem nestedVolume_tree : TreeOk nestedVolume where
  root := kind_of_files (nestedVolume_level (k := 0) (by decide))
  entry h j hu := by
    obtain ⟨k, hk, -, -, hslot⟩ := nestedVolume_inUse hu
    rw [hslot, levelEntry_of_lt hk]
    have hlevel := levelSector_cases (k + 1)
    refine ⟨kind_of_files (nestedVolume_level (Nat.succ_lt_succ hk)), ?_⟩
    show levelSector (k + 1) ≠ 1
    omega
  unused h j hu := by
    cases hi : nestedVolume.files h with
    | none => rw [Volume.slot, hi]; rfl
    | some i =>
      obtain ⟨k, hk, rfl, rfl⟩ := nestedVolume_files hi
      rw [nestedVolume_slot hk] at hu ⊢
      cases j with
      | zero =>
        have hk' : ¬ k < 2 := fun hlt => by
          rw [levelTable_inUse.mpr ⟨hlt, rfl⟩] at hu
          cases hu
        show (levelEntry k).isDirectory = false
        rw [levelEntry, if_neg hk']
        rfl
      | succ j => rw [levelTable_slot]; rfl
  once h j h' j' hu hu' heq := by
    obtain ⟨k, hk, rfl, rfl, hslot⟩ := nestedVolume_inUse hu
    obtain ⟨k', hk', rfl, rfl, hslot'⟩ := nestedVolume_inUse hu'
    rw [hslot, hslot', levelEntry_of_lt hk, levelEntry_of_lt hk'] at heq
    have hsector : levelSector (k + 1) = levelSector (k' + 1) := heq
    have hlevel := levelSector_cases (k + 1)
    have hlevel' := levelSector_cases (k' + 1)
    have hkk : k = k' := by omega
    rw [hkk]
    exact ⟨rfl, rfl⟩
  names h j j' hu hu' _ := by
    obtain ⟨-, -, -, rfl, -⟩ := nestedVolume_inUse hu
    obtain ⟨-, -, -, rfl, -⟩ := nestedVolume_inUse hu'
    rfl
  long h chain t hi := by
    obtain ⟨k, -, -, heq⟩ := nestedVolume_files hi
    rw [FileInfo.mk.injEq, Option.some.injEq] at heq
    rw [heq.2]
    exact le_of_eq rfl

theorem nestedVolume_reaches (hk : k < 3) : nestedVolume.Reaches (levelSector k) := by
  induction k with
  | zero => exact .root
  | succ k ih =>
    have hk' : k < 2 := Nat.lt_of_succ_lt_succ hk
    have hslot : nestedVolume.slot (levelSector k) 0 = levelEntry k :=
      nestedVolume_slot (Nat.lt_of_succ_lt hk) 0
    have hsector : (nestedVolume.slot (levelSector k) 0).sector = levelSector (k + 1) := by
      rw [hslot, levelEntry_of_lt hk']
      rfl
    rw [← hsector]
    refine .entry (ih (Nat.lt_of_succ_lt hk)) ?_
    rw [hslot, levelEntry_of_lt hk']
    rfl

theorem nestedVolume_reached : nestedVolume.AllReached := by
  intro h i hi
  obtain ⟨k, hk, rfl, -⟩ := nestedVolume_files hi
  exact nestedVolume_reaches hk

/-- The path `//a//b` leads through two directories to the second. -/
theorem changeDir_resolves_iff_nested : ∃ s s',
    Leads s.disk (tokens [slash, 97, slash, slash, 98]) (levelSector 2) ∧
    (Resolves s [slash, slash, 97, slash, slash, 98] true ↔
      [slash, slash, 97, slash, slash, 98].length ≤ filePathMaxLen) ∧
    (FileSystem.changeDir [slash, slash, 97, slash, slash, 98] true).run System.act s =
      some (true, s') ∧ (s'.openFile s'.directoryFile).sector = levelSector 2 := by
  obtain ⟨-, s, -, rest, hl, hdisk, -⟩ := nestedVolume_diskOk.boot nestedVolume_tree
    nestedVolume_reached (nestedVolume_level (k := 0) (by decide))
  have hr := hl.idle.ready
  have hnames : tokens [slash, 97, slash, slash, 98] = [[97], [98]] := by decide
  have hresolve : resolve nestedVolume.table directorySector [[97], [98]] =
      some (levelSector 2) := by decide
  have hleads : ∀ {x}, Leads s.disk (tokens [slash, 97, slash, slash, 98]) x ↔
      x = levelSector 2 := by
    intro x
    rw [hr.disk.leads_iff hr.tree, hnames]
    show resolve nestedVolume.table directorySector [[97], [98]] = some x ↔ _
    rw [hresolve, Option.some.injEq, eq_comm]
  have hiff : Resolves s [slash, slash, 97, slash, slash, 98] true ↔ _ :=
    changeDir_resolves_iff hr hl.idle.handles rfl rfl (by decide) true
  obtain ⟨r, s', hrun, hsuccess, hthere, -⟩ := hiff.mpr (by decide)
  obtain rfl : r = true := hsuccess.mpr ⟨_, hleads.mpr rfl⟩
  obtain ⟨x, -, hx, hcurrent, -⟩ := hthere rfl
  obtain rfl : x = levelSector 2 := hleads.mp hx
  exact ⟨s, s', hleads.mpr rfl, hiff, hrun, hcurrent⟩

/-- The root, after 201 slashes, on the blank volume: no component is missing, but `nameCopy` is
written behind its end. -/
theorem changeDir_overruns : ∃ V c rest s, Ready .strict V s ∧
    V.handles = (s.directoryFile, c) :: rest ∧ (V.files c).isSome = true ∧
    Leads s.disk (tokens (List.replicate 201 slash).tail) directorySector ∧
    ¬ PathBuffers.Within (PathBuffers.changeDir (List.replicate 201 slash)) ∧
    ¬ Resolves s (List.replicate 201 slash) true := by
  obtain ⟨w, handles, rest, -, hl, -⟩ := blankDisk_formatted.live
  have hsome : ((emptyVolume blankDisk handles).files directorySector).isSome = true := by
    rw [emptyVolume_files_self]
    rfl
  have hnil : tokens (List.replicate 201 slash).tail = [] := by
    rw [List.tail_replicate]
    exact tokens_slashes 200
  have hlong : ¬ (List.replicate 201 slash).length ≤ filePathMaxLen := by
    rw [List.length_replicate]
    decide
  refine ⟨_, _, _, w.sys, hl.idle.ready, hl.idle.handles, hsome, ?_, fun hwithin => ?_,
    fun hresolves => ?_⟩
  · rw [hnil]
    exact .root
  · have hfits := (PathBuffers.pathFits_iff _).mpr hwithin rfl
    rw [List.length_tail, List.length_replicate] at hfits
    exact absurd hfits.1 (by decide)
  · obtain ⟨r, s', hrun, -⟩ := hresolves
    refine absurd ?_ hlong
    exact FileSystem.changeDir_length rfl ⟨r, s', hrun, trivial⟩

end Nested
end PaldOs
