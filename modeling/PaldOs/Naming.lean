import PaldOs.DirectoryFiles

/-! # Finding files by their names

The operations that look up a name and change the current directory.  `AtDir` says which directory
is the current one; `directorySize` may be one more than its table has entries, after a name was
added that could not be stored.

An absolute path is followed from the root with a handle that is opened and closed at every step.
A path that leads nowhere leaves the last of these handles open, and nobody knows of it.
-/
namespace PaldOs

open Sys

/-- The table of the directory at `h`. -/
def Volume.table (V : Volume) (h : ℕ) : Directory :=
  match V.files h with
  | some ⟨_, some t⟩ => t
  | _ => []

/-- Where the names lead to, from the directory at `c`. -/
def resolve (table : ℕ → Directory) : ℕ → List (List UInt8) → Option ℕ
  | c, [] => some c
  | c, name :: rest =>
      if (table c).findDir name then
        ((table c).find name).bind fun next => resolve table next rest
      else none

/-- Where the path leads to, with the current directory at `c`. -/
def destination (table : ℕ → Directory) (c : ℕ) (name : List UInt8) : Option ℕ :=
  if name.head? = some slash then resolve table directorySector (tokens name.tail)
  else resolve table c [name]

/-- An absolute path is short enough for the buffers of `ChangeDir`. -/
def PathFits (name : List UInt8) : Prop :=
  name.head? = some slash →
    name.tail.length < filePathMaxLen ∧ (tokens name.tail).length < maxDirLevel

/-- The current directory is at `c`. -/
structure AtDir (V : Volume) (s : System) (c : ℕ) (chain : List ℕ) (t : Directory) : Prop where
  handle : (s.directoryFile, c) ∈ V.handles
  file : V.files c = some ⟨chain, some t⟩
  le : t.length ≤ s.directorySize
  size_le : s.directorySize ≤ t.length + 1

/-- The disk, the free map and `filesysCreateLock` are as they were. -/
structure Kept (s s' : System) : Prop where
  disk : s'.disk = s.disk
  freeMapFile : s'.freeMapFile = s.freeMapFile
  createLock : s'.held filesysCreateLock = s.held filesysCreateLock

theorem Kept.refl (s : System) : Kept s s := ⟨rfl, rfl, rfl⟩

theorem Kept.trans {s s' s'' : System} (h : Kept s s') (h' : Kept s' s'') : Kept s s'' :=
  ⟨h'.disk.trans h.disk, h'.freeMapFile.trans h.freeMapFile, h'.createLock.trans h.createLock⟩

theorem Same.kept {s s' : System} (h : Same s s') : Kept s s' :=
  ⟨h.disk, h.freeMapFile, h.createLock⟩

theorem Kept.setDirectory {s s' : System} (h : Kept s s') (f n : ℕ) :
    Kept s { s' with directoryFile := f, directorySize := n } :=
  ⟨h.disk, h.freeMapFile, h.createLock⟩

section Lookup
variable {D : Discipline} {V : Volume} {s s' : System} {c : ℕ} {chain : List ℕ} {t d : Directory}
  {name : List UInt8}

theorem table_of_files (hi : V.files c = some ⟨chain, some t⟩) : V.table c = t := by
  rw [Volume.table, hi]

theorem kind_true_iff : V.kind c = some true ↔ ∃ chain t, V.files c = some ⟨chain, some t⟩ := by
  rw [Volume.kind, Option.map_eq_some_iff]
  constructor
  · rintro ⟨⟨chain, table⟩, hi, ht⟩
    obtain ⟨t, rfl⟩ := Option.isSome_iff_exists.mp ht
    exact ⟨chain, t, hi⟩
  · rintro ⟨chain, t, hi⟩
    exact ⟨_, hi, rfl⟩

theorem AtDir.of_same (ha : AtDir V s c chain t) (hs : Same s s') : AtDir V s' c chain t :=
  ⟨by rw [hs.directoryFile]; exact ha.handle, ha.file, by rw [hs.directorySize]; exact ha.le,
    by rw [hs.directorySize]; exact ha.size_le⟩

theorem AtDir.relabel (ha : AtDir V s c chain t) {handles : List (ℕ × ℕ)} (extra : ℕ → ℕ)
    (hsub : (s.directoryFile, c) ∈ handles) :
    AtDir { V with handles := handles, extra := extra } s c chain t :=
  ⟨hsub, ha.file, ha.le, ha.size_le⟩

/-- No two entries of a directory have the name. -/
theorem TreeOk.named_unique (ht : TreeOk V) {h q j : ℕ} {name : List UInt8}
    (hq : (V.slot h q).named name = true) (hj : (V.slot h j).named name = true) : q = j :=
  ht.names h q j (Bool.and_eq_true_iff.mp hq).1 (Bool.and_eq_true_iff.mp hj).1
    (DirectoryEntry.sameName_of_named hq hj)

/-- An entry that has the name is the one that is found. -/
theorem TreeOk.find_iff (ht : TreeOk V) (hi : V.files c = some ⟨chain, some t⟩) {x : ℕ} :
    t.find name = some x ↔ ∃ j, (V.slot c j).named name = true ∧ (V.slot c j).sector = x := by
  have hslot : ∀ q, V.slot c q = t.slot q := slot_of_files hi
  rw [Directory.find_eq, Option.map_eq_some_iff]
  constructor
  · rintro ⟨j, hj, rfl⟩
    exact ⟨j, hslot j ▸ (Directory.findIndex_eq_some hj).2, by rw [hslot]⟩
  · rintro ⟨j, hnamed, rfl⟩
    cases hindex : t.findIndex name with
    | none =>
      rw [hslot, Directory.findIndex_eq_none hindex j] at hnamed
      cases hnamed
    | some q =>
      have hq := (Directory.findIndex_eq_some hindex).2
      rw [← hslot] at hq
      rw [ht.named_unique hnamed hq]
      exact ⟨q, rfl, by rw [hslot]⟩

/-- An entry that is found leads to a file. -/
theorem TreeOk.find {x : ℕ} (ht : TreeOk V) (hi : V.files c = some ⟨chain, some t⟩)
    (hx : t.find name = some x) : ∃ i, V.files x = some i := by
  obtain ⟨j, hnamed, rfl⟩ := (ht.find_iff hi).mp hx
  have hk := (ht.entry c j (Bool.and_eq_true_iff.mp hnamed).1).1
  rw [Volume.kind, Option.map_eq_some_iff] at hk
  obtain ⟨i, hi, -⟩ := hk
  exact ⟨i, hi⟩

/-- **The name of a directory leads to that directory**, since no other entry has the name. -/
theorem TreeOk.findDir (ht : TreeOk V) (hi : V.files c = some ⟨chain, some t⟩)
    (hd : t.findDir name = true) : ∃ x chain' t', t.find name = some x ∧
      V.files x = some ⟨chain', some t'⟩ := by
  obtain ⟨q, hq, hdir⟩ := Directory.findDir_iff.mp hd
  rw [← slot_of_files hi] at hq hdir
  have hk := (ht.entry c q (Bool.and_eq_true_iff.mp hq).1).1
  rw [hdir] at hk
  obtain ⟨chain', t', hi'⟩ := kind_true_iff.mp hk
  exact ⟨_, chain', t', (ht.find_iff hi).mpr ⟨q, hq, rfl⟩, hi'⟩

/-- What the current directory holds. -/
theorem Ready.currentTable (hr : Ready D V s) (ha : AtDir V s c chain t) :
    s.Ends FileSystem.currentTable (fun d s' => d.length = s.directorySize ∧
      (∀ q, d.slot q = t.slot q) ∧ Same s s' ∧ Ready D V s') := by
  have hmax : s.directorySize ≤ maxDirEntries + 1 := by
    obtain ⟨-, hok, ht⟩ := hr.disk.directory ha.file
    have := ht.length_le hok
    have := ha.size_le
    omega
  unfold FileSystem.currentTable
  simp only [Prog.ends_bind, ends_getDirectorySize, ends_getDirectoryFile, Prog.ends_pure]
  refine (hr.fetchFrom ha.handle ha.file ha.le hmax).mono ?_
  rintro ⟨n, d⟩ s' ⟨-, hlen, hslot, hs, hr'⟩
  exact ⟨hlen, hslot, hs, hr'⟩

/-- **`Open`.** -/
theorem Ready.openFile (hr : Ready D V s) (ha : AtDir V s c chain t) (name : List UInt8) :
    s.Ends (FileSystem.openFile name) (fun r s' => Same s s' ∧
      (r = none ∧ t.find name = none ∧ Ready D V s' ∨
        ∃ f x, r = some f ∧ t.find name = some x ∧
          Ready D { V with handles := (f, x) :: V.handles } s')) := by
  unfold FileSystem.openFile
  simp only [Prog.ends_bind]
  refine (hr.currentTable ha).mono ?_
  rintro d s₁ ⟨-, hslot, hs₁, hr₁⟩
  rw [Directory.find_congr hslot]
  cases hx : t.find name with
  | none =>
    exact Prog.ends_pure.mpr ⟨hs₁, Or.inl ⟨rfl, rfl, hr₁⟩⟩
  | some x =>
    obtain ⟨i, hi⟩ := hr.tree.find ha.file hx
    have hquiet := (hr₁.handles.quiet x (by rw [hi]; rfl)).1
    simp only [Prog.ends_bind, ends_getEntry]
    rw [if_neg (by simp [hquiet])]
    refine Prog.ends_bind.mpr ((hr₁.make hi).mono ?_)
    rintro f s₂ ⟨-, hs₂, hr₂⟩
    exact Prog.ends_pure.mpr ⟨hs₁.trans hs₂, Or.inr ⟨f, x, rfl, rfl, hr₂⟩⟩

/-- `Open`, of a name that is there. -/
theorem Ready.openExisting (hr : Ready D V s) (ha : AtDir V s c chain t) {x : ℕ}
    (hx : t.find name = some x) :
    s.Ends (FileSystem.openExisting name) (fun f s' => Same s s' ∧
      Ready D { V with handles := (f, x) :: V.handles } s') := by
  unfold FileSystem.openExisting
  simp only [Prog.ends_bind]
  refine (hr.openFile ha name).mono ?_
  rintro r s₁ ⟨hs₁, ⟨-, hnone, -⟩ | ⟨f, x', rfl, hx', hr₁⟩⟩
  · rw [hx] at hnone
    cases hnone
  · rw [hx, Option.some.injEq] at hx'
    subst hx'
    simp only [Prog.ends_pure]
    exact ⟨hs₁, hr₁⟩

end Lookup

/-! ## Changing the directory -/

section Changing
variable {D : Discipline} {V : Volume} {s s' : System} {c : ℕ} {chain : List ℕ} {t d : Directory}
  {rest : List (ℕ × ℕ)}

/-- The number of entries of the current directory is found out. -/
theorem Ready.refreshSize (hr : Ready D V s) (hf : (s.directoryFile, c) ∈ V.handles)
    (hi : V.files c = some ⟨chain, some t⟩) :
    s.Ends FileSystem.refreshSize (fun n s' => n = t.length ∧ Kept s s' ∧
      s'.directoryFile = s.directoryFile ∧ s'.directorySize = t.length ∧ Ready D V s' ∧
      AtDir V s' c chain t) := by
  unfold FileSystem.refreshSize
  simp only [Prog.ends_bind, ends_getDirectoryFile]
  refine (hr.tableSize hf hi).mono ?_
  rintro n s₁ ⟨rfl, hs₁, hr₁⟩
  refine ends_setDirectorySize.mpr (Prog.ends_pure.mpr ⟨rfl, ⟨hs₁.disk, hs₁.freeMapFile,
    hs₁.createLock⟩, hs₁.directoryFile, rfl, ?_, ?_⟩)
  · exact hr₁.setDirectory s₁.directoryFile t.length
  · refine ⟨?_, hi, le_rfl, Nat.le_succ _⟩
    show (s₁.directoryFile, c) ∈ V.handles
    rw [hs₁.directoryFile]
    exact hf

/-- What a change of the directory leads to: the new current directory at `c'` has a handle of its
own, besides those in `rest`. -/
structure Moved (D : Discipline) (V : Volume) (rest : List (ℕ × ℕ)) (c' : ℕ) (s s' : System) :
    Prop where
  kept : Kept s s'
  ready : Ready D { V with handles := (s'.directoryFile, c') :: rest } s'
  size : ∃ chain t, V.files c' = some ⟨chain, some t⟩ ∧ s'.directorySize = t.length

theorem Moved.atDir {c' : ℕ} (hm : Moved D V rest c' s s') : ∃ chain t,
    AtDir { V with handles := (s'.directoryFile, c') :: rest } s' c' chain t ∧
      s'.directorySize = t.length := by
  obtain ⟨chain, t, hi, hsize⟩ := hm.size
  exact ⟨chain, t, ⟨List.mem_cons_self, hi, hsize.ge, hsize.le.trans (Nat.le_succ _)⟩, hsize⟩

/-- The next directory is opened, it becomes the current one, and the previous one is closed. -/
theorem Ready.enter {f x : ℕ}
    (hr' : Ready D { V with handles := (f, x) :: (s.directoryFile, c) :: rest } s')
    (hi : (V.files c).isSome = true) (hs : Same s s') {chain' : List ℕ} {t' : Directory}
    (hx : V.files x = some ⟨chain', some t'⟩) :
    System.Ends { s' with directoryFile := f } (OpenFile.close s.directoryFile)
      (fun _ s₁ => s₁.Ends FileSystem.refreshSize (fun n s₂ => n = t'.length ∧
        s₂.directoryFile = f ∧ Moved D V rest x s s₂)) := by
  have hdir := hr'.setDirectory f s'.directorySize
  refine (hdir.close (List.Perm.swap ..) hi).mono ?_
  rintro _ s₁ ⟨hs₁, hr₁⟩
  have hf : s₁.directoryFile = f := hs₁.directoryFile
  have hmem : (s₁.directoryFile, x) ∈ (f, x) :: rest := by
    rw [hf]
    exact List.mem_cons_self
  refine (hr₁.refreshSize hmem hx).mono ?_
  rintro n s₂ ⟨rfl, hk₂, hf₂, hsize, hr₂, -⟩
  refine ⟨rfl, hf₂.trans hf, ⟨?_, ?_, chain', t', hx, hsize⟩⟩
  · exact (hs.kept.trans ⟨hs₁.disk, hs₁.freeMapFile, hs₁.createLock⟩).trans hk₂
  · rw [hf₂, hf]
    exact hr₂

/-- **The loop of `ChangeDir`.**  It ends in the directory the names lead to or, if there is none,
in one on the way. -/
theorem Ready.walk (names : List (List UInt8)) :
    ∀ {s : System} {c : ℕ} {chain : List ℕ} {t d : Directory},
      Ready D { V with handles := (s.directoryFile, c) :: rest } s →
      V.files c = some ⟨chain, some t⟩ → (∀ q, d.slot q = t.slot q) →
      s.directorySize = t.length →
      s.Ends (FileSystem.walk d names) (fun r s' => ∃ c', Moved D V rest c' s s' ∧
        (r = true ∧ resolve V.table c names = some c' ∨
          r = false ∧ resolve V.table c names = none)) := by
  induction names with
  | nil =>
    intro s c chain t d hr hi _ hsize
    exact Prog.ends_pure.mpr ⟨c, ⟨Kept.refl s, hr, chain, t, hi, hsize⟩, Or.inl ⟨rfl, rfl⟩⟩
  | cons name names ih =>
    intro s c chain t d hr hi hslot hsize
    have ha : AtDir { V with handles := (s.directoryFile, c) :: rest } s c chain t :=
      ⟨List.mem_cons_self, hi, hsize.ge, hsize.le.trans (Nat.le_succ _)⟩
    unfold FileSystem.walk resolve
    rw [Directory.findDir_congr hslot, table_of_files hi]
    by_cases hd : t.findDir name = true
    · rw [if_pos hd, if_pos hd]
      obtain ⟨x, chain', t', hx, hx'⟩ := hr.tree.findDir hi hd
      rw [hx, Option.bind_some]
      simp only [Prog.ends_bind, ends_getDirectoryFile]
      refine (hr.openExisting ha hx).mono ?_
      rintro f s₁ ⟨hs₁, hr₁⟩
      refine ends_setDirectoryFile.mpr ((hr₁.enter (by rw [hi]; rfl) hs₁ hx').mono ?_)
      intro _ s₂ h₂
      refine h₂.mono ?_
      rintro n s₃ ⟨rfl, hf₃, hm₃⟩
      obtain ⟨chain₃, t₃, ha₃, hsize₃⟩ := hm₃.atDir
      obtain ⟨rfl, rfl⟩ : chain' = chain₃ ∧ t' = t₃ := by
        have := hx'.symm.trans ha₃.file
        simpa using this
      have hmax : t'.length ≤ maxDirEntries + 1 := by
        obtain ⟨-, hok, ht⟩ := hm₃.ready.disk.directory hx'
        exact (ht.length_le hok).trans (Nat.le_succ _)
      refine (hm₃.ready.fetchFrom ha₃.handle hx' le_rfl hmax).mono ?_
      rintro ⟨m, d'⟩ s₄ ⟨-, -, hslot', hs₄, hr₄⟩
      rw [← hs₄.directoryFile] at hr₄
      refine (ih hr₄ hx' hslot' (hs₄.directorySize.trans hsize₃)).mono ?_
      rintro r s₅ ⟨c', hm₅, hres⟩
      exact ⟨c', ⟨(hm₃.kept.trans hs₄.kept).trans hm₅.kept, hm₅.ready, hm₅.size⟩, hres⟩
    · rw [if_neg hd, if_neg hd]
      exact Prog.ends_pure.mpr ⟨c, ⟨Kept.refl s, hr, chain, t, hi, hsize⟩, Or.inr ⟨rfl, rfl⟩⟩

/-- After a change of the directory that failed: all is as before, and there is a handle on `x` that
nobody knows of. -/
structure Lost (D : Discipline) (V : Volume) (handles : List (ℕ × ℕ)) (x : ℕ) (s s' : System) :
    Prop where
  same : Same s s'
  ready : Ready D { V with
    handles := handles
    extra := Function.update V.extra x (V.extra x + 1) } s'

theorem TreeOk.rootTable (ht : TreeOk V) :
    ∃ chain t, V.files directorySector = some ⟨chain, some t⟩ :=
  kind_true_iff.mp ht.root

/-- **`ChangeDir` with an absolute path.** -/
theorem Ready.changeDirFromRoot (hr : Ready D { V with handles := (s.directoryFile, c) :: rest } s)
    (hi : (V.files c).isSome = true) {path : List UInt8} (onlyChange : Bool)
    (hlen : path.length < filePathMaxLen) (hlevel : (tokens path).length < maxDirLevel) :
    s.Ends (FileSystem.changeDirFromRoot path onlyChange) (fun r s' =>
      (∃ c', r = true ∧ resolve V.table directorySector (tokens path) = some c' ∧
        Moved D V (if onlyChange = true then rest else (s.directoryFile, c) :: rest) c' s s') ∨
      ∃ x, r = false ∧ resolve V.table directorySector (tokens path) = none ∧
        Lost D V ((s.directoryFile, c) :: rest) x s s') := by
  obtain ⟨chain, t, hroot⟩ := hr.tree.rootTable
  have hroot' : V.files directorySector = some ⟨chain, some t⟩ := hroot
  unfold FileSystem.changeDirFromRoot
  simp only [Prog.ends_bind, ends_assert, ends_getDirectoryFile, ends_getDirectorySize]
  refine ⟨hlen, hlevel, (hr.make hroot).mono ?_⟩
  rintro f s₁ ⟨-, hs₁, hr₁⟩
  refine (hr₁.tableSize List.mem_cons_self hroot).mono ?_
  rintro n s₂ ⟨rfl, hs₂, hr₂⟩
  have hmax : t.length ≤ maxDirEntries + 1 := by
    obtain ⟨-, hok, ht⟩ := hr.disk.directory hroot
    exact (ht.length_le hok).trans (Nat.le_succ _)
  refine (hr₂.fetchFrom List.mem_cons_self hroot le_rfl hmax).mono ?_
  rintro ⟨m, d⟩ s₃ ⟨-, -, hslot, hs₃, hr₃⟩
  refine ends_setDirectoryFile.mpr (ends_setDirectorySize.mpr ?_)
  have hk₃ : Kept s s₃ := ((hs₁.trans hs₂).trans hs₃).kept
  refine (Ready.walk (tokens path) (hr₃.setDirectory f t.length) hroot' hslot rfl).mono ?_
  rintro r s₄ ⟨c', hm, hres⟩
  have hk : Kept s s₄ := (hk₃.setDirectory f t.length).trans hm.kept
  rcases hres with ⟨rfl, hres⟩ | ⟨rfl, hres⟩
  · unfold FileSystem.endWalk
    cases onlyChange with
    | true =>
      refine (hm.ready.close (List.Perm.swap ..) hi).mono ?_
      rintro _ s₅ ⟨hs₅, hr₅⟩
      refine Prog.ends_pure.mpr (Or.inl ⟨c', rfl, hres, hk.trans hs₅.kept, ?_, ?_⟩)
      · rw [hs₅.directoryFile]
        exact hr₅
      · rw [hs₅.directorySize]
        exact hm.size
    | false =>
      exact Prog.ends_pure.mpr (Prog.ends_pure.mpr (Or.inl ⟨c', rfl, hres, hk, hm.ready, hm.size⟩))
  · unfold FileSystem.endWalk
    refine Prog.ends_bind.mpr (ends_setDirectoryFile.mpr (ends_setDirectorySize.mpr ?_))
    refine Prog.ends_pure.mpr (Or.inr ⟨c', rfl, hres, ⟨hk.disk, hk.freeMapFile, rfl, rfl,
      hk.createLock⟩, ?_⟩)
    obtain ⟨chain', t', hi', -⟩ := hm.size
    have hne := hm.ready.ne_freeMapFile List.mem_cons_self (by rw [hi']; rfl)
    exact (hm.ready.forget (List.Perm.refl _) hne).setDirectory s.directoryFile s.directorySize

/-- **`ChangeDir`.** -/
theorem Ready.changeDir (hr : Ready D { V with handles := (s.directoryFile, c) :: rest } s)
    (ha : AtDir { V with handles := (s.directoryFile, c) :: rest } s c chain t) {name : List UInt8}
    (hfits : PathFits name) :
    s.Ends (FileSystem.changeDir name true) (fun r s' =>
      (∃ c', r = true ∧ destination V.table c name = some c' ∧ Moved D V rest c' s s') ∨
      r = false ∧ destination V.table c name = none ∧ Same s s' ∧ ∃ extra,
        Ready D { V with handles := (s.directoryFile, c) :: rest, extra := extra } s' ∧
          (name.head? ≠ some slash → extra = V.extra) ∧
          (name.head? = some slash → ∃ x, extra x ≠ 0)) := by
  have hi : V.files c = some ⟨chain, some t⟩ := ha.file
  unfold FileSystem.changeDir destination
  by_cases hslash : name.head? = some slash
  · rw [if_pos hslash, if_pos hslash]
    obtain ⟨hlen, hlevel⟩ := hfits hslash
    refine (hr.changeDirFromRoot (by rw [hi]; rfl) true hlen hlevel).mono ?_
    rintro r s' (⟨c', hr', hres, hm⟩ | ⟨x, hr', hres, hlost⟩)
    · exact Or.inl ⟨c', hr', hres, hm⟩
    · refine Or.inr ⟨hr', hres, hlost.same, _, hlost.ready, fun h => absurd hslash h,
        fun _ => ⟨x, ?_⟩⟩
      rw [Function.update_self]
      exact Nat.succ_ne_zero _
  · rw [if_neg hslash, if_neg hslash, resolve, table_of_files hi]
    simp only [Prog.ends_bind]
    refine (hr.currentTable ha).mono ?_
    rintro d s₁ ⟨-, hslot, hs₁, hr₁⟩
    rw [Directory.findDir_congr hslot]
    by_cases hd : t.findDir name = true
    · rw [if_pos hd, if_pos hd]
      obtain ⟨x, chain', t', hx, hx'⟩ := hr.tree.findDir hi hd
      simp only [Prog.ends_bind, ends_getDirectoryFile]
      refine (hr₁.openExisting (ha.of_same hs₁) hx).mono ?_
      rintro f s₂ ⟨hs₂, hr₂⟩
      have hs := hs₁.trans hs₂
      rw [hs.directoryFile]
      refine ends_setDirectoryFile.mpr ((hr₂.enter (V := V) (by rw [hi]; rfl) hs hx').mono ?_)
      intro _ s₃ h₃
      refine h₃.mono ?_
      rintro n s₄ ⟨-, -, hm⟩
      refine Prog.ends_pure.mpr (Or.inl ⟨x, rfl, ?_, hm⟩)
      rw [hx]
      rfl
    · rw [if_neg hd, if_neg hd]
      exact Prog.ends_pure.mpr (Or.inr ⟨rfl, rfl, hs₁, V.extra, hr₁, fun _ => rfl,
        fun h => absurd h hslash⟩)

end Changing
end PaldOs
