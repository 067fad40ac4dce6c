import PaldOs.FileRead
import PaldOs.FileSystem

/-! # Volumes

What is on a disk, for the proofs: which files there are, each with the chain of its headers,
and the tables of those that are directories.  `DiskOk` says that the disk holds these files, no
two of them with a sector in common, and that the free map marks their sectors; sectors it marks
for no file are `leaked`.  `TreeOk` says that the directories make a tree: every entry in use leads
to a file of its own.

A file that is written by programs may have headers that are not full before its last one, so
`Sound` asks less of a chain than `FileOk`.  How much is known of the files that are not directories
is a parameter of the invariant, a `Discipline`.
-/
namespace PaldOs

/-! ## Sectors of a file -/

/-- A header or a data sector of a file. -/
def Uses (disk : ℕ → Sector) (hs : List ℕ) (x : ℕ) : Prop :=
  ∃ i, i < hs.length ∧ (x = hs.getD i 0 ∨
    ∃ j, j < (headerOf disk hs i).numSectors ∧ x = (headerOf disk hs i).dataSectors j)

/-- A chain of headers in good order, full or not, with different sectors. -/
structure Sound (disk : ℕ → Sector) (hs : List ℕ) : Prop where
  pos : 0 < hs.length
  headers : ∀ i, i < hs.length → HeaderOk (headerOf disk hs i)
  next : ∀ i, i + 1 < hs.length → (headerOf disk hs i).nextFileHeader = hs.getD (i + 1) 0
  last : (headerOf disk hs (hs.length - 1)).nextFileHeader = 0
  nonzero : ∀ i, 0 < i → i < hs.length → hs.getD i 0 ≠ 0
  heads_lt : ∀ i, i < hs.length → hs.getD i 0 < numSectors
  heads_distinct : ∀ i j, i < hs.length → j < hs.length → hs.getD i 0 = hs.getD j 0 → i = j
  data_distinct : ∀ i j i' j', i < hs.length → j < (headerOf disk hs i).numSectors →
    i' < hs.length → j' < (headerOf disk hs i').numSectors →
    (headerOf disk hs i).dataSectors j = (headerOf disk hs i').dataSectors j' → i = i' ∧ j = j'
  apart : ∀ i i' j, i < hs.length → i' < hs.length → j < (headerOf disk hs i').numSectors →
    hs.getD i 0 ≠ (headerOf disk hs i').dataSectors j

section Sound
variable {disk disk' : ℕ → Sector} {hs : List ℕ} {x : ℕ}

theorem uses_head {i : ℕ} (hi : i < hs.length) : Uses disk hs (hs.getD i 0) := ⟨i, hi, Or.inl rfl⟩

theorem ChainOk.owned_iff_uses (hf : ChainOk disk hs) : Owned disk hs x ↔ Uses disk hs x := by
  constructor
  · rintro (⟨i, hi, rfl⟩ | ⟨q, hq, rfl⟩)
    · exact uses_head hi
    · obtain ⟨hi, hj⟩ := hf.sector_index hq
      exact ⟨_, hi, Or.inr ⟨_, hj, rfl⟩⟩
  · rintro ⟨i, hi, rfl | ⟨j, hj, rfl⟩⟩
    · exact Or.inl ⟨i, hi, rfl⟩
    · have hle := (hf.headers i hi).numSectors_le
      refine Or.inr ⟨numDirect * i + j, hf.index_lt hi hj, ?_⟩
      rw [dataSector_index (by omega)]

/-- **A file in good order is sound.** -/
theorem FileOk.sound (hf : FileOk disk hs) : Sound disk hs where
  pos := hf.pos
  headers := hf.headers
  next := hf.next
  last := hf.last
  nonzero := hf.nonzero
  heads_lt := hf.heads_lt
  heads_distinct := hf.heads_distinct
  data_distinct := by
    intro i j i' j' hi hj hi' hj' heq
    have hnd : numDirect = 29 := rfl
    have hle := (hf.headers i hi).numSectors_le
    have hle' := (hf.headers i' hi').numSectors_le
    rw [← dataSector_index (i := i) (show j < numDirect by omega),
      ← dataSector_index (i := i') (show j' < numDirect by omega)] at heq
    have := hf.data_distinct _ _ (hf.index_lt hi hj) (hf.index_lt hi' hj') heq
    rw [hnd] at this hle hle'
    omega
  apart := by
    intro i i' j hi hi' hj heq
    have hle := (hf.headers i' hi').numSectors_le
    rw [← dataSector_index (i := i') (show j < numDirect by omega)] at heq
    exact hf.apart i _ hi (hf.index_lt hi' hj) heq

theorem Sound.uses_lt (hf : Sound disk hs) (hx : Uses disk hs x) : x < numSectors := by
  obtain ⟨i, hi, rfl | ⟨j, hj, rfl⟩⟩ := hx
  · exact hf.heads_lt i hi
  · exact (hf.headers i hi).lt j hj

/-- The headers are those they were. -/
theorem headerOf_of_uses (h : ∀ x, Uses disk hs x → disk' x = disk x) {i : ℕ} (hi : i < hs.length) :
    headerOf disk' hs i = headerOf disk hs i :=
  headerOf_congr (h _ (uses_head hi))

theorem uses_congr (h : ∀ x, Uses disk hs x → disk' x = disk x) (x : ℕ) :
    Uses disk' hs x ↔ Uses disk hs x := by
  refine exists_congr fun i => and_congr_right fun hi => ?_
  rw [headerOf_of_uses h hi]

/-- Sectors of others are written. -/
theorem Sound.congr (hf : Sound disk hs) (h : ∀ x, Uses disk hs x → disk' x = disk x) :
    Sound disk' hs := by
  have hh : ∀ i, i < hs.length → headerOf disk' hs i = headerOf disk hs i :=
    fun i hi => headerOf_of_uses h hi
  have hpos := hf.pos
  refine ⟨hf.pos, fun i hi => ?_, fun i hi => ?_, ?_, hf.nonzero, hf.heads_lt, hf.heads_distinct,
    fun i j i' j' hi hj hi' hj' heq => ?_, fun i i' j hi hi' hj => ?_⟩
  · rw [hh i hi]
    exact hf.headers i hi
  · rw [hh i (by omega)]
    exact hf.next i hi
  · rw [hh _ (by omega)]
    exact hf.last
  · rw [hh i hi] at hj heq
    rw [hh i' hi'] at hj' heq
    exact hf.data_distinct i j i' j' hi hj hi' hj' heq
  · rw [hh i' hi'] at hj ⊢
    exact hf.apart i i' j hi hi' hj

theorem FileOk.congr (hf : FileOk disk hs) (h : ∀ x, Uses disk hs x → disk' x = disk x) :
    FileOk disk' hs :=
  hf.of_headers fun _ hi => headerOf_of_uses h hi

theorem FileOk.fileByte_congr (hf : FileOk disk hs) (h : ∀ x, Uses disk hs x → disk' x = disk x)
    {p : ℕ} (hp : p < fileLength disk hs) : fileByte disk' hs p = fileByte disk hs p :=
  hf.fileByte_of_owned (fun x hx => h x (hf.owned_iff_uses.mp hx)) hp

end Sound

/-! ## Tables in files -/

/-- The file holds the table. -/
structure TableOn (disk : ℕ → Sector) (hs : List ℕ) (t : Directory) : Prop where
  length : fileLength disk hs = DirectoryEntry.size * t.length
  entry : ∀ j, j < t.length →
    DirectoryEntry.ofBytes (fileByte disk hs) (DirectoryEntry.size * j) = t.slot j

theorem TableOn.congr {disk disk' : ℕ → Sector} {hs : List ℕ} {t : Directory}
    (ht : TableOn disk hs t) (hf : FileOk disk hs) (h : ∀ x, Uses disk hs x → disk' x = disk x) :
    TableOn disk' hs t := by
  refine ⟨?_, fun j hj => ?_⟩
  · rw [fileLength_congr hf.pos fun i hi => headerOf_of_uses h hi]
    exact ht.length
  · rw [← ht.entry j hj]
    refine DirectoryEntry.ofBytes_congr fun o ho => ?_
    refine hf.fileByte_congr h ?_
    have hlen := ht.length
    have hsize : DirectoryEntry.size = 32 := rfl
    rw [hsize] at ho hlen ⊢
    omega

theorem TableOn.sector_lt {disk : ℕ → Sector} {hs : List ℕ} {t : Directory}
    (ht : TableOn disk hs t) (q : ℕ) : (t.slot q).sector < 2 ^ 32 := by
  rcases Nat.lt_or_ge q t.length with hq | hq
  · rw [← ht.entry q hq]
    exact word_lt _ _
  · rw [Directory.slot_of_le hq]
    exact Nat.two_pow_pos 32

/-! ## Files and directories -/

/-- A file: the chain of its headers, and the table if it is a directory. -/
structure FileInfo where
  chain : List ℕ
  table : Option Directory

/-- What is known of the files that are not directories, and of the `OpenFile` objects on them:
`ok` of the disk and the chain, `cursor` of them and of the object.  It does not depend on
the sectors of others. -/
structure Discipline where
  ok : (ℕ → Sector) → List ℕ → Prop
  cursor : (ℕ → Sector) → List ℕ → OpenFile → Prop
  ok_of_fileOk : ∀ disk hs, FileOk disk hs → ok disk hs
  ok_congr : ∀ disk disk' hs, Sound disk hs → (∀ x, Uses disk hs x → disk' x = disk x) →
    ok disk hs → ok disk' hs
  cursor_congr : ∀ disk disk' hs o, Sound disk hs → (∀ x, Uses disk hs x → disk' x = disk x) →
    cursor disk hs o → cursor disk' hs o
  cursor_new : ∀ disk hs hdr, Sound disk hs → ok disk hs →
    cursor disk hs ⟨hs.getD 0 0, hs.getD 0 0, 0, hdr⟩

/-- **A volume**: where the free map is, the files by the sectors of their first headers, the
sectors marked for no file, the handles in use, each with the sector of its file, and what
the counts of open files have too much. -/
structure Volume where
  map : ℕ
  files : ℕ → Option FileInfo
  leaked : ℕ → Prop
  handles : List (ℕ × ℕ)
  extra : ℕ → ℕ

/-- A sector of some file of the volume. -/
def Volume.Owns (V : Volume) (disk : ℕ → Sector) (x : ℕ) : Prop :=
  ∃ h i, V.files h = some i ∧ Uses disk i.chain x

/-- Entry `j` of the directory at `h`. -/
def Volume.slot (V : Volume) (h j : ℕ) : DirectoryEntry :=
  match V.files h with
  | some ⟨_, some t⟩ => t.slot j
  | _ => .fresh

/-- Whether there is a file at `h`, and whether it is a directory. -/
def Volume.kind (V : Volume) (h : ℕ) : Option Bool := (V.files h).map fun i => i.table.isSome

/-- **The directories make a tree.**  Every entry in use leads to a file of its kind, which is not
the root and has no other entry; the names in a directory are different. -/
structure TreeOk (V : Volume) : Prop where
  root : V.kind directorySector = some true
  entry : ∀ h j, (V.slot h j).inUse = true →
    V.kind (V.slot h j).sector = some (V.slot h j).isDirectory ∧
      (V.slot h j).sector ≠ directorySector
  unused : ∀ h j, (V.slot h j).inUse = false → (V.slot h j).isDirectory = false
  once : ∀ h j h' j', (V.slot h j).inUse = true → (V.slot h' j').inUse = true →
    (V.slot h j).sector = (V.slot h' j').sector → h = h' ∧ j = j'
  names : ∀ h j j', (V.slot h j).inUse = true → (V.slot h j').inUse = true →
    (V.slot h j).sameName (V.slot h j') = true → j = j'
  long : ∀ h chain t, V.files h = some ⟨chain, some t⟩ → numDirEntries ≤ t.length

/-- What a file of the volume is on the disk. -/
structure FileOn (D : Discipline) (disk : ℕ → Sector) (h : ℕ) (i : FileInfo) : Prop where
  head : i.chain.getD 0 0 = h
  sound : Sound disk i.chain
  regular : i.table = none → D.ok disk i.chain
  directory : ∀ t, i.table = some t → FileOk disk i.chain ∧ TableOn disk i.chain t

/-- **The disk holds the volume.** -/
structure DiskOk (D : Discipline) (V : Volume) (disk : ℕ → Sector) : Prop where
  file : ∀ h i, V.files h = some i → FileOn D disk h i
  apart : ∀ h h' i i' x, V.files h = some i → V.files h' = some i' → Uses disk i.chain x →
    Uses disk i'.chain x → h = h'
  marks : ∀ x, x < numSectors →
    (mapOn disk V.map x = true ↔ x = 0 ∨ x = V.map ∨ V.leaked x ∨ V.Owns disk x)
  leaked : ∀ x, V.leaked x → x ≠ 0 ∧ x ≠ V.map ∧ ¬ V.Owns disk x
  reserved : ∀ h i, V.files h = some i → ¬ Uses disk i.chain 0 ∧ ¬ Uses disk i.chain V.map
  map_lt : V.map < numSectors
  map_ne : V.map ≠ 0
  mapHeader : (headerOn disk 0).numBytes = freeMapFileSize ∧ (headerOn disk 0).numSectors = 1 ∧
    (headerOn disk 0).dataSectors 0 = V.map ∧ (headerOn disk 0).nextFileHeader = 0

section Disk
variable {D : Discipline} {V : Volume} {disk disk' : ℕ → Sector} {h : ℕ} {i i₀ : FileInfo}

theorem FileOn.congr (hf : FileOn D disk h i)
    (hsame : ∀ x, Uses disk i.chain x → disk' x = disk x) :
    FileOn D disk' h i where
  head := hf.head
  sound := hf.sound.congr hsame
  regular hr := D.ok_congr _ _ _ hf.sound hsame (hf.regular hr)
  directory t ht := by
    obtain ⟨hok, htable⟩ := hf.directory t ht
    exact ⟨hok.congr hsame, htable.congr hok hsame⟩

theorem FileOn.uses_self (hf : FileOn D disk h i) : Uses disk i.chain h :=
  ⟨0, hf.sound.pos, Or.inl hf.head.symm⟩

theorem FileOn.ofTable {chain : List ℕ} {t : Directory} (hhead : chain.getD 0 0 = h)
    (hok : FileOk disk chain) (ht : TableOn disk chain t) : FileOn D disk h ⟨chain, some t⟩ where
  head := hhead
  sound := hok.sound
  regular hc := nomatch hc
  directory t' ht' := by
    obtain rfl := Option.some.inj ht'
    exact ⟨hok, ht⟩

theorem FileOn.ofRegular {chain : List ℕ} (hhead : chain.getD 0 0 = h) (hs : Sound disk chain)
    (hok : D.ok disk chain) : FileOn D disk h ⟨chain, none⟩ where
  head := hhead
  sound := hs
  regular _ := hok
  directory _ hc := nomatch hc

theorem DiskOk.directory {chain : List ℕ} {t : Directory} (hd : DiskOk D V disk)
    (hi : V.files h = some ⟨chain, some t⟩) :
    chain.getD 0 0 = h ∧ FileOk disk chain ∧ TableOn disk chain t :=
  ⟨(hd.file h _ hi).head, (hd.file h _ hi).directory t rfl⟩

theorem DiskOk.owned_marked (hd : DiskOk D V disk) {x : ℕ} (hx : V.Owns disk x) :
    x < numSectors ∧ mapOn disk V.map x = true := by
  obtain ⟨h, i, hi, hu⟩ := hx
  have hlt := (hd.file h i hi).sound.uses_lt hu
  exact ⟨hlt, (hd.marks x hlt).mpr (Or.inr (Or.inr (Or.inr ⟨h, i, hi, hu⟩)))⟩

theorem DiskOk.zero_marked (hd : DiskOk D V disk) : mapOn disk V.map 0 = true :=
  (hd.marks 0 (by decide)).mpr (Or.inl rfl)

theorem DiskOk.map_marked (hd : DiskOk D V disk) : mapOn disk V.map V.map = true :=
  (hd.marks _ hd.map_lt).mpr (Or.inr (Or.inl rfl))

/-- What is owned is owned after the sectors of others have changed. -/
theorem owns_congr (V' : Volume) (hfiles : V'.files = V.files)
    (hsame : ∀ x, V.Owns disk x → disk' x = disk x) (x : ℕ) : V'.Owns disk' x ↔ V.Owns disk x := by
  unfold Volume.Owns
  rw [hfiles]
  refine exists_congr fun h => exists_congr fun i => and_congr_right fun hi => ?_
  exact uses_congr (fun y hy => hsame y ⟨h, i, hi, hy⟩) x

/-- **Sectors of nobody change**, and some that were free get marked. -/
theorem DiskOk.change (hd : DiskOk D V disk) (taken : ℕ → Prop) (hzero : disk' 0 = disk 0)
    (hsame : ∀ x, V.Owns disk x → disk' x = disk x)
    (hmarks : ∀ x, x < numSectors →
      (mapOn disk' V.map x = true ↔ mapOn disk V.map x = true ∨ taken x))
    (htaken : ∀ x, taken x → x < numSectors ∧ mapOn disk V.map x = false) :
    DiskOk D { V with leaked := fun x => V.leaked x ∨ taken x } disk' := by
  have howns := owns_congr { V with leaked := fun x => V.leaked x ∨ taken x } rfl hsame
  have hfile : ∀ h i, V.files h = some i → ∀ x, Uses disk' i.chain x ↔ Uses disk i.chain x :=
    fun h i hi => uses_congr fun y hy => hsame y ⟨h, i, hi, hy⟩
  refine ⟨fun h i hi => (hd.file h i hi).congr fun x hx => hsame x ⟨h, i, hi, hx⟩,
    fun h h' i i' x hi hi' hx hx' => ?_, fun x hx => ?_, fun x hx => ?_, fun h i hi => ?_,
    hd.map_lt, hd.map_ne, ?_⟩
  · exact hd.apart h h' i i' x hi hi' ((hfile h i hi x).mp hx) ((hfile h' i' hi' x).mp hx')
  · rw [howns x]
    show mapOn disk' V.map x = true ↔ x = 0 ∨ x = V.map ∨ (V.leaked x ∨ taken x) ∨ V.Owns disk x
    rw [hmarks x hx, hd.marks x hx]
    tauto
  · rw [howns x]
    rcases hx with hx | hx
    · exact hd.leaked x hx
    · obtain ⟨hlt, hclear⟩ := htaken x hx
      refine ⟨?_, ?_, fun ho => ?_⟩
      · rintro rfl
        rw [hd.zero_marked] at hclear
        cases hclear
      · intro he
        rw [show x = V.map from he, hd.map_marked] at hclear
        cases hclear
      · rw [(hd.owned_marked ho).2] at hclear
        cases hclear
  · rw [hfile h i hi, hfile h i hi]
    exact hd.reserved h i hi
  · rw [headerOn, hzero]
    exact hd.mapHeader

/-- Sectors of nobody change. -/
theorem DiskOk.scribble (hd : DiskOk D V disk)
    (hsame : ∀ x, x = 0 ∨ x = V.map ∨ V.Owns disk x → disk' x = disk x) : DiskOk D V disk' := by
  have h := hd.change (fun _ => False) (hsame 0 (Or.inl rfl))
    (fun x hx => hsame x (Or.inr (Or.inr hx)))
    (fun x _ => by rw [mapOn, hsame _ (Or.inr (Or.inl rfl)), or_false, mapOn])
    (fun x hx => hx.elim)
  simpa only [or_false] using h

/-- The volume with another file at `h`. -/
def Volume.put (V : Volume) (h : ℕ) (i : FileInfo) : Volume :=
  { V with files := Function.update V.files h (some i) }

theorem put_files_self : (V.put h i).files h = some i := Function.update_self ..

theorem put_files_of_ne {h' : ℕ} (hne : h' ≠ h) : (V.put h i).files h' = V.files h' :=
  Function.update_of_ne hne ..

/-- A file of the new volume is the new one or one there was. -/
theorem put_files_cases {h' : ℕ} {i' : FileInfo} (hi' : (V.put h i).files h' = some i') :
    h' = h ∧ i' = i ∨ h' ≠ h ∧ V.files h' = some i' := by
  rcases eq_or_ne h' h with rfl | hne
  · rw [put_files_self, Option.some.injEq] at hi'
    exact Or.inl ⟨rfl, hi'.symm⟩
  · rw [put_files_of_ne hne] at hi'
    exact Or.inr ⟨hne, hi'⟩

theorem owns_put (hnone : V.files h = none) (x : ℕ) :
    (V.put h i).Owns disk x ↔ V.Owns disk x ∨ Uses disk i.chain x := by
  constructor
  · rintro ⟨h', i', hi', hu⟩
    rcases put_files_cases hi' with ⟨rfl, rfl⟩ | ⟨-, hi'⟩
    · exact Or.inr hu
    · exact Or.inl ⟨h', i', hi', hu⟩
  · rintro (⟨h', i', hi', hu⟩ | hu)
    · have hne : h' ≠ h := by
        rintro rfl
        rw [hnone] at hi'
        cases hi'
      exact ⟨h', i', (put_files_of_ne hne).trans hi', hu⟩
    · exact ⟨h, i, put_files_self, hu⟩

/-- **Sectors marked for no file become a file.** -/
theorem DiskOk.adopt (hd : DiskOk D V disk) (hnone : V.files h = none) (hf : FileOn D disk h i)
    (hleaked : ∀ x, Uses disk i.chain x → V.leaked x) :
    DiskOk D { V.put h i with leaked := fun x => V.leaked x ∧ ¬ Uses disk i.chain x } disk := by
  have howns : ∀ x, Volume.Owns { V.put h i with
      leaked := fun x => V.leaked x ∧ ¬ Uses disk i.chain x } disk x ↔
      V.Owns disk x ∨ Uses disk i.chain x := fun x => owns_put hnone x
  refine ⟨fun h' i' hi' => ?_, fun h₁ h₂ i₁ i₂ x hi₁ hi₂ hx₁ hx₂ => ?_, fun x hx => ?_,
    fun x hx => ?_, fun h' i' hi' => ?_, hd.map_lt, hd.map_ne, hd.mapHeader⟩
  · rcases put_files_cases hi' with ⟨rfl, rfl⟩ | ⟨-, hi'⟩
    · exact hf
    · exact hd.file h' i' hi'
  · rcases put_files_cases hi₁ with ⟨rfl, rfl⟩ | ⟨-, hj₁⟩ <;>
      rcases put_files_cases hi₂ with ⟨rfl, rfl⟩ | ⟨-, hj₂⟩
    · rfl
    · exact absurd ⟨h₂, i₂, hj₂, hx₂⟩ (hd.leaked x (hleaked x hx₁)).2.2
    · exact absurd ⟨h₁, i₁, hj₁, hx₁⟩ (hd.leaked x (hleaked x hx₂)).2.2
    · exact hd.apart h₁ h₂ i₁ i₂ x hj₁ hj₂ hx₁ hx₂
  · rw [howns x]
    show mapOn disk V.map x = true ↔ x = 0 ∨ x = V.map ∨ (V.leaked x ∧ ¬ Uses disk i.chain x) ∨ _
    rw [hd.marks x hx]
    have := hleaked x
    tauto
  · obtain ⟨h0, hm, ho⟩ := hd.leaked x hx.1
    refine ⟨h0, hm, fun hc => ?_⟩
    rcases (howns x).mp hc with hc | hc
    · exact ho hc
    · exact hx.2 hc
  · rcases put_files_cases hi' with ⟨rfl, rfl⟩ | ⟨-, hi'⟩
    · exact ⟨fun hu => (hd.leaked _ (hleaked _ hu)).1 rfl,
        fun hu => (hd.leaked _ (hleaked _ hu)).2.1 rfl⟩
    · exact hd.reserved h' i' hi'

/-- The file with first header `h` has got sectors that were free, and nobody else's sectors are
written; sectors in `reserved` are marked besides. -/
structure Grown (V : Volume) (disk : ℕ → Sector) (hs : List ℕ) (disk' : ℕ → Sector) (hs' : List ℕ)
    (reserved : List ℕ) : Prop where
  kept : ∀ x, Uses disk hs x → Uses disk' hs' x
  fresh : ∀ x, Uses disk' hs' x → Uses disk hs x ∨ mapOn disk V.map x = false
  frame : ∀ x, x ≠ V.map → ¬ Uses disk' hs' x → disk' x = disk x
  marks : ∀ x, x < numSectors → (mapOn disk' V.map x = true ↔
    mapOn disk V.map x = true ∨ Uses disk' hs' x ∨ x ∈ reserved)
  reserved_clear : ∀ x ∈ reserved, mapOn disk V.map x = false
  reserved_apart : ∀ x ∈ reserved, ¬ Uses disk' hs' x

/-- `Write` lets a file grow. -/
theorem Progress.grown {hs hs' reserved : List ℕ} {map₀ freeMap : Bitmap}
    (hp : Progress V.map disk hs map₀ disk' hs' freeMap reserved) (hf : FileOk disk hs)
    (hmap : ∀ x, x < numSectors → map₀ x = mapOn disk V.map x) :
    Grown V disk hs disk' hs' reserved where
  kept x hx := hp.ok.owned_iff_uses.mp (hp.owned_of_start (hf.owned_iff_uses.mpr hx))
  fresh x hx := by
    rcases hp.fresh x (hp.ok.owned_iff_uses.mpr hx) with ho | ho
    · exact Or.inl (hf.owned_iff_uses.mp ho)
    · exact Or.inr ((hmap x (hp.ok.sound.uses_lt hx)).symm.trans ho)
  frame x hx hu := hp.frame x hx fun ho => hu (hp.ok.owned_iff_uses.mp ho)
  marks x hx := by
    rw [hp.onDisk x hx, hp.marks x, hmap x hx, hp.ok.owned_iff_uses]
  reserved_clear x hx := (hmap x (hp.reserved_lt x hx)).symm.trans (hp.reserved_clear x hx)
  reserved_apart x hx hu := hp.reserved_apart x hx (hp.ok.owned_iff_uses.mpr hu)

/-- The volume in which the file at `h` has grown to `i`, with sectors marked for nobody. -/
def Volume.grown (V : Volume) (h : ℕ) (i : FileInfo) (reserved : List ℕ) : Volume :=
  { V.put h i with leaked := fun x => V.leaked x ∨ x ∈ reserved }

/-- The sectors of other files are not among those of a file that has grown, and are not
written. -/
theorem Grown.other {reserved : List ℕ} (hg : Grown V disk i₀.chain disk' i.chain reserved)
    (hd : DiskOk D V disk) (hfile : V.files h = some i₀) {h' : ℕ} {i' : FileInfo} (hne : h' ≠ h)
    (hi' : V.files h' = some i') {x : ℕ} (hx : Uses disk i'.chain x) :
    ¬ Uses disk' i.chain x ∧ disk' x = disk x := by
  have hout : ¬ Uses disk' i.chain x := by
    intro hu
    rcases hg.fresh x hu with ho | ho
    · exact hne (hd.apart h' h i' i₀ x hi' hfile hx ho)
    · rw [(hd.owned_marked ⟨h', i', hi', hx⟩).2] at ho
      cases ho
  refine ⟨hout, hg.frame x ?_ hout⟩
  rintro rfl
  exact (hd.reserved h' i' hi').2 hx

/-- **One file grows.** -/
theorem DiskOk.grow (hd : DiskOk D V disk) {reserved : List ℕ} (hfile : V.files h = some i₀)
    (hg : Grown V disk i₀.chain disk' i.chain reserved) (hnew : FileOn D disk' h i) :
    DiskOk D (V.grown h i reserved) disk' := by
  have hclear : ∀ x, V.Owns disk x → mapOn disk V.map x ≠ false :=
    fun x hx hc => by rw [(hd.owned_marked hx).2] at hc; cases hc
  have hout : ∀ h' i', h' ≠ h → V.files h' = some i' → ∀ x, Uses disk i'.chain x →
      ¬ Uses disk' i.chain x := fun h' i' hne hi' x hx => (hg.other hd hfile hne hi' hx).1
  have hsame : ∀ h' i', h' ≠ h → V.files h' = some i' → ∀ x, Uses disk i'.chain x →
      disk' x = disk x := fun h' i' hne hi' x hx => (hg.other hd hfile hne hi' hx).2
  have hzero : ¬ Uses disk' i.chain 0 := by
    intro hu
    rcases hg.fresh 0 hu with ho | ho
    · exact (hd.reserved h i₀ hfile).1 ho
    · rw [hd.zero_marked] at ho
      cases ho
  have hmap : ¬ Uses disk' i.chain V.map := by
    intro hu
    rcases hg.fresh _ hu with ho | ho
    · exact (hd.reserved h i₀ hfile).2 ho
    · rw [hd.map_marked] at ho
      cases ho
  have howns : ∀ x, (V.grown h i reserved).Owns disk' x ↔
      V.Owns disk x ∨ Uses disk' i.chain x := by
    intro x
    constructor
    · rintro ⟨h', i', hi', hu⟩
      rcases put_files_cases hi' with ⟨rfl, rfl⟩ | ⟨hne, hi'⟩
      · exact Or.inr hu
      · exact Or.inl ⟨h', i', hi', (uses_congr (hsame h' i' hne hi') x).mp hu⟩
    · rintro (⟨h', i', hi', hu⟩ | hu)
      · rcases eq_or_ne h' h with rfl | hne
        · rw [hfile, Option.some.injEq] at hi'
          subst hi'
          exact ⟨h', i, put_files_self, hg.kept x hu⟩
        · exact ⟨h', i', (put_files_of_ne hne).trans hi',
            (uses_congr (hsame h' i' hne hi') x).mpr hu⟩
      · exact ⟨h, i, put_files_self, hu⟩
  refine ⟨fun h' i' hi' => ?_, fun h₁ h₂ i₁ i₂ x hi₁ hi₂ hx₁ hx₂ => ?_, fun x hx => ?_,
    fun x hx => ?_, fun h' i' hi' => ?_, hd.map_lt, hd.map_ne, ?_⟩
  · rcases put_files_cases hi' with ⟨rfl, rfl⟩ | ⟨hne, hi'⟩
    · exact hnew
    · exact (hd.file h' i' hi').congr (hsame h' i' hne hi')
  · rcases put_files_cases hi₁ with ⟨rfl, rfl⟩ | ⟨hne₁, hj₁⟩ <;>
      rcases put_files_cases hi₂ with ⟨rfl, rfl⟩ | ⟨hne₂, hj₂⟩
    · rfl
    · rw [uses_congr (hsame h₂ i₂ hne₂ hj₂)] at hx₂
      exact absurd hx₁ (hout h₂ i₂ hne₂ hj₂ x hx₂)
    · rw [uses_congr (hsame h₁ i₁ hne₁ hj₁)] at hx₁
      exact absurd hx₂ (hout h₁ i₁ hne₁ hj₁ x hx₁)
    · rw [uses_congr (hsame h₁ i₁ hne₁ hj₁)] at hx₁
      rw [uses_congr (hsame h₂ i₂ hne₂ hj₂)] at hx₂
      exact hd.apart h₁ h₂ i₁ i₂ x hj₁ hj₂ hx₁ hx₂
  · rw [howns x]
    show mapOn disk' V.map x = true ↔ x = 0 ∨ x = V.map ∨ (V.leaked x ∨ x ∈ reserved) ∨ _
    rw [hg.marks x hx, hd.marks x hx]
    tauto
  · rw [howns x]
    rcases hx with hx | hx
    · obtain ⟨h0, hm, ho⟩ := hd.leaked x hx
      refine ⟨h0, hm, ?_⟩
      rintro (hc | hc)
      · exact ho hc
      · rcases hg.fresh x hc with hc' | hc'
        · exact ho ⟨h, i₀, hfile, hc'⟩
        · have hlt := hnew.sound.uses_lt hc
          rw [(hd.marks x hlt).mpr (Or.inr (Or.inr (Or.inl hx)))] at hc'
          cases hc'
    · have hc := hg.reserved_clear x hx
      refine ⟨?_, ?_, ?_⟩
      · rintro rfl
        rw [hd.zero_marked] at hc
        cases hc
      · intro he
        rw [show x = V.map from he, hd.map_marked] at hc
        cases hc
      · rintro (ho | ho)
        · exact hclear x ho hc
        · exact hg.reserved_apart x hx ho
  · rcases put_files_cases hi' with ⟨rfl, rfl⟩ | ⟨hne, hi'⟩
    · exact ⟨hzero, hmap⟩
    · rw [uses_congr (hsame h' i' hne hi'), uses_congr (hsame h' i' hne hi')]
      exact hd.reserved h' i' hi'
  · rw [headerOn, hg.frame 0 hd.map_ne.symm hzero]
    exact hd.mapHeader

/-- The volume without the file at `h`. -/
def Volume.erase (V : Volume) (h : ℕ) : Volume :=
  { V with files := Function.update V.files h none }

theorem erase_files_cases {h' : ℕ} {i' : FileInfo} :
    (V.erase h).files h' = some i' ↔ h' ≠ h ∧ V.files h' = some i' := by
  rcases eq_or_ne h' h with rfl | hne
  · have hself : (V.erase h').files h' = none := Function.update_self ..
    rw [hself]
    simp
  · have hother : (V.erase h).files h' = V.files h' := Function.update_of_ne hne ..
    rw [hother]
    exact ⟨fun hi => ⟨hne, hi⟩, And.right⟩

/-- **The sectors of a file are given back.** -/
theorem DiskOk.erase (hd : DiskOk D V disk) (hfile : V.files h = some i)
    (hsame : ∀ x, x ≠ V.map → disk' x = disk x)
    (hmarks : ∀ x, x < numSectors →
      (mapOn disk' V.map x = true ↔ mapOn disk V.map x = true ∧ ¬ Uses disk i.chain x)) :
    DiskOk D (V.erase h) disk' := by
  have huses : ∀ h' i', V.files h' = some i' → ∀ x, Uses disk i'.chain x → disk' x = disk x := by
    intro h' i' hi' x hx
    refine hsame x ?_
    rintro rfl
    exact (hd.reserved h' i' hi').2 hx
  have howns : ∀ x, (V.erase h).Owns disk' x ↔ V.Owns disk x ∧ ¬ Uses disk i.chain x := by
    intro x
    constructor
    · rintro ⟨h', i', hi', hu⟩
      obtain ⟨hne, hi'⟩ := erase_files_cases.mp hi'
      rw [uses_congr (huses h' i' hi')] at hu
      exact ⟨⟨h', i', hi', hu⟩, fun hc => hne (hd.apart h' h i' i x hi' hfile hu hc)⟩
    · rintro ⟨⟨h', i', hi', hu⟩, hno⟩
      refine ⟨h', i', erase_files_cases.mpr ⟨?_, hi'⟩, (uses_congr (huses h' i' hi') x).mpr hu⟩
      rintro rfl
      rw [hfile, Option.some.injEq] at hi'
      exact hno (hi' ▸ hu)
  refine ⟨fun h' i' hi' => ?_, fun h₁ h₂ i₁ i₂ x hi₁ hi₂ hx₁ hx₂ => ?_, fun x hx => ?_,
    fun x hx => ?_, fun h' i' hi' => ?_, hd.map_lt, hd.map_ne, ?_⟩
  · obtain ⟨-, hi'⟩ := erase_files_cases.mp hi'
    exact (hd.file h' i' hi').congr (huses h' i' hi')
  · obtain ⟨-, hi₁⟩ := erase_files_cases.mp hi₁
    obtain ⟨-, hi₂⟩ := erase_files_cases.mp hi₂
    rw [uses_congr (huses h₁ i₁ hi₁)] at hx₁
    rw [uses_congr (huses h₂ i₂ hi₂)] at hx₂
    exact hd.apart h₁ h₂ i₁ i₂ x hi₁ hi₂ hx₁ hx₂
  · rw [howns x]
    show mapOn disk' V.map x = true ↔ x = 0 ∨ x = V.map ∨ V.leaked x ∨ _
    rw [hmarks x hx, hd.marks x hx]
    constructor
    · tauto
    · rintro (rfl | rfl | hl | ho)
      · exact ⟨Or.inl rfl, (hd.reserved h i hfile).1⟩
      · exact ⟨Or.inr (Or.inl rfl), (hd.reserved h i hfile).2⟩
      · exact ⟨Or.inr (Or.inr (Or.inl hl)), fun hu => (hd.leaked x hl).2.2 ⟨h, i, hfile, hu⟩⟩
      · exact ⟨Or.inr (Or.inr (Or.inr ho.1)), ho.2⟩
  · obtain ⟨h0, hm, ho⟩ := hd.leaked x hx
    exact ⟨h0, hm, fun hc => ho ((howns x).mp hc).1⟩
  · obtain ⟨-, hi'⟩ := erase_files_cases.mp hi'
    rw [uses_congr (huses h' i' hi'), uses_congr (huses h' i' hi')]
    exact hd.reserved h' i' hi'
  · rw [headerOn, hsame 0 hd.map_ne.symm]
    exact hd.mapHeader

end Disk

/-! ## The tree -/

/-- A file is found from the root. -/
inductive Volume.Reaches (V : Volume) : ℕ → Prop
  | root : V.Reaches directorySector
  | entry {h j : ℕ} : V.Reaches h → (V.slot h j).inUse = true → V.Reaches (V.slot h j).sector

section Tree
variable {V V' : Volume} {d j sec : ℕ} {e : DirectoryEntry}

theorem slot_of_files {h : ℕ} {chain : List ℕ} {t : Directory}
    (hi : V.files h = some ⟨chain, some t⟩) (j : ℕ) : V.slot h j = t.slot j := by
  rw [Volume.slot, hi]

theorem slot_of_regular {h : ℕ} {chain : List ℕ} (hi : V.files h = some ⟨chain, none⟩) (j : ℕ) :
    V.slot h j = .fresh := by
  rw [Volume.slot, hi]

theorem slot_of_kind_none {h : ℕ} (hk : V.kind h = none) (j : ℕ) : V.slot h j = .fresh := by
  rw [Volume.kind, Option.map_eq_none_iff] at hk
  rw [Volume.slot, hk]

theorem kind_of_files {h : ℕ} {i : FileInfo} (hi : V.files h = some i) :
    V.kind h = some i.table.isSome := by
  rw [Volume.kind, hi]
  rfl

/-- An entry in use is in a directory. -/
theorem kind_of_inUse {h j : ℕ} (hu : (V.slot h j).inUse = true) : V.kind h = some true := by
  cases hi : V.files h with
  | none =>
    rw [slot_of_kind_none (by rw [Volume.kind, hi]; rfl)] at hu
    cases hu
  | some i =>
    obtain ⟨chain, _ | t⟩ := i
    · rw [slot_of_regular hi] at hu
      cases hu
    · exact kind_of_files hi

/-- Only the sizes of the tables change. -/
theorem TreeOk.of_slots (ht : TreeOk V) (hslot : ∀ h q, V'.slot h q = V.slot h q)
    (hkind : ∀ h, V'.kind h = V.kind h)
    (hlong : ∀ h chain t, V'.files h = some ⟨chain, some t⟩ → numDirEntries ≤ t.length) :
    TreeOk V' where
  root := (hkind _).trans ht.root
  entry h q := by
    rw [hslot h q, hkind]
    exact ht.entry h q
  unused h q := by
    rw [hslot h q]
    exact ht.unused h q
  once h q h' q' := by
    rw [hslot h q, hslot h' q']
    exact ht.once h q h' q'
  names h q q' := by
    rw [hslot h q, hslot h q']
    exact ht.names h q q'
  long := hlong

/-- The new entry, and what it leads to. -/
structure Adds (V : Volume) (d j sec : ℕ) (e : DirectoryEntry) (V' : Volume) : Prop where
  free : (V.slot d j).inUse = false
  inUse : e.inUse = true
  sector : e.sector = sec
  new : V.kind sec = none
  ne : d ≠ sec
  slot : ∀ h q, h ≠ sec → V'.slot h q = if h = d ∧ q = j then e else V.slot h q
  empty : ∀ q, (V'.slot sec q).inUse = false ∧ (V'.slot sec q).isDirectory = false
  kind : ∀ h, V'.kind h = if h = sec then some e.isDirectory else V.kind h

/-- Where the new entry is. -/
theorem Adds.slot_self (ha : Adds V d j sec e V') : V'.slot d j = e := by
  rw [ha.slot d j ha.ne, if_pos ⟨rfl, rfl⟩]

/-- An entry that was in use is what it was. -/
theorem Adds.slot_of_inUse (ha : Adds V d j sec e V') {h q : ℕ} (hu : (V.slot h q).inUse = true) :
    V'.slot h q = V.slot h q := by
  have hne : h ≠ sec := by
    rintro rfl
    rw [slot_of_kind_none ha.new] at hu
    cases hu
  rw [ha.slot h q hne, if_neg]
  rintro ⟨rfl, rfl⟩
  rw [ha.free] at hu
  cases hu

/-- An entry in use is the new one, or was there. -/
theorem Adds.inUse_cases (ha : Adds V d j sec e V') {h q : ℕ} (hu : (V'.slot h q).inUse = true) :
    h = d ∧ q = j ∧ V'.slot h q = e ∨
      V'.slot h q = V.slot h q ∧ (V.slot h q).inUse = true := by
  rcases eq_or_ne h sec with rfl | hne
  · rw [(ha.empty q).1] at hu
    cases hu
  · rw [ha.slot h q hne] at hu ⊢
    split at hu
    · rename_i hat
      rw [if_pos hat]
      exact Or.inl ⟨hat.1, hat.2, rfl⟩
    · rename_i hat
      rw [if_neg hat]
      exact Or.inr ⟨rfl, hu⟩

/-- **A file with a new name is added.** -/
theorem TreeOk.add (ht : TreeOk V) (ha : Adds V d j sec e V')
    (hname : ∀ q, (V.slot d q).inUse = true → (V.slot d q).sameName e = false)
    (hlong : ∀ h chain t, V'.files h = some ⟨chain, some t⟩ → numDirEntries ≤ t.length) :
    TreeOk V' := by
  -- nothing led to the new file
  have hsec : ∀ h q, (V.slot h q).inUse = true → (V.slot h q).sector ≠ sec := by
    intro h q hu heq
    have hk := (ht.entry h q hu).1
    rw [heq, ha.new] at hk
    cases hk
  have hroot : sec ≠ directorySector := by
    rintro rfl
    exact nomatch ht.root.symm.trans ha.new
  refine ⟨?_, fun h q hu => ?_, fun h q hu => ?_, fun h q h' q' hu hu' => ?_,
    fun h q q' hu hu' => ?_, hlong⟩
  · rw [ha.kind, if_neg hroot.symm]
    exact ht.root
  · rcases ha.inUse_cases hu with ⟨-, -, heq⟩ | ⟨heq, hold⟩
    · rw [heq, ha.sector, ha.kind, if_pos rfl]
      exact ⟨rfl, hroot⟩
    · rw [heq, ha.kind, if_neg (hsec h q hold)]
      exact ht.entry h q hold
  · rcases eq_or_ne h sec with rfl | hne
    · exact (ha.empty q).2
    · rw [ha.slot h q hne] at hu ⊢
      split at hu
      · rw [ha.inUse] at hu
        cases hu
      · rename_i hat
        rw [if_neg hat]
        exact ht.unused h q hu
  · rcases ha.inUse_cases hu with ⟨hh, hq, heq⟩ | ⟨heq, hold⟩ <;>
      rcases ha.inUse_cases hu' with ⟨hh', hq', heq'⟩ | ⟨heq', hold'⟩ <;>
      rw [heq, heq'] <;> intro hsame
    · exact ⟨hh.trans hh'.symm, hq.trans hq'.symm⟩
    · exact absurd (hsame.symm.trans ha.sector) (hsec h' q' hold')
    · exact absurd (hsame.trans ha.sector) (hsec h q hold)
    · exact ht.once h q h' q' hold hold' hsame
  · rcases ha.inUse_cases hu with ⟨hh, hq, heq⟩ | ⟨heq, hold⟩ <;>
      rcases ha.inUse_cases hu' with ⟨hh', hq', heq'⟩ | ⟨heq', hold'⟩ <;>
      rw [heq, heq'] <;> intro hsame
    · exact hq.trans hq'.symm
    · rw [DirectoryEntry.sameName, hh] at hsame
      have hnot := hname q' (hh ▸ hold')
      rw [DirectoryEntry.sameName, sameFrom_symm hsame] at hnot
      cases hnot
    · rw [hh'] at hold hsame
      rw [hname q hold] at hsame
      cases hsame
    · exact ht.names h q q' hold hold' hsame

/-- The entry of a file without files of its own is emptied. -/
structure Drops (V : Volume) (d j sec : ℕ) (V' : Volume) : Prop where
  inUse : (V.slot d j).inUse = true
  sector : (V.slot d j).sector = sec
  empty : ∀ q, (V.slot sec q).inUse = false
  slot : ∀ h q, h ≠ sec → V'.slot h q = if h = d ∧ q = j then (V.slot d j).emptied else V.slot h q
  kind : ∀ h, V'.kind h = if h = sec then none else V.kind h

/-- **A file is removed.** -/
theorem TreeOk.drop (ht : TreeOk V) (hd : Drops V d j sec V')
    (hlong : ∀ h chain t, V'.files h = some ⟨chain, some t⟩ → numDirEntries ≤ t.length) :
    TreeOk V' := by
  have hgone : ∀ q, V'.slot sec q = .fresh := by
    refine slot_of_kind_none ?_
    rw [hd.kind, if_pos rfl]
  -- an entry in use was there, in the same place, and led to another file
  have hback : ∀ h q, (V'.slot h q).inUse = true →
      V'.slot h q = V.slot h q ∧ (V.slot h q).inUse = true ∧ (V.slot h q).sector ≠ sec := by
    intro h q hu
    rcases eq_or_ne h sec with rfl | hne
    · rw [hgone q] at hu
      cases hu
    · rw [hd.slot h q hne] at hu ⊢
      split at hu
      · cases hu
      · rename_i hno
        rw [if_neg hno]
        refine ⟨rfl, hu, fun heq => hno ?_⟩
        exact ht.once h q d j hu hd.inUse (heq.trans hd.sector.symm)
  have hroot : sec ≠ directorySector := by
    rintro rfl
    exact (ht.entry d j hd.inUse).2 hd.sector
  refine ⟨?_, fun h q hu => ?_, fun h q hu => ?_, fun h q h' q' hu hu' => ?_,
    fun h q q' hu hu' => ?_, hlong⟩
  · rw [hd.kind, if_neg hroot.symm]
    exact ht.root
  · obtain ⟨heq, hold, hne⟩ := hback h q hu
    rw [heq, hd.kind, if_neg hne]
    exact ht.entry h q hold
  · rcases eq_or_ne h sec with rfl | hne
    · rw [hgone q]
      rfl
    · rw [hd.slot h q hne] at hu ⊢
      split
      · rfl
      · rename_i hno
        rw [if_neg hno] at hu
        exact ht.unused h q hu
  · obtain ⟨heq, hold, -⟩ := hback h q hu
    obtain ⟨heq', hold', -⟩ := hback h' q' hu'
    rw [heq, heq']
    exact ht.once h q h' q' hold hold'
  · obtain ⟨heq, hold, -⟩ := hback h q hu
    obtain ⟨heq', hold', -⟩ := hback h q' hu'
    rw [heq, heq']
    exact ht.names h q q' hold hold'

/-- What was found is found where all entries in use are kept. -/
theorem Volume.Reaches.mono {h : ℕ} (hr : V.Reaches h)
    (hslot : ∀ h q, (V.slot h q).inUse = true → V'.slot h q = V.slot h q) : V'.Reaches h := by
  induction hr with
  | root => exact .root
  | @entry h q _ hu ih =>
    have heq := hslot h q hu
    rw [← heq] at hu ⊢
    exact .entry ih hu

theorem Volume.Reaches.add {h : ℕ} (hr : V.Reaches h) (ha : Adds V d j sec e V') :
    V'.Reaches h :=
  hr.mono fun _ _ hu => ha.slot_of_inUse hu

theorem Volume.Reaches.drop {h : ℕ} (hr : V.Reaches h) (hd : Drops V d j sec V') (hne : h ≠ sec) :
    V'.Reaches h := by
  induction hr with
  | root => exact .root
  | @entry h q _ hu ih =>
    have hh : h ≠ sec := by
      rintro rfl
      rw [hd.empty q] at hu
      cases hu
    have hslot : V'.slot h q = V.slot h q := by
      rw [hd.slot h q hh, if_neg]
      rintro ⟨rfl, rfl⟩
      exact hne hd.sector
    rw [← hslot] at hu ⊢
    exact .entry (ih hh) hu

end Tree

end PaldOs
