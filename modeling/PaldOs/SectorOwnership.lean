import PaldOs.Filling

/-! # Who owns a sector

Every sector of a file has a place: the file it belongs to, by the way it is found from the root,
the header of the file, and whether it is the header itself or one of its data sectors.  The free
map is a file too, though it is not found from the root.

After any session on a volume that was empty at first, no sector has two places, and those that have
one are marked.  That all marked sectors have a place takes space: `Write` marks the sectors for
all its new headers before it knows whether there are data sectors for them.
-/
namespace PaldOs

/-- The file at `h` is the free map, or is found from the root in this way. -/
def Owner (disk : ℕ → Sector) : Option (List ℕ) → ℕ → Prop
  | none, h => h = freeMapSector
  | some path, h => ∃ isDirectory, Found disk path h isDirectory

/-- Sector `x` is header `i` of a file, or data sector `j` of that header. -/
def PlacedAt (disk : ℕ → Sector) (hs : List ℕ) (i : ℕ) (j : Option ℕ) (x : ℕ) : Prop :=
  i < hs.length ∧
    match j with
    | none => x = hs.getD i 0
    | some j => j < (headerOf disk hs i).numSectors ∧ x = (headerOf disk hs i).dataSectors j

/-- **Sector `x` has a place** in the file of the owner. -/
def Occupies (disk : ℕ → Sector) (owner : Option (List ℕ)) (i : ℕ) (j : Option ℕ) (x : ℕ) : Prop :=
  ∃ h, Owner disk owner h ∧ PlacedAt disk (chainOn disk h) i j x

/-- **Ownership of sectors.**  Chains of headers end; headers are in good order, and full but the
last; no sector has two places, and those with a place are sectors of the disk and marked. -/
structure OwnershipSafe (disk : ℕ → Sector) : Prop where
  head : ∀ owner h, Owner disk owner h → (chainOn disk h).getD 0 0 = h ∧
    0 < (chainOn disk h).length ∧ (chainOn disk h).Nodup
  next : ∀ owner h i, Owner disk owner h → i + 1 < (chainOn disk h).length →
    (headerOf disk (chainOn disk h) i).nextFileHeader = (chainOn disk h).getD (i + 1) 0
  last : ∀ owner h, Owner disk owner h →
    (headerOf disk (chainOn disk h) ((chainOn disk h).length - 1)).nextFileHeader = 0
  header : ∀ owner h i, Owner disk owner h → i < (chainOn disk h).length →
    (headerOf disk (chainOn disk h) i).numSectors =
        divRoundUp (headerOf disk (chainOn disk h) i).numBytes sectorSize ∧
      (headerOf disk (chainOn disk h) i).numSectors ≤ numDirect
  full : ∀ owner h i, Owner disk owner h → i + 1 < (chainOn disk h).length →
    (headerOf disk (chainOn disk h) i).numBytes = numDirect * sectorSize
  below : ∀ owner i j x, Occupies disk owner i j x → x < numSectors
  marked : ∀ owner i j x, Occupies disk owner i j x → mapAt disk x = true
  distinct : ∀ owner owner' i i' j j' x, Occupies disk owner i j x → Occupies disk owner' i' j' x →
    owner = owner' ∧ i = i' ∧ j = j'

section Ownership
variable {V : Volume} {disk : ℕ → Sector}

theorem DiskOk.mapChain {D : Discipline} (hd : DiskOk D V disk) :
    chainOn disk freeMapSector = [freeMapSector] := by
  have hnext : (headerOn disk freeMapSector).nextFileHeader = 0 := hd.mapHeader.2.2.2
  rw [chainOn, show numSectors = 1023 + 1 from rfl, chainFrom, if_pos hnext]

/-- The header of the free map. -/
theorem DiskOk.mapFile {D : Discipline} (hd : DiskOk D V disk) : FileOk disk [freeMapSector] := by
  obtain ⟨hbytes, hsectors, hdata, hnext⟩ := hd.mapHeader
  have hone : ∀ j, j < (headerOn disk freeMapSector).numSectors → j = 0 := by
    intro j hj
    have : j < 1 := hsectors ▸ hj
    omega
  refine FileOk.single (by decide) ⟨?_, ?_, fun j hj => ?_⟩ ?_ hnext fun j hj => ?_
  · exact hbytes.le.trans (by decide)
  · exact hsectors.trans ((congrArg (divRoundUp · sectorSize) hbytes).symm ▸ by decide)
  · rw [hone j hj]
    exact hdata.le.trans_lt hd.map_lt
  · intro i j hi hj _
    rw [hone i hi, hone j hj]
  · rw [hone j hj]
    intro hc
    exact hd.map_ne (hdata.symm.trans hc)

/-- The sectors of the free map. -/
theorem DiskOk.uses_map {D : Discipline} (hd : DiskOk D V disk) {x : ℕ} :
    Uses disk [freeMapSector] x ↔ x = freeMapSector ∨ x = V.map := by
  obtain ⟨-, hsectors, hdata, -⟩ := hd.mapHeader
  have hsectors' : (headerOn disk freeMapSector).numSectors = 1 := hsectors
  have hdata' : (headerOn disk freeMapSector).dataSectors 0 = V.map := hdata
  rw [uses_single, hsectors']
  refine or_congr_right ⟨?_, fun hx => ⟨0, Nat.one_pos, hx.trans hdata'.symm⟩⟩
  rintro ⟨j, hj, hx⟩
  obtain rfl : j = 0 := by omega
  exact hx.trans hdata'

/-- What is owned is in good order. -/
theorem DiskOk.owner (hd : DiskOk .strict V disk) (ht : TreeOk V) {owner : Option (List ℕ)} {h : ℕ}
    (ho : Owner disk owner h) : FileOk disk (chainOn disk h) ∧ (chainOn disk h).getD 0 0 = h ∧
      (h = freeMapSector ∧ owner = none ∨
        ∃ path i, owner = some path ∧ V.files h = some i ∧ chainOn disk h = i.chain) := by
  cases owner with
  | none =>
    obtain rfl : h = freeMapSector := ho
    rw [hd.mapChain]
    exact ⟨hd.mapFile, rfl, Or.inl ⟨rfl, rfl⟩⟩
  | some path =>
    obtain ⟨isDirectory, hfound⟩ := ho
    have hk := hd.found ht hfound
    rw [Volume.kind, Option.map_eq_some_iff] at hk
    obtain ⟨⟨chain, table⟩, hi, -⟩ := hk
    have hchain := hd.chainOn_eq hi
    have hfile := hd.file h _ hi
    rw [hchain]
    refine ⟨?_, hfile.head, Or.inr ⟨path, _, rfl, hi, rfl⟩⟩
    cases table with
    | none => exact hfile.regular rfl
    | some t => exact (hfile.directory t rfl).1

/-- What is used are the sectors that have a place. -/
theorem uses_iff_placedAt {hs : List ℕ} {x : ℕ} :
    Uses disk hs x ↔ ∃ i j, PlacedAt disk hs i j x := by
  constructor
  · rintro ⟨i, hi, hx | ⟨j, hx⟩⟩
    · exact ⟨i, none, hi, hx⟩
    · exact ⟨i, some j, hi, hx⟩
  · rintro ⟨i, j, hi, hx⟩
    refine ⟨i, hi, ?_⟩
    cases j with
    | none => exact Or.inl hx
    | some j => exact Or.inr ⟨j, hx⟩

theorem occupies_of_uses {owner : Option (List ℕ)} {h x : ℕ} (ho : Owner disk owner h)
    (hx : Uses disk (chainOn disk h) x) : ∃ i j, Occupies disk owner i j x := by
  obtain ⟨i, j, hp⟩ := uses_iff_placedAt.mp hx
  exact ⟨i, j, h, ho, hp⟩

/-- A sector has one place in a file. -/
theorem Sound.placedAt_unique {hs : List ℕ} {x i i' : ℕ} {j j' : Option ℕ} (hf : Sound disk hs)
    (hp : PlacedAt disk hs i j x) (hp' : PlacedAt disk hs i' j' x) : i = i' ∧ j = j' := by
  obtain ⟨hi, hx⟩ := hp
  obtain ⟨hi', hx'⟩ := hp'
  cases j with
  | none =>
    cases j' with
    | none => exact ⟨hf.heads_distinct i i' hi hi' (hx.symm.trans hx'), rfl⟩
    | some j' => exact absurd (hx.symm.trans hx'.2) (hf.apart i i' j' hi hi' hx'.1)
  | some j =>
    cases j' with
    | none => exact absurd (hx'.symm.trans hx.2) (hf.apart i' i j hi' hi hx.1)
    | some j' =>
      obtain ⟨h1, h2⟩ := hf.data_distinct i j i' j' hi hx.1 hi' hx'.1 (hx.2.symm.trans hx'.2)
      exact ⟨h1, congrArg some h2⟩

/-- The two places of a sector are in one file. -/
theorem DiskOk.owner_unique (hd : DiskOk .strict V disk) (ht : TreeOk V)
    {owner owner' : Option (List ℕ)} {h h' x : ℕ} (ho : Owner disk owner h)
    (ho' : Owner disk owner' h') (hx : Uses disk (chainOn disk h) x)
    (hx' : Uses disk (chainOn disk h') x) : owner = owner' ∧ h = h' := by
  obtain ⟨-, -, hcase⟩ := hd.owner ht ho
  obtain ⟨-, -, hcase'⟩ := hd.owner ht ho'
  -- a sector of the free map is not one of a file
  have hno : ∀ h i, V.files h = some i → Uses disk i.chain x → ¬ Uses disk [freeMapSector] x := by
    intro h i hi hu hmap
    obtain ⟨h0, hm⟩ := hd.reserved h i hi
    rcases hd.uses_map.mp hmap with rfl | rfl
    · exact h0 hu
    · exact hm hu
  rcases hcase with ⟨rfl, rfl⟩ | ⟨path, i, rfl, hi, hchain⟩ <;>
    rcases hcase' with ⟨rfl, rfl⟩ | ⟨path', i', rfl, hi', hchain'⟩
  · exact ⟨rfl, rfl⟩
  · rw [hd.mapChain] at hx
    rw [hchain'] at hx'
    exact absurd hx (hno h' i' hi' hx')
  · rw [hd.mapChain] at hx'
    rw [hchain] at hx
    exact absurd hx' (hno h i hi hx)
  · rw [hchain] at hx
    rw [hchain'] at hx'
    obtain rfl := hd.apart h h' i i' x hi hi' hx hx'
    obtain ⟨b, hf⟩ := ho
    obtain ⟨b', hf'⟩ := ho'
    exact ⟨congrArg some (hd.found_unique ht hf hf'), rfl⟩

/-- **A disk that holds a tree of files in good order is safe.** -/
theorem DiskOk.ownershipSafe (hd : DiskOk .strict V disk) (ht : TreeOk V) : OwnershipSafe disk := by
  have hmarked : ∀ owner i j x, Occupies disk owner i j x →
      x < numSectors ∧ mapAt disk x = true := by
    intro owner i j x ho
    obtain ⟨h, hown, hp⟩ := ho
    have hu := uses_iff_placedAt.mpr ⟨i, j, hp⟩
    obtain ⟨hok, -, hcase⟩ := hd.owner ht hown
    refine ⟨hok.sound.uses_lt hu, ?_⟩
    rw [hd.mapAt_eq]
    rcases hcase with ⟨rfl, -⟩ | ⟨path, i', -, hi', hchain⟩
    · rw [hd.mapChain] at hu
      rcases hd.uses_map.mp hu with rfl | rfl
      · exact hd.zero_marked
      · exact hd.map_marked
    · rw [hchain] at hu
      exact (hd.owned_marked ⟨h, i', hi', hu⟩).2
  refine ⟨fun owner h ho => ?_, fun owner h i ho hi => ?_, fun owner h ho => ?_,
    fun owner h i ho hi => ?_, fun owner h i ho hi => ?_,
    fun owner i j x ho => (hmarked owner i j x ho).1,
    fun owner i j x ho => (hmarked owner i j x ho).2,
    fun owner owner' i i' j j' x ho ho' => ?_⟩
  · obtain ⟨hok, hhead, -⟩ := hd.owner ht ho
    exact ⟨hhead, hok.pos, hok.sound.nodup⟩
  · exact (hd.owner ht ho).1.next i hi
  · exact (hd.owner ht ho).1.last
  · have hheader := (hd.owner ht ho).1.headers i hi
    exact ⟨hheader.numSectors_eq, hheader.numSectors_le⟩
  · exact (hd.owner ht ho).1.full i hi
  · obtain ⟨h, hown, hp⟩ := ho
    obtain ⟨h', hown', hp'⟩ := ho'
    obtain ⟨howner, rfl⟩ := hd.owner_unique ht hown hown' (uses_iff_placedAt.mpr ⟨i, j, hp⟩)
      (uses_iff_placedAt.mpr ⟨i', j', hp'⟩)
    exact ⟨howner, (hd.owner ht hown).1.sound.placedAt_unique hp hp'⟩

end Ownership

/-- **Sectors have one owner**, after any session on a volume that was empty at first; and a legal
call that has something to do and nobody to wait for comes back. -/
theorem session_ownershipSafe {disk : ℕ → Sector} (hf : Formatted disk) :
    ∃ w₀, World.boot disk = some w₀ ∧ ∀ calls w, Session World.Legal w₀ calls w →
      OwnershipSafe w.sys.disk ∧
        ∀ call, w.Legal call → w.Proceeds call → ∃ w', w.perform call = some w' := by
  obtain ⟨w₀, handles, rest, hboot, hl, -⟩ := hf.live
  refine ⟨w₀, hboot, fun calls w hs => ?_⟩
  obtain ⟨hheap, hs⟩ := hs.typed hboot fun _ _ hg => hg
  obtain ⟨V, c, rest', hl'⟩ := hf.session hboot (hs.mono fun _ _ _ hg => hg.2)
  exact ⟨hl'.idle.ready.disk.ownershipSafe hl'.idle.ready.tree,
    fun call hlegal hp => hl'.proceeds (hlegal.typed hheap) hp⟩

/-- Twelve files, of which the first takes all sectors but one. -/
theorem session_ownershipSafe_blank : Formatted blankDisk ∧ ∃ w₀ f w,
    World.boot blankDisk = some w₀ ∧ Session World.Legal w₀ (fill f 972) w ∧
      OwnershipSafe w.sys.disk ∧
        ∀ call, w.Legal call → w.Proceeds call → ∃ w', w.perform call = some w' := by
  obtain ⟨w₀, f, w, V, rest, hboot, hs, -⟩ := filled 972 1 (by decide) (by decide) (by decide)
  obtain ⟨w₁, hboot', hsafe⟩ := session_ownershipSafe blankDisk_formatted
  obtain rfl := Option.some.inj (hboot.symm.trans hboot')
  exact ⟨blankDisk_formatted, w₀, f, w, hboot, hs, hsafe _ w hs⟩

/-! ## Sectors without an owner -/

/-- **No sector is lost.** -/
def NoLeak (disk : ℕ → Sector) : Prop :=
  ∀ x, x < numSectors → mapAt disk x = true → ∃ owner i j, Occupies disk owner i j x

/-- The sectors that are marked for no file have no place. -/
theorem Idle.noLeak_iff {V : Volume} {s : System} {c : ℕ} {rest : List (ℕ × ℕ)}
    (hi : Idle .strict V s c rest) :
    NoLeak s.disk ↔ ∀ x, x < numSectors → ¬ V.leaked x := by
  have hd := hi.ready.disk
  have ht := hi.ready.tree
  constructor
  · intro hno x hx hleak
    have hmark := (hd.marks x hx).mpr (Or.inr (Or.inr (Or.inl hleak)))
    rw [← hd.mapAt_eq] at hmark
    obtain ⟨owner, i, j, ho⟩ := hno x hx hmark
    obtain ⟨h, hown, hp⟩ := ho
    have hu := uses_iff_placedAt.mpr ⟨i, j, hp⟩
    obtain ⟨h0, hm, howns⟩ := hd.leaked x hleak
    obtain ⟨-, -, ⟨rfl, -⟩ | ⟨path, i', -, hi', hchain⟩⟩ := hd.owner ht hown
    · rw [hd.mapChain] at hu
      exact (hd.uses_map.mp hu).elim h0 hm
    · rw [hchain] at hu
      exact howns ⟨h, i', hi', hu⟩
  · intro hno x hx hmark
    rw [hd.mapAt_eq, hd.marks x hx] at hmark
    have hmap : ∀ y, y = freeMapSector ∨ y = V.map → ∃ owner i j, Occupies s.disk owner i j y := by
      intro y hy
      have howner : Owner s.disk none freeMapSector := rfl
      exact ⟨none, occupies_of_uses howner (by rw [hd.mapChain]; exact hd.uses_map.mpr hy)⟩
    rcases hmark with rfl | rfl | hleak | ⟨h, i, hi', hu⟩
    · exact hmap _ (Or.inl rfl)
    · exact hmap _ (Or.inr rfl)
    · exact absurd hleak (hno x hx)
    · obtain ⟨path, b, hfound, -⟩ := hd.found_of_reaches ht (hi.reached h i hi')
      have howner : Owner s.disk (some path) h := ⟨b, hfound⟩
      exact ⟨some path, occupies_of_uses howner (by rw [hd.chainOn_eq hi']; exact hu)⟩

/-- A session of calls that lose no sector for lack of space. -/
theorem Formatted.keeping {disk : ℕ → Sector} {w₀ w : World} {calls : List Call}
    (hf : Formatted disk) (hboot : World.boot disk = some w₀)
    (hs : Session (fun w call => w.Typed call ∧ w.Keeps call) w₀ calls w) :
    ∃ V c rest, Live w V c rest ∧ ∀ x, ¬ V.leaked x := by
  obtain ⟨w₁, handles, rest, hboot', hl, -⟩ := hf.live
  obtain rfl := Option.some.inj (hboot.symm.trans hboot')
  exact hs.invariant (P := fun V => ∀ x, ¬ V.leaked x) hl (fun _ h => h) (fun _ _ hg => hg.1)
    fun w call V w' V' hg hsteps hP x hx => hP x (hsteps.keeps hg.2 x hx)

/-- **No sector is lost** in a session of calls that find the space they need, or not even the
sectors for their headers. -/
theorem session_noLeak {disk : ℕ → Sector} (hf : Formatted disk) :
    ∃ w₀, World.boot disk = some w₀ ∧
      ∀ calls w, Session (fun w call => w.Typed call ∧ w.Keeps call) w₀ calls w →
        NoLeak w.sys.disk := by
  obtain ⟨w₀, -, -, hboot, -⟩ := hf.live
  refine ⟨w₀, hboot, fun calls w hs => ?_⟩
  obtain ⟨V, c, rest', hl', hV⟩ := hf.keeping hboot hs
  exact hl'.idle.noLeak_iff.mpr fun x _ => hV x

/-- Twelve files are created. -/
theorem session_noLeak_blank : Formatted blankDisk ∧ ∃ w₀ w, World.boot blankDisk = some w₀ ∧
    Session (fun w call => w.Typed call ∧ w.Keeps call) w₀ (crowd 12) w ∧
    (mapAt w.sys.disk).countClear = 1006 ∧ NoLeak w.sys.disk := by
  obtain ⟨w₀, w, V, rest, hboot, hs, h, -⟩ := crowded (k := 12) (by decide)
  have hs' : Session (fun w call => w.Typed call ∧ w.Keeps call) w₀ (crowd 12) w :=
    Run.mono (fun _ _ _ hg => ⟨hg.2.1, hg.2.2.1⟩) hs
  obtain ⟨w₁, hboot', hno⟩ := session_noLeak blankDisk_formatted
  obtain rfl := Option.some.inj (hboot.symm.trans hboot')
  exact ⟨blankDisk_formatted, w₀, w, hboot, hs', h.free, hno _ w hs'⟩

/-- A `Write` that takes sectors for headers, and then finds no space for the data, loses them: with
1017 free sectors, one of 3671168 bytes. -/
theorem write_loses_sectors : Formatted blankDisk ∧ ∃ w₀ f w, World.boot blankDisk = some w₀ ∧
    Session World.Legal w₀
      [.create (letter 0), .openFile (letter 0), .write f (fun _ => 0) 3671168] w ∧
    ¬ NoLeak w.sys.disk := by
  refine ⟨blankDisk_formatted, ?_⟩
  obtain ⟨w₀, w₁, V₁, rest₁, hboot, hkeeping, h₁, hempty₁⟩ := crowded (k := 1) (by decide)
  have hs₁ : Session World.Legal w₀ (crowd 1) w₁ := Run.mono (fun _ _ _ hg => hg.1) hkeeping
  obtain ⟨s₂, f, V₂, rest₂, hopen, h₂, hempty₂, hsector⟩ := h₁.openFile hempty₁ (by decide)
  obtain ⟨hlegal, x, m, s₃, V₃, hwrite, hlive, -, hcount, -, hw, -⟩ :=
    h₂.write hempty₂ (by decide) List.mem_cons_self hsector (fun _ => 0) (n := 3671168) (by decide)
  refine ⟨w₀, f, _, hboot, (hs₁.next (.openFile (letter 0)) trivial hopen).next _ hlegal hwrite, ?_⟩
  have hfree : (mapOn s₂.disk V₂.map).countClear = 1017 := by
    rw [← h₂.live.idle.ready.disk.mapAt_eq]
    exact h₂.free
  have hwaste : Wasteful s₂.disk [x] (mapOn s₂.disk V₂.map) 0 3671168 := by
    have hnone : sectorCount s₂.disk [x] = 0 := hcount
    unfold Wasteful Short
    rw [hfree, hnone, List.length_singleton]
    decide
  obtain ⟨y, hlt, hleak⟩ := hw.wasteful hwaste
  intro hno
  exact hlive.idle.noLeak_iff.mp hno y hlt hleak

end PaldOs
