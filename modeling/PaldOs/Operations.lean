import PaldOs.Creating

/-! # Operations on a quiet volume

`Idle` is the invariant between the operations of a single thread: a volume that can be used, all
of whose files are found from the root, a current directory with a handle of its own, and
`filesysCreateLock` free.  Every operation keeps it.

What else holds after an operation depends on the space there was: when no sector was lost, and
when no handle was.  The conditions are about the disk before the operation.
-/
namespace PaldOs

open Sys

/-- **Between two operations.**  The current directory is at `c`, and `rest` are the other
handles. -/
structure Idle (D : Discipline) (V : Volume) (s : System) (c : ℕ) (rest : List (ℕ × ℕ)) : Prop where
  ready : Ready D V s
  handles : V.handles = (s.directoryFile, c) :: rest
  dir : ∃ chain t, AtDir V s c chain t
  reached : V.AllReached
  unlocked : s.held filesysCreateLock = false

/-- The path of the directory in which a file is created, if the path is absolute. -/
def parentPath (name : List UInt8) : List UInt8 :=
  if lastSlashFound name = 0 then [slash] else name.take (lastSlashFound name)

/-- The name in that directory. -/
def baseName (name : List UInt8) : List UInt8 := name.drop (lastSlashFound name + 1)

/-- An absolute path is short enough for the buffers of `Create` and `ChangeDir`. -/
def CreateFits (name : List UInt8) : Prop :=
  name.head? = some slash →
    name.length < filePathMaxLen ∧ (tokens (parentPath name).tail).length < maxDirLevel

theorem System.putHeld_self (s : System) (l : ℕ) (b : Bool) : (s.putHeld l b).held l = b :=
  Function.update_self ..

section Entering
variable {D : Discipline} {V : Volume} {s s' : System} {c : ℕ} {rest : List (ℕ × ℕ)}
  {name : List UInt8}

theorem parentPath_head (h : name.head? = some slash) : (parentPath name).head? = some slash := by
  unfold parentPath
  split
  · rfl
  · cases name with
    | nil => cases h
    | cons a l =>
      rename_i hne
      obtain ⟨n, hn⟩ := Nat.exists_eq_succ_of_ne_zero hne
      rw [hn]
      exact h

theorem parentPath_length (name : List UInt8) : (parentPath name).tail.length ≤ name.length := by
  unfold parentPath
  split
  · exact Nat.zero_le _
  · rw [List.length_tail, List.length_take]
    omega

/-- `Create` gets to the directory in which it works. -/
theorem Ready.enterParent (hr : Ready D { V with handles := (s.directoryFile, c) :: rest } s)
    (hi : (V.files c).isSome = true) (hfits : CreateFits name) :
    s.Ends (FileSystem.enterParent name) (fun r s' =>
      name.head? ≠ some slash ∧ r = some (name, none) ∧ s' = s ∨
      name.head? = some slash ∧ name.tail = [] ∧ r = none ∧ s' = s ∨
      name.head? = some slash ∧ name.tail ≠ [] ∧
        ((∃ p, resolve V.table directorySector (tokens (parentPath name).tail) = some p ∧
            r = some (baseName name, some s.directoryFile) ∧
            Moved D V ((s.directoryFile, c) :: rest) p s s') ∨
          ∃ x, resolve V.table directorySector (tokens (parentPath name).tail) = none ∧ r = none ∧
            Lost D V ((s.directoryFile, c) :: rest) x s s')) := by
  unfold FileSystem.enterParent
  by_cases hslash : name.head? = some slash
  · rw [if_pos hslash]
    obtain ⟨hlen, hlevel⟩ := hfits hslash
    by_cases htail : name.tail = []
    · rw [if_pos htail]
      exact Prog.ends_pure.mpr (Or.inr (Or.inl ⟨hslash, htail, rfl, rfl⟩))
    · rw [if_neg htail]
      simp only [Prog.ends_bind, ends_assert, ends_getDirectoryFile]
      refine ⟨hlen, ?_⟩
      rw [FileSystem.changeDir]
      change s.Ends (if (parentPath name).head? = some slash then
        FileSystem.changeDirFromRoot (parentPath name).tail false else _) _
      rw [if_pos (parentPath_head hslash)]
      have hpath := parentPath_length name
      refine (hr.changeDirFromRoot hi false (by omega) hlevel).mono ?_
      rintro r s' (⟨p, rfl, hres, hm⟩ | ⟨x, rfl, hres, hlost⟩)
      · exact Prog.ends_pure.mpr (Or.inr (Or.inr ⟨hslash, htail, Or.inl ⟨p, hres, rfl, hm⟩⟩))
      · exact Prog.ends_pure.mpr (Or.inr (Or.inr ⟨hslash, htail, Or.inr ⟨x, hres, rfl, hlost⟩⟩))
  · rw [if_neg hslash]
    exact Prog.ends_pure.mpr (Or.inl ⟨hslash, rfl, rfl⟩)

/-- `Create` comes back. -/
theorem Ready.leaveParent {b p : ℕ}
    (hr : Ready D { V with handles := (s.directoryFile, p) :: (b, c) :: rest } s)
    (hp : (V.files p).isSome = true) (hc : V.kind c = some true) :
    s.Ends (FileSystem.leaveParent (some b)) (fun _ s' => s'.directoryFile = b ∧
      Moved D V rest c s s') := by
  obtain ⟨chain, t, hi⟩ := kind_true_iff.mp hc
  have hr' := hr.perm (List.Perm.swap ..)
  unfold FileSystem.leaveParent
  simp only [Prog.ends_bind, ends_getDirectoryFile, Prog.ends_pure]
  refine ends_setDirectoryFile.mpr ((hr'.enter (V := V) hp (Same.refl s) hi).mono ?_)
  intro _ s₁ h₁
  refine h₁.mono ?_
  rintro n s₂ ⟨-, hf, hm⟩
  exact ⟨hf, hm⟩

end Entering

/-! ## Creating -/

/-- Where `Create` adds a name, with the current directory at `c`: the directory, how many entries
it reads of it, and the name there. -/
def createAt (disk : ℕ → Sector) (c size : ℕ) (name : List UInt8) :
    Option (ℕ × ℕ × List UInt8) :=
  if name.head? = some slash then
    if name.tail = [] then none
    else (resolve (tableAt disk) directorySector (tokens (parentPath name).tail)).map fun p =>
      (p, (tableAt disk p).length, baseName name)
  else some (c, size, name)

/-- **No sector is lost** when a file with `more` sectors besides the one of its header is
created. -/
def CreateKeeps (disk : ℕ → Sector) (c size : ℕ) (name : List UInt8) (more : ℕ) : Prop :=
  ∀ p n base, createAt disk c size name = some (p, n, base) →
    Addable disk (chainOn disk p) (mapAt disk) (tableAt disk p) n base more

/-- **No handle is lost** then: an absolute path leads to a directory, and if the name is new there
is space for the file or not even for its header. -/
def CreateReturns (disk : ℕ → Sector) (name : List UInt8) (more : ℕ) : Prop :=
  name.head? = some slash → name.tail ≠ [] →
    ∃ p, resolve (tableAt disk) directorySector (tokens (parentPath name).tail) = some p ∧
      (((tableAt disk p).find (baseName name)).isSome = true ∨ (mapAt disk).countClear = 0 ∨
        more < (mapAt disk).countClear)

/-- How many entries a directory with `n` entries is noted to have after a failed attempt to add the
name. -/
def sizeAfter (t : Directory) (n : ℕ) (base : List UInt8) : ℕ :=
  if (t.find base).isSome then n else max n (t.freeIndex + 1)

/-- **A failed attempt changes nothing**: with a relative name, the number of entries that is noted
is the one it was; with an absolute path, `CreateDir` does not return early, and the number of
entries was the right one. -/
def CreateClean (disk : ℕ → Sector) (c size : ℕ) (name : List UInt8) (more : ℕ) : Prop :=
  ∀ p n base, createAt disk c size name = some (p, n, base) →
    if name.head? = some slash then
      if (tableAt disk p).find base = none ∧ 0 < (mapAt disk).countClear ∧
          (mapAt disk).countClear ≤ more then
        p = c ∧ sizeAfter (tableAt disk p) n base = size
      else (tableAt disk c).length = size
    else sizeAfter (tableAt disk p) n base = size

/-- Whether the entry fits, in the directory at `p`, once the sectors of the new file are taken. -/
def CreateFitsEntry (disk : ℕ → Sector) (p n more : ℕ) : Prop :=
  ∀ freeMap : Bitmap, freeMap.countClear + more + 1 = (mapAt disk).countClear →
    EntryFits disk (chainOn disk p) freeMap (tableAt disk p)
      (max n ((tableAt disk p).freeIndex + 1)) (tableAt disk p).freeIndex

/-- **The entry of a new file gets the type of a file**, if there is one: it is not an entry by which
the directory grows, or not one with the mark of a directory. -/
def CreateTyped (heap : ℕ → UInt8) (disk : ℕ → Sector) (c size : ℕ) (name : List UInt8) : Prop :=
  ∀ p n base, createAt disk c size name = some (p, n, base) → (tableAt disk p).find base = none →
    0 < (mapAt disk).countClear → GrowsTyped heap (tableAt disk p) n

/-- What `Create` leaves behind. -/
structure Created (D : Discipline) (V : Volume) (s : System) (c : ℕ) (rest : List (ℕ × ℕ))
    (isDirectory : Bool) (more : ℕ) (name : List UInt8) (r : Bool) (V' : Volume) (c' : ℕ)
    (s' : System) : Prop where
  idle : Idle D V' s' c' rest
  map : V'.map = V.map
  freeMapFile : s'.freeMapFile = s.freeMapFile
  kind : ∀ h b, V.kind h = some b → V'.kind h = some b
  keeps : CreateKeeps s.disk c s.directorySize name more → ∀ x, V'.leaked x → V.leaked x
  returns : CreateReturns s.disk name more → c' = c ∧ ∀ x, V'.extra x ≤ V.extra x
  lost : ¬ CreateReturns s.disk name more → ∃ x, V'.extra x ≠ 0
  stored : ∀ p n base, createAt s.disk c s.directorySize name = some (p, n, base) →
    Addable s.disk (chainOn s.disk p) (mapAt s.disk) (tableAt s.disk p) n base more →
    (tableAt s.disk p).find base = none → more < (mapAt s.disk).countClear →
    r = true ∧ Enrolled V s p (chainOn s.disk p) base isDirectory (more + 1) V' s'
  result : r = true ↔ ∃ p n base, createAt s.disk c s.directorySize name = some (p, n, base) ∧
    (tableAt s.disk p).find base = none ∧ more < (mapAt s.disk).countClear
  size : name.head? ≠ some slash →
    s'.directorySize = sizeAfter (tableAt s.disk c) s.directorySize name
  failed : r = false → s'.disk = s.disk ∧ (c' = c ∧ s'.directorySize = s.directorySize ↔
    CreateClean s.disk c s.directorySize name more)
  succeeded : r = true → ∃ p n base sector,
    createAt s.disk c s.directorySize name = some (p, n, base) ∧ V.kind p = some true ∧
    (tableAt s.disk p).find base = none ∧ sector < numSectors ∧ mapAt s.disk sector = false ∧
    (∀ x, x < sector → mapAt s.disk x = true) ∧
    Bound V s p base isDirectory sector (CreateFitsEntry s.disk p n more) V' s'

section Creating
variable {D : Discipline} {V V' : Volume} {s s' : System} {c : ℕ} {rest : List (ℕ × ℕ)}
  {name : List UInt8}

theorem Idle.ready_handles (hi : Idle D V s c rest) :
    Ready D { V with handles := (s.directoryFile, c) :: rest } s := by
  rw [← hi.handles]
  exact hi.ready

theorem Idle.kind (hi : Idle D V s c rest) : V.kind c = some true := by
  obtain ⟨chain, t, ha⟩ := hi.dir
  exact kind_true_iff.mpr ⟨chain, t, ha.file⟩

theorem AllReached.relabel (hall : V.AllReached) (handles : List (ℕ × ℕ)) (extra : ℕ → ℕ) :
    Volume.AllReached { V with handles := handles, extra := extra } := by
  intro h i hi
  exact (hall h i hi).mono fun _ _ _ => rfl

theorem Enrolled.relabel {p taken : ℕ} {chain : List ℕ} {isDirectory : Bool}
    (he : Enrolled V s p chain name isDirectory taken V' s') {V₁ V₁' : Volume} {s₁ s₁' : System}
    (hmap : V₁.map = V.map) (hfiles : V₁.files = V.files) (hfiles' : V₁'.files = V'.files)
    (hdisk : s₁.disk = s.disk) (hdisk' : s₁'.disk = s'.disk) :
    Enrolled V₁ s₁ p chain name isDirectory taken V₁' s₁' where
  entry := by
    obtain ⟨j, e, h1, h2, hfree, hused, hne, hslot, i, hi, hrest⟩ := he.entry
    have hsame : ∀ h q, V₁.slot h q = V.slot h q := fun h q => by
      rw [Volume.slot, Volume.slot, hfiles]
    refine ⟨j, e, h1, h2, (hsame p j).symm ▸ hfree, fun q hq => (hsame p q).symm ▸ hused q hq,
      hne, fun h q hh => ?_, i, by rw [hfiles']; exact hi, by rw [hdisk']; exact hrest⟩
    have := hslot h q hh
    rw [Volume.slot] at this ⊢
    rw [hsame, hfiles']
    exact this
  count chain' t' hi := by
    rw [hfiles'] at hi
    rw [hmap, hdisk, hdisk']
    exact he.count chain' t' hi
  marked := by
    rw [hmap, hdisk, hdisk']
    exact he.marked
  still := by
    rw [hfiles, hfiles', hdisk, hdisk']
    exact he.still

theorem Bound.relabel {p sector : ℕ} {isDirectory : Bool} {fits fits' : Prop}
    (hb : Bound V s p name isDirectory sector fits V' s') {V₁ V₁' : Volume} {s₁ s₁' : System}
    (hfiles : V₁.files = V.files) (hfiles' : V₁'.files = V'.files) (hdisk : s₁.disk = s.disk)
    (hdisk' : s₁'.disk = s'.disk) (hfits : fits ↔ fits') :
    Bound V₁ s₁ p name isDirectory sector fits' V₁' s₁' := by
  have hslot : ∀ h q, V₁.slot h q = V.slot h q := fun h q => by
    rw [Volume.slot, Volume.slot, hfiles]
  have hslot' : ∀ h q, V₁'.slot h q = V'.slot h q := fun h q => by
    rw [Volume.slot, Volume.slot, hfiles']
  refine ⟨fun h q hu => ?_, fun h chain hh => ?_, fun h => ?_, fun hno h q => ?_⟩
  · rw [hslot] at hu ⊢
    rw [hslot']
    exact hb.entries h q hu
  · rw [hfiles] at hh
    rw [hfiles', hdisk, hdisk']
    exact hb.file h chain hh
  · obtain ⟨j, hj⟩ := hb.bound (hfits.mpr h)
    exact ⟨j, by rw [hslot']; exact hj⟩
  · rw [hslot, hslot']
    exact hb.unbound (fun hc => hno (hfits.mp hc)) h q

/-- An attempt, seen from before the table was read. -/
theorem Attempt.of_same {s₁ : System} {p : ℕ} {chain : List ℕ} {t : Directory}
    {isDirectory : Bool} {more : ℕ} {r : Option Bool}
    (ha : Attempt D V s₁ p chain t name isDirectory more r V' s') (hs : Same s s₁) :
    Attempt D V s p chain t name isDirectory more r V' s' where
  added := ⟨ha.added.ready, ha.added.map, ha.added.handles, ha.added.extra_le, ha.added.reached,
    ha.added.kind, ha.added.dir, ha.added.freeMapFile.trans hs.freeMapFile,
    ha.added.directoryFile.trans hs.directoryFile, ha.added.createLock.trans hs.createLock⟩
  result := by
    rw [← hs.disk]
    exact ha.result
  keeps h := by
    rw [← hs.disk, ← hs.directorySize] at h
    obtain ⟨hleak, henr⟩ := ha.keeps h
    exact ⟨hleak, fun hr => (henr hr).relabel rfl rfl rfl hs.disk.symm rfl⟩
  tried := by
    refine ⟨?_, fun hr => ?_, fun hr => ?_⟩
    · rw [← hs.directorySize]
      exact ha.tried.size
    · rw [← hs.disk]
      exact ha.tried.failed hr
    · rw [← hs.disk, ← hs.directorySize]
      obtain ⟨sector, freeMap, h1, h2, h3, h4, hb⟩ := ha.tried.succeeded hr
      exact ⟨sector, freeMap, h1, h2, h3, h4, hb.relabel rfl rfl hs.disk.symm rfl Iff.rfl⟩

/-- The table is read, and the name is added or misfiled. -/
theorem Ready.addName (hr : Ready D V s) {p : ℕ} {chain : List ℕ} {t : Directory}
    (ha : AtDir V s p chain t) {isDirectory : Bool} {more : ℕ}
    {store : ℕ → Bitmap → Directory → Sys (Option Bool)} (hstore : StoreOk D isDirectory more store)
    (base : List UInt8) :
    s.Ends FileSystem.currentTable (fun d s₁ =>
      s₁.Ends (FileSystem.addFile d base isDirectory store) (fun r s' =>
        ((isDirectory = false → r = some true → GrowsTyped s.heap t s.directorySize) →
          ∃ V', Attempt D V s p chain t base isDirectory more r V' s') ∧
        (isDirectory = false → r = some true → ¬ GrowsTyped s.heap t s.directorySize →
          Misfiled s'.disk p base) ∧
        (r = some true → t.find base = none ∧ more < (mapOn s.disk V.map).countClear))) := by
  refine ((hr.currentTable ha).and_yields (yields_heap _ s)).mono ?_
  rintro d s₁ ⟨⟨hlen, hslot, hs₁, hr₁⟩, hheap⟩
  refine (hr₁.addFile (ha.of_same hs₁) (hlen.trans hs₁.directorySize.symm) hslot hstore
    base).mono ?_
  rintro r s' ⟨hattempt, hmis, hnew⟩
  rw [hheap, hs₁.directorySize] at hattempt hmis
  rw [hs₁.disk] at hnew
  refine ⟨fun htyped => ?_, hmis, hnew⟩
  obtain ⟨V', hattempt⟩ := hattempt htyped
  exact ⟨V', hattempt.of_same hs₁⟩

/-- What an attempt in the directory at `p` says about the disk before the operation. -/
theorem Attempt.report {V₀ : Volume} {s₀ : System} {p n : ℕ} {chain : List ℕ} {t : Directory}
    {base : List UInt8} {isDirectory : Bool} {more : ℕ} {r : Option Bool}
    (ha : Attempt D V₀ s₀ p chain t base isDirectory more r V' s') (hd : DiskOk D V s.disk)
    (hmap : V₀.map = V.map) (hfiles : V₀.files = V.files) (hdisk : s₀.disk = s.disk)
    (hsize : s₀.directorySize = n) (hfile : V.files p = some ⟨chain, some t⟩) (V₁ : Volume)
    (s₁ : System) (hfiles₁ : V₁.files = V'.files) (hdisk₁ : s₁.disk = s'.disk)
    (hat : createAt s.disk c s.directorySize name = some (p, n, base)) :
    (∀ p n base, createAt s.disk c s.directorySize name = some (p, n, base) →
      Addable s.disk (chainOn s.disk p) (mapAt s.disk) (tableAt s.disk p) n base more →
      (tableAt s.disk p).find base = none → more < (mapAt s.disk).countClear →
      r = some true ∧ Enrolled V s p (chainOn s.disk p) base isDirectory (more + 1) V₁ s₁) ∧
    (r = some true → ∃ p n base sector,
      createAt s.disk c s.directorySize name = some (p, n, base) ∧ V.kind p = some true ∧
      (tableAt s.disk p).find base = none ∧ sector < numSectors ∧ mapAt s.disk sector = false ∧
      (∀ x, x < sector → mapAt s.disk x = true) ∧
      Bound V s p base isDirectory sector (CreateFitsEntry s.disk p n more) V₁ s₁) ∧
    (r = some true ↔ ∃ p n base, createAt s.disk c s.directorySize name = some (p, n, base) ∧
      (tableAt s.disk p).find base = none ∧ more < (mapAt s.disk).countClear) := by
  have hchain := hd.chainOn_eq hfile
  have htable := hd.tableAt_eq hfile
  have hmapAt := hd.mapAt_eq
  dsimp only at hchain
  -- the name is new and there is space exactly if the attempt succeeds
  have hresult : r = some true ↔ t.find base = none ∧ more < (mapOn s₀.disk V₀.map).countClear := by
    constructor
    · intro hr
      rcases ha.result with ⟨h, -⟩ | ⟨h, -⟩ | ⟨-, h⟩
      · rw [hr] at h
        cases h
      · rw [hr] at h
        cases h
      · exact h
    · rintro ⟨hnew, hfree⟩
      rcases ha.result with ⟨-, h | h⟩ | ⟨-, -, -, h⟩ | ⟨h, -⟩
      · rw [hnew] at h
        cases h
      · omega
      · omega
      · exact h
  refine ⟨fun p' n' base' hp hok hnew hfree => ?_, fun hr => ?_, ?_⟩
  · rw [hat, Option.some.injEq, Prod.mk.injEq, Prod.mk.injEq] at hp
    obtain ⟨rfl, rfl, rfl⟩ := hp
    rw [hchain, htable, hmapAt, ← hdisk, ← hmap] at hok
    rw [htable] at hnew
    rw [hmapAt, ← hdisk, ← hmap] at hfree
    have hr' : r = some true := hresult.mpr ⟨hnew, hfree⟩
    rw [hchain]
    exact ⟨hr', ((ha.keeps (hsize ▸ hok)).2 hr').relabel hmap.symm hfiles.symm hfiles₁ hdisk.symm
      hdisk₁⟩
  · obtain ⟨sector, freeMap, hlt, hclear, hbefore, hcount, hb⟩ := ha.tried.succeeded hr
    have hnew : t.find base = none := (hresult.mp hr).1
    rw [hdisk, hmap] at hclear hbefore hcount
    refine ⟨p, n, base, sector, hat, kind_true_iff.mpr ⟨chain, t, hfile⟩, ?_, hlt, ?_, ?_,
      hb.relabel hfiles.symm hfiles₁ hdisk.symm hdisk₁ ?_⟩
    · rw [htable]
      exact hnew
    · rw [hmapAt]
      exact hclear
    · rw [hmapAt]
      exact hbefore
    · rw [CreateFitsEntry, hchain, htable, hmapAt, hdisk, hsize]
      refine ⟨fun hfits freeMap' hcount' => ?_, fun hfits => hfits freeMap hcount⟩
      exact (entryFits_congr (by omega) rfl).mpr hfits
  · rw [hresult, hdisk, hmap]
    constructor
    · rintro ⟨hnew, hfree⟩
      exact ⟨p, n, base, hat, by rw [htable]; exact hnew, by rw [hmapAt]; exact hfree⟩
    · rintro ⟨p', n', base', hp, hnew, hfree⟩
      rw [hat, Option.some.injEq, Prod.mk.injEq, Prod.mk.injEq] at hp
      obtain ⟨rfl, rfl, rfl⟩ := hp
      rw [htable] at hnew
      rw [hmapAt] at hfree
      exact ⟨hnew, hfree⟩

/-- The end of an attempt in the current directory. -/
theorem Idle.created_relative (hi : Idle D V s c rest) (hrel : name.head? ≠ some slash)
    {chain : List ℕ} {t : Directory} (hfile : V.files c = some ⟨chain, some t⟩) {isDirectory : Bool}
    {more : ℕ} {r : Option Bool}
    (ha : Attempt D { V with handles := (s.directoryFile, c) :: rest }
      (s.putHeld filesysCreateLock true) c chain t name isDirectory more r V' s') :
    Created D V s c rest isDirectory more name (r.getD false) V' c
      (s'.putHeld filesysCreateLock false) := by
  have hd := hi.ready.disk
  have hadd := ha.added
  have hat : createAt s.disk c s.directorySize name = some (c, s.directorySize, name) := by
    unfold createAt
    rw [if_neg hrel]
  obtain ⟨hstored, hsucceeded, hresult⟩ := ha.report hd rfl rfl rfl rfl hfile V'
    (s'.putHeld filesysCreateLock false) rfl rfl hat
  have hget : r.getD false = true ↔ r = some true := by
    cases r with
    | none => simp
    | some b => simp
  have hsize' : (s'.putHeld filesysCreateLock false).directorySize =
      sizeAfter t s.directorySize name := ha.tried.size
  obtain ⟨chain', t', ha'⟩ := hadd.dir
  refine ⟨⟨hadd.ready.putHeld false, ?_, ⟨chain', t', ⟨ha'.handle, ha'.file, ha'.le, ha'.size_le⟩⟩,
    hadd.reached (AllReached.relabel hi.reached _ _), System.putHeld_self ..⟩, hadd.map,
    hadd.freeMapFile, hadd.kind, fun hk => ?_, fun _ => ⟨rfl, hadd.extra_le⟩,
    fun hlost => absurd (fun habs => absurd habs hrel) hlost,
    fun p n base hp hok hnew hfree => ?_, hget.trans hresult, fun _ => ?_, fun hr => ?_,
    fun hr => hsucceeded (hget.mp hr)⟩
  · rw [hadd.handles]
    show (s.directoryFile, c) :: rest = (s'.directoryFile, c) :: rest
    rw [hadd.directoryFile]
    rfl
  · have hok := hk c s.directorySize name hat
    rw [hd.chainOn_eq hfile, hd.tableAt_eq hfile, hd.mapAt_eq] at hok
    exact (ha.keeps hok).1
  · obtain ⟨hr, henr⟩ := hstored p n base hp hok hnew hfree
    exact ⟨hget.mpr hr, henr⟩
  · rw [hd.tableAt_eq hfile]
    exact hsize'
  · have hno : r ≠ some true := by
      intro h
      rw [hget.mpr h] at hr
      cases hr
    refine ⟨(ha.tried.failed hno).2, ?_⟩
    rw [hsize', CreateClean]
    constructor
    · rintro ⟨-, h⟩ p n base hp
      rw [hat, Option.some.injEq, Prod.mk.injEq, Prod.mk.injEq] at hp
      obtain ⟨rfl, rfl, rfl⟩ := hp
      rw [if_neg hrel, hd.tableAt_eq hfile]
      exact h
    · intro h
      have hclean := h c s.directorySize name hat
      rw [if_neg hrel, hd.tableAt_eq hfile] at hclean
      exact ⟨rfl, hclean⟩

/-- An operation that did nothing but look. -/
theorem Idle.created_nothing (hi : Idle D V s c rest) {isDirectory : Bool} {more : ℕ}
    {extra : ℕ → ℕ} (hat : createAt s.disk c s.directorySize name = none)
    (hs : Same (s.putHeld filesysCreateLock true) s')
    (hr : Ready D { V with handles := (s.directoryFile, c) :: rest, extra := extra } s')
    (hextra : CreateReturns s.disk name more → extra = V.extra)
    (hlost : ¬ CreateReturns s.disk name more → ∃ x, extra x ≠ 0) :
    Created D V s c rest isDirectory more name false
      { V with handles := (s.directoryFile, c) :: rest, extra := extra } c
      (s'.putHeld filesysCreateLock false) := by
  obtain ⟨chain, t, ha⟩ := hi.dir
  have hfile : s'.directoryFile = s.directoryFile := hs.directoryFile
  have hsize : s'.directorySize = s.directorySize := hs.directorySize
  refine ⟨⟨hr.putHeld false, ?_, ⟨chain, t, ?_, ha.file, ?_, ?_⟩, AllReached.relabel hi.reached _ _,
    System.putHeld_self ..⟩, rfl, hs.freeMapFile, fun _ _ hk => hk, fun _ _ hx => hx,
    fun hret => ⟨rfl, fun x => ?_⟩, hlost,
    fun p n base hp => ?_, ⟨(fun h => nomatch h), ?_⟩, fun hrel => ?_,
    fun _ => ⟨hs.disk, fun _ p n base hp => ?_, fun _ => ⟨rfl, hsize⟩⟩, fun h => nomatch h⟩
  · show (s.directoryFile, c) :: rest = (s'.directoryFile, c) :: rest
    rw [hfile]
  · show (s'.directoryFile, c) ∈ (s.directoryFile, c) :: rest
    rw [hfile]
    exact List.mem_cons_self
  · exact ha.le.trans hsize.ge
  · exact hsize.le.trans ha.size_le
  · show extra x ≤ V.extra x
    rw [hextra hret]
  · rw [hat] at hp
    cases hp
  · rintro ⟨p, n, base, hp, -⟩
    rw [hat] at hp
    cases hp
  · unfold createAt at hat
    rw [if_neg hrel] at hat
    cases hat
  · rw [hat] at hp
    cases hp

/-- Where `Create` works with an absolute path. -/
theorem Idle.createAt_absolute (hi : Idle D V s c rest) (habs : name.head? = some slash)
    (htail : name.tail ≠ []) :
    createAt s.disk c s.directorySize name =
      (resolve V.table directorySector (tokens (parentPath name).tail)).map fun p =>
        (p, (tableAt s.disk p).length, baseName name) := by
  unfold createAt
  rw [if_pos habs, if_neg htail,
    hi.ready.disk.resolve_eq hi.ready.tree _ hi.ready.tree.root]

/-- An absolute path that leads to a directory. -/
theorem Idle.createAt_entered (hi : Idle D V s c rest) (habs : name.head? = some slash)
    (htail : name.tail ≠ []) {p : ℕ} {chain : List ℕ} {t : Directory}
    (hres : resolve V.table directorySector (tokens (parentPath name).tail) = some p)
    (hfile : V.files p = some ⟨chain, some t⟩) :
    createAt s.disk c s.directorySize name = some (p, t.length, baseName name) := by
  rw [hi.createAt_absolute habs htail, hres, Option.map_some, hi.ready.disk.tableAt_eq hfile]

section Absolute
variable {p : ℕ} {chain : List ℕ} {t : Directory} {isDirectory : Bool} {more : ℕ} {r : Option Bool}
  {s₁ s₃ : System} {V₂ : Volume}

/-- `CreateDir` returned early: the directory at `p` stays the current one. -/
theorem Idle.created_early (hi : Idle D V s c rest) (habs : name.head? = some slash)
    (hat : createAt s.disk c s.directorySize name = some (p, t.length, baseName name))
    (hm : Moved D V ((s.directoryFile, c) :: rest) p (s.putHeld filesysCreateLock true) s₁)
    (hfile : V.files p = some ⟨chain, some t⟩) (hsize : s₁.directorySize = t.length)
    (ha : Attempt D { V with handles := (s₁.directoryFile, p) :: (s.directoryFile, c) :: rest } s₁ p
      chain t (baseName name) isDirectory more none V₂ s₃) :
    Created D V s c rest isDirectory more name false { V₂ with
      handles := (s₃.directoryFile, p) :: rest
      extra := Function.update V₂.extra c (V₂.extra c + 1) } p
      (s₃.putHeld filesysCreateLock false) := by
  have hd := hi.ready.disk
  have hdisk₁ : s₁.disk = s.disk := hm.kept.disk
  have hadd := ha.added
  have htable := hd.tableAt_eq hfile
  have hchain := hd.chainOn_eq hfile
  have hmap := hd.mapAt_eq
  obtain ⟨hstored, -, hresult⟩ := ha.report hd rfl rfl hdisk₁ hsize hfile V₂ s₃ rfl
    rfl hat
  have hhandles : V₂.handles = (s₃.directoryFile, p) :: (s.directoryFile, c) :: rest := by
    rw [hadd.handles, hadd.directoryFile]
  have hr₃ : Ready D { V₂ with
      handles := (s₃.directoryFile, p) :: (s.directoryFile, c) :: rest } s₃ := by
    rw [← hhandles]
    exact hadd.ready
  obtain ⟨_, _, hc⟩ := kind_true_iff.mp (hadd.kind c true hi.kind)
  have hsomec : (V₂.files c).isSome = true := by
    rw [hc]
    rfl
  have hne := hr₃.ne_freeMapFile (List.mem_cons_of_mem _ List.mem_cons_self) hsomec
  have hforget := hr₃.forget (List.Perm.swap ..) hne
  obtain ⟨chain₃, t₃, ha₃⟩ := hadd.dir
  -- why it returned
  obtain ⟨hnone, hpos, hle⟩ : t.find (baseName name) = none ∧ 0 < (mapOn s.disk V.map).countClear ∧
      (mapOn s.disk V.map).countClear ≤ more := by
    rw [← hdisk₁]
    rcases ha.result with ⟨h, -⟩ | ⟨-, h⟩ | ⟨h, -⟩
    · cases h
    · exact h
    · cases h
  refine ⟨⟨hforget.putHeld false, rfl, ⟨chain₃, t₃, List.mem_cons_self, ha₃.file, ha₃.le,
    ha₃.size_le⟩, AllReached.relabel (hadd.reached (AllReached.relabel hi.reached _ _)) _ _,
    System.putHeld_self ..⟩, hadd.map, hadd.freeMapFile.trans hm.kept.freeMapFile, hadd.kind,
    fun hk => ?_, fun hret => ?_, fun _ => ⟨c, ?_⟩, fun p' n base hp hok hnew hfree => ?_,
    ⟨(fun h => nomatch h), fun h => nomatch hresult.mpr h⟩, fun hrel => absurd habs hrel,
    fun _ => ?_,
    fun h => nomatch h⟩
  · have hok := hk p t.length (baseName name) hat
    rw [hchain, htable, hmap, ← hdisk₁, ← hsize] at hok
    exact (ha.keeps hok).1
  · -- there was too little space for the directory, but for its header
    exfalso
    have htail : name.tail ≠ [] := by
      intro h
      unfold createAt at hat
      rw [if_pos habs, if_pos h] at hat
      cases hat
    obtain ⟨p', hp', hspace⟩ := hret habs htail
    rw [hi.createAt_absolute habs htail,
      ← hd.resolve_eq hi.ready.tree _ hi.ready.tree.root, hp', Option.map_some, Option.some.injEq,
      Prod.mk.injEq] at hat
    rw [hat.1, htable, hmap, hnone] at hspace
    rcases hspace with h | h | h
    · cases h
    · omega
    · omega
  · show Function.update V₂.extra c (V₂.extra c + 1) c ≠ 0
    rw [Function.update_self]
    exact Nat.succ_ne_zero _
  · obtain ⟨h, -⟩ := hstored p' n base hp hok hnew hfree
    cases h
  · have hsize₃ := ha.tried.size
    rw [hsize] at hsize₃
    refine ⟨(ha.tried.failed (fun h => nomatch h)).2.trans hdisk₁, ?_⟩
    have hsize' : (s₃.putHeld filesysCreateLock false).directorySize =
        sizeAfter t t.length (baseName name) := hsize₃
    rw [hsize', CreateClean]
    constructor
    · intro h p' n base hp
      rw [hat, Option.some.injEq, Prod.mk.injEq, Prod.mk.injEq] at hp
      obtain ⟨rfl, rfl, rfl⟩ := hp
      rw [if_pos habs, htable, hmap, if_pos ⟨hnone, hpos, hle⟩]
      exact h
    · intro h
      have hclean := h p t.length (baseName name) hat
      rw [if_pos habs, htable, hmap, if_pos ⟨hnone, hpos, hle⟩] at hclean
      exact hclean

/-- `Create` came back to the directory it started from. -/
theorem Idle.created_back (hi : Idle D V s c rest) (habs : name.head? = some slash)
    (hat : createAt s.disk c s.directorySize name = some (p, t.length, baseName name))
    (hm : Moved D V ((s.directoryFile, c) :: rest) p (s.putHeld filesysCreateLock true) s₁)
    (hfile : V.files p = some ⟨chain, some t⟩) (hsize : s₁.directorySize = t.length) {b : Bool}
    (ha : Attempt D { V with handles := (s₁.directoryFile, p) :: (s.directoryFile, c) :: rest } s₁ p
      chain t (baseName name) isDirectory more (some b) V₂ s₃) {s₄ : System}
    (hm₄ : Moved D V₂ rest c s₃ s₄) :
    Created D V s c rest isDirectory more name b
      { V₂ with handles := (s₄.directoryFile, c) :: rest } c
      (s₄.putHeld filesysCreateLock false) := by
  have hd := hi.ready.disk
  have hdisk₁ : s₁.disk = s.disk := hm.kept.disk
  have hadd := ha.added
  have htable := hd.tableAt_eq hfile
  have hchain := hd.chainOn_eq hfile
  have hmap := hd.mapAt_eq
  obtain ⟨hstored, hsucceeded, hresult⟩ := ha.report hd rfl rfl hdisk₁ hsize hfile
    { V₂ with handles := (s₄.directoryFile, c) :: rest }
    (s₄.putHeld filesysCreateLock false) rfl hm₄.kept.disk hat
  obtain ⟨chain₄, t₄, ha₄, hsize₄⟩ := hm₄.atDir
  refine ⟨⟨hm₄.ready.putHeld false, rfl, ⟨chain₄, t₄, List.mem_cons_self, ha₄.file, ha₄.le,
    ha₄.size_le⟩, AllReached.relabel (hadd.reached (AllReached.relabel hi.reached _ _)) _ _,
    System.putHeld_self ..⟩, hadd.map,
    (hm₄.kept.freeMapFile.trans hadd.freeMapFile).trans hm.kept.freeMapFile, hadd.kind,
    fun hk => ?_, fun _ => ⟨rfl, hadd.extra_le⟩, fun hlost => ?_,
    fun p' n base hp hok hnew hfree => ?_,
    ⟨fun h => hresult.mp (congrArg some h), fun h => Option.some.inj (hresult.mpr h)⟩,
    fun hrel => absurd habs hrel, fun hb => ?_, fun hb => hsucceeded (congrArg some hb)⟩
  · have hok := hk p t.length (baseName name) hat
    rw [hchain, htable, hmap, ← hdisk₁, ← hsize] at hok
    exact (ha.keeps hok).1
  · -- the path led to a directory, and `CreateDir` did not return early
    exfalso
    apply hlost
    intro _ htail
    rw [hi.createAt_absolute habs htail, Option.map_eq_some_iff] at hat
    obtain ⟨p', hp', heq⟩ := hat
    rw [Prod.mk.injEq] at heq
    refine ⟨p, ?_, ?_⟩
    · rw [hd.resolve_eq hi.ready.tree _ hi.ready.tree.root, hp', heq.1]
    · rw [htable, hmap, ← hdisk₁]
      rcases ha.result with ⟨-, h | h⟩ | ⟨h, -⟩ | ⟨-, -, h⟩
      · exact Or.inl h
      · exact Or.inr (Or.inl h)
      · cases h
      · exact Or.inr (Or.inr h)
  · obtain ⟨h, henr⟩ := hstored p' n base hp hok hnew hfree
    exact ⟨Option.some.inj h, henr⟩
  · obtain ⟨hV₂, hdisk⟩ := ha.tried.failed (by rw [hb]; exact fun h => nomatch h)
    refine ⟨(hm₄.kept.disk.trans hdisk).trans hdisk₁, ?_⟩
    -- the number of entries was found out again
    have hfile₄ : V.files c = some ⟨chain₄, some t₄⟩ := by
      have h := ha₄.file
      rw [hV₂] at h
      exact h
    have hsize' : (s₄.putHeld filesysCreateLock false).directorySize = t₄.length := hsize₄
    have hno : ¬ ((tableAt s.disk p).find (baseName name) = none ∧ 0 < (mapAt s.disk).countClear ∧
        (mapAt s.disk).countClear ≤ more) := by
      rintro ⟨h1, h2, h3⟩
      rw [htable] at h1
      rw [hmap, ← hdisk₁] at h2 h3
      rcases ha.result with ⟨-, h | h⟩ | ⟨h, -⟩ | ⟨h, -⟩
      · rw [h1] at h
        cases h
      · exact absurd h (Nat.pos_iff_ne_zero.mp h2)
      · cases h
      · rw [hb] at h
        cases h
    rw [hsize', CreateClean]
    constructor
    · rintro ⟨-, h⟩ p' n base hp
      rw [hat, Option.some.injEq, Prod.mk.injEq, Prod.mk.injEq] at hp
      obtain ⟨rfl, rfl, rfl⟩ := hp
      rw [if_pos habs, if_neg hno, hd.tableAt_eq hfile₄]
      exact h
    · intro h
      have hclean := h p t.length (baseName name) hat
      rw [if_pos habs, if_neg hno, hd.tableAt_eq hfile₄] at hclean
      exact ⟨rfl, hclean⟩

end Absolute

/-- The entry of a new file is in the directory that its name leads to. -/
theorem GrowsTyped.create {heap : ℕ → UInt8} {disk : ℕ → Sector} {p n size : ℕ} {base : List UInt8}
    (h : GrowsTyped heap (tableAt disk p) n)
    (hat : createAt disk c size name = some (p, n, base)) : CreateTyped heap disk c size name := by
  intro p' n' base' hat' _ _
  rw [hat, Option.some.injEq, Prod.mk.injEq, Prod.mk.injEq] at hat'
  rw [← hat'.1, ← hat'.2.1]
  exact h

/-- **`Create` and `CreateDir`, up to where the name is added.**  What remains makes the file
`Created`, or it is a misfiled one. -/
theorem Idle.addEntry (hi : Idle D V s c rest) {isDirectory : Bool} {more : ℕ}
    {store : ℕ → Bitmap → Directory → Sys (Option Bool)} (hstore : StoreOk D isDirectory more store)
    (hfits : CreateFits name) :
    s.Ends (acquire filesysCreateLock) (fun _ s₀ =>
      s₀.Ends (FileSystem.enterParent name) (fun e s₁ =>
        e = none ∧ s₁.Ends (FileSystem.endCreate none none) (fun r s' => ∃ V' c',
          Created D V s c rest isDirectory more name r V' c' s') ∨
        ∃ base backup, e = some (base, backup) ∧ s₁.Ends FileSystem.currentTable (fun d s₂ =>
          s₂.Ends (FileSystem.addFile d base isDirectory store) (fun r s₃ =>
            ((isDirectory = false → r = some true →
                CreateTyped s.heap s.disk c s.directorySize name) →
              s₃.Ends (FileSystem.endCreate backup r) (fun r s' => ∃ V' c',
                Created D V s c rest isDirectory more name r V' c' s')) ∧
            (isDirectory = false → r = some true →
                ¬ CreateTyped s.heap s.disk c s.directorySize name →
              ∃ p n base, createAt s.disk c s.directorySize name = some (p, n, base) ∧
                Misfiled s₃.disk p base))))) := by
  obtain ⟨chain, t, ha⟩ := hi.dir
  have hsome : (V.files c).isSome = true := by
    rw [ha.file]
    rfl
  have hr₀ : Ready D { V with handles := (s.directoryFile, c) :: rest }
      (s.putHeld filesysCreateLock true) := hi.ready_handles.putHeld true
  have hheld₀ : (s.putHeld filesysCreateLock true).held filesysCreateLock = true :=
    System.putHeld_self ..
  refine ends_acquire.mpr ⟨hi.unlocked, ?_⟩
  refine ((Ready.enterParent (V := V) hr₀ hsome hfits).and_yields (yields_heap _ _)).mono ?_
  rintro e s₁ ⟨⟨hrel, rfl, rfl⟩ | ⟨habs, hroot, rfl, rfl⟩ | ⟨habs, htail, hcases⟩, hheap⟩
  · -- a relative name: the current directory stays
    have ha₀ : AtDir { V with handles := (s.directoryFile, c) :: rest }
        (s.putHeld filesysCreateLock true) c chain t :=
      ⟨List.mem_cons_self, ha.file, ha.le, ha.size_le⟩
    have hat : createAt s.disk c s.directorySize name = some (c, s.directorySize, name) := by
      unfold createAt
      rw [if_neg hrel]
    have htable : tableAt s.disk c = t := hi.ready.disk.tableAt_eq ha.file
    refine Or.inr ⟨_, _, rfl, (hr₀.addName ha₀ hstore name).mono fun d s₂ h₂ => h₂.mono ?_⟩
    rintro r s₃ ⟨hattempt, hmis, hnew⟩
    refine ⟨fun hok => ?_, fun hfile hr hno => ⟨_, _, _, hat, hmis hfile hr fun hgrows =>
      hno (GrowsTyped.create (by rwa [htable]) hat)⟩⟩
    obtain ⟨V', hattempt⟩ := hattempt fun hfile hr => by
      obtain ⟨hfind, hfree⟩ := hnew hr
      have hgrows := hok hfile hr _ _ _ hat (by rwa [htable])
        (by rw [hi.ready.disk.mapAt_eq]; exact Nat.zero_lt_of_lt hfree)
      rwa [htable] at hgrows
    have hheld₃ : s₃.held filesysCreateLock = true := hattempt.added.createLock.trans hheld₀
    have hcreated := hi.created_relative hrel ha.file hattempt
    cases r with
    | none =>
      exact Prog.ends_bind.mpr (ends_release.mpr ⟨hheld₃, Prog.ends_pure.mpr ⟨V', c, hcreated⟩⟩)
    | some b =>
      refine Prog.ends_bind.mpr (Prog.ends_pure.mpr ?_)
      exact Prog.ends_bind.mpr (ends_release.mpr ⟨hheld₃, Prog.ends_pure.mpr ⟨V', c, hcreated⟩⟩)
  · -- the root cannot be created
    have hat : createAt s.disk c s.directorySize name = none := by
      unfold createAt
      rw [if_pos habs, if_pos hroot]
    exact Or.inl ⟨rfl, Prog.ends_bind.mpr (ends_release.mpr ⟨hheld₀, Prog.ends_pure.mpr ⟨_, c,
      hi.created_nothing hat (Same.refl _) hr₀ (fun _ => rfl)
        fun hlost => absurd (fun _ htail => absurd hroot htail) hlost⟩⟩)⟩
  · rcases hcases with ⟨p, hres, rfl, hm⟩ | ⟨x, hres, rfl, hlost⟩
    · -- the path leads to a directory
      obtain ⟨chainp, tp, hap, hsizep⟩ := hm.atDir
      have hfilep : V.files p = some ⟨chainp, some tp⟩ := hap.file
      have hat := hi.createAt_entered habs htail hres hfilep
      have htable : tableAt s.disk p = tp := hi.ready.disk.tableAt_eq hfilep
      have hheap : s₁.heap = s.heap := hheap
      have hdisk : s₁.disk = s.disk := hm.kept.disk
      refine Or.inr ⟨_, _, rfl, (hm.ready.addName hap hstore (baseName name)).mono
        fun d s₂ h₂ => h₂.mono ?_⟩
      rintro r s₃ ⟨hattempt, hmis, hnew⟩
      rw [hheap, hsizep] at hattempt hmis
      refine ⟨fun hok => ?_, fun hfile hr hno => ⟨_, _, _, hat, hmis hfile hr fun hgrows =>
        hno (GrowsTyped.create (by rwa [htable]) hat)⟩⟩
      obtain ⟨V₂, hattempt⟩ := hattempt fun hfile hr => by
        obtain ⟨hfind, hfree⟩ := hnew hr
        rw [hdisk] at hfree
        have hgrows := hok hfile hr _ _ _ hat (by rwa [htable])
          (by rw [hi.ready.disk.mapAt_eq]; exact Nat.zero_lt_of_lt hfree)
        rwa [htable] at hgrows
      have hadd := hattempt.added
      have hheld₃ : s₃.held filesysCreateLock = true :=
        (hadd.createLock.trans hm.kept.createLock).trans hheld₀
      cases r with
      | none =>
        exact Prog.ends_bind.mpr (ends_release.mpr ⟨hheld₃, Prog.ends_pure.mpr ⟨_, p,
          hi.created_early habs hat hm hfilep hsizep hattempt⟩⟩)
      | some b =>
        have hr₃ : Ready D { V₂ with
            handles := (s₃.directoryFile, p) :: (s.directoryFile, c) :: rest } s₃ := by
          have hhandles : V₂.handles = (s₃.directoryFile, p) :: (s.directoryFile, c) :: rest := by
            rw [hadd.handles, hadd.directoryFile]
            rfl
          rw [← hhandles]
          exact hadd.ready
        obtain ⟨chain₃, t₃, ha₃⟩ := hadd.dir
        have hsomep : (V₂.files p).isSome = true := by
          rw [ha₃.file]
          rfl
        refine Prog.ends_bind.mpr ((hr₃.leaveParent hsomep (hadd.kind c true hi.kind)).mono ?_)
        rintro _ s₄ ⟨-, hm₄⟩
        have hheld₄ : s₄.held filesysCreateLock = true := hm₄.kept.createLock.trans hheld₃
        exact Prog.ends_bind.mpr (ends_release.mpr ⟨hheld₄, Prog.ends_pure.mpr ⟨_, c,
          hi.created_back habs hat hm hfilep hsizep hattempt hm₄⟩⟩)
    · -- the path leads nowhere
      have hat : createAt s.disk c s.directorySize name = none := by
        rw [hi.createAt_absolute habs htail, hres]
        rfl
      refine Or.inl ⟨rfl, Prog.ends_bind.mpr (ends_release.mpr ⟨hlost.same.createLock.trans hheld₀,
        Prog.ends_pure.mpr ⟨_, c, hi.created_nothing hat hlost.same hlost.ready (fun hret => ?_)
          fun _ => ⟨x, ?_⟩⟩⟩)⟩
      · obtain ⟨p, hp, -⟩ := hret habs htail
        rw [hi.ready.disk.resolve_eq hi.ready.tree _ hi.ready.tree.root, hres] at hp
        cases hp
      · rw [Function.update_self]
        exact Nat.succ_ne_zero _

/-- **`Create` and `CreateDir`.** -/
theorem Idle.createWith (hi : Idle D V s c rest) {isDirectory : Bool} {more : ℕ}
    {store : ℕ → Bitmap → Directory → Sys (Option Bool)} (hstore : StoreOk D isDirectory more store)
    (hfits : CreateFits name)
    (htyped : isDirectory = false → CreateTyped s.heap s.disk c s.directorySize name) :
    s.Ends (FileSystem.createWith isDirectory store name) (fun r s' => ∃ V' c',
      Created D V s c rest isDirectory more name r V' c' s') := by
  unfold FileSystem.createWith
  refine Prog.ends_bind.mpr ((hi.addEntry hstore hfits).mono fun _ s₀ h₀ => ?_)
  refine Prog.ends_bind.mpr (h₀.mono ?_)
  rintro e s₁ (⟨rfl, hend⟩ | ⟨base, backup, rfl, hadd⟩)
  · exact hend
  · refine Prog.ends_bind.mpr (hadd.mono fun d s₂ h₂ => ?_)
    refine Prog.ends_bind.mpr (h₂.mono ?_)
    rintro r s₃ ⟨hend, -⟩
    exact hend fun hfile _ => htyped hfile

/-! ## Files that are misfiled -/

section Leaving
variable {disk : ℕ → Sector}

/-- Only the write of a sector changes the disk. -/
theorem yields_call_disk {o : Access} (hs : s.disk = disk)
    (ho : ∀ n data, o ≠ .writeSector n data) :
    s.Yields o.call (fun _ s' => s'.disk = disk) := by
  refine fun a s' hrun => Eq.trans ?_ hs
  obtain ⟨r, hr, hdone⟩ := Option.bind_eq_some_iff.mp hrun
  obtain ⟨-, rfl⟩ := Prod.mk.inj (Option.some.inj hdone)
  cases o with
  | writeSector n data => exact absurd rfl (ho n data)
  | readSector n | release l =>
    obtain ⟨-, hr⟩ := Option.ite_none_right_eq_some.mp hr
    obtain rfl := Option.some.inj hr
    rfl
  | acquire l =>
    obtain ⟨-, hr⟩ := Option.ite_none_left_eq_some.mp hr
    obtain rfl := Option.some.inj hr
    rfl
  | awaitMessage | fail => cases hr
  | _ =>
    obtain rfl := Option.some.inj hr
    rfl

theorem acquireAt_disk (hs : s.disk = disk) (l : Option ℕ) :
    s.Yields (acquireAt l) (fun _ s' => s'.disk = disk) := by
  cases l with
  | none => exact yields_fail
  | some l => exact yields_call_disk hs fun _ _ h => nomatch h

theorem releaseAt_disk (hs : s.disk = disk) (l : Option ℕ) :
    s.Yields (releaseAt l) (fun _ s' => s'.disk = disk) := by
  cases l with
  | none => exact yields_fail
  | some l => exact yields_call_disk hs fun _ _ h => nomatch h

/-- `Close` writes nothing. -/
theorem close_disk (hs : s.disk = disk) (f : ℕ) :
    s.Yields (OpenFile.close f) (fun _ s' => s'.disk = disk) := by
  unfold OpenFile.close
  refine Prog.yields_bind.mpr (yields_getOpenFile.mpr ?_)
  refine Prog.yields_bind.mpr (yields_getEntry.mpr ?_)
  refine Prog.yields_bind.mpr ((acquireAt_disk hs _).mono fun _ s₁ hs₁ => ?_)
  refine Prog.yields_bind.mpr (yields_getEntry.mpr ?_)
  split
  · refine Prog.yields_bind.mpr (yields_setEntry.mpr ?_)
    refine Prog.yields_bind.mpr (yields_getEntry.mpr ?_)
    refine Prog.yields_bind.mpr ((releaseAt_disk (by exact hs₁) _).mono fun _ s₂ hs₂ => ?_)
    refine Prog.yields_bind.mpr (yields_getEntry.mpr ?_)
    split
    · exact yields_call_disk hs₂ fun _ _ h => nomatch h
    · exact Prog.yields_pure.mpr hs₂
  · exact releaseAt_disk hs₁ _

/-- The way back writes nothing. -/
theorem leaveParent_disk (hs : s.disk = disk) (backup : Option ℕ) :
    s.Yields (FileSystem.leaveParent backup) (fun _ s' => s'.disk = disk) := by
  cases backup with
  | none => exact Prog.yields_pure.mpr hs
  | some b =>
    unfold FileSystem.leaveParent FileSystem.refreshSize Directory.tableSize Directory.fetchFrom
    refine Prog.yields_bind.mpr ((yields_call_disk (o := .getDirectoryFile) hs
      fun _ _ h => nomatch h).mono fun f s₁ hs₁ => ?_)
    refine Prog.yields_bind.mpr ((yields_call_disk (o := .setDirectoryFile b) hs₁
      fun _ _ h => nomatch h).mono fun _ s₂ hs₂ => ?_)
    refine Prog.yields_bind.mpr ((close_disk hs₂ f).mono fun _ s₃ hs₃ => ?_)
    refine Prog.yields_bind.mpr (Prog.yields_bind.mpr ?_)
    refine (yields_call_disk (o := .getDirectoryFile) hs₃ fun _ _ h => nomatch h).mono
      fun g s₄ hs₄ => ?_
    refine Prog.yields_bind.mpr (Prog.yields_bind.mpr (Prog.yields_bind.mpr ?_))
    refine yields_assert.mpr fun _ => Prog.yields_bind.mpr (read_yields.mono ?_)
    rintro _ _ ⟨-, o, rfl, -⟩
    refine Prog.yields_pure.mpr (Prog.yields_pure.mpr (Prog.yields_bind.mpr ?_))
    exact (yields_call_disk (o := .setDirectorySize _) (by exact hs₄) fun _ _ h => nomatch h).mono
      fun _ s₅ hs₅ => Prog.yields_pure.mpr (Prog.yields_pure.mpr hs₅)

theorem endCreate_disk (backup : Option ℕ) (r : Option Bool) :
    s.Yields (FileSystem.endCreate backup r) (fun b s' => s'.disk = s.disk ∧
      (b = true ↔ r = some true)) := by
  cases r with
  | none =>
    exact Prog.yields_bind.mpr ((yields_call_disk (o := .release filesysCreateLock) rfl
      fun _ _ h => nomatch h).mono fun _ s' hs' => Prog.yields_pure.mpr ⟨hs', by simp⟩)
  | some success =>
    refine Prog.yields_bind.mpr ((leaveParent_disk rfl backup).mono fun _ s₁ hs₁ => ?_)
    exact Prog.yields_bind.mpr ((yields_call_disk (o := .release filesysCreateLock) hs₁
      fun _ _ h => nomatch h).mono fun _ s' hs' => Prog.yields_pure.mpr ⟨hs', by simp⟩)

end Leaving

/-- **`Create` misfiles a file** whose entry has the mark of a directory. -/
theorem Idle.createWith_misfiled (hi : Idle D V s c rest) {more : ℕ}
    {store : ℕ → Bitmap → Directory → Sys (Option Bool)} (hstore : StoreOk D false more store)
    (hfits : CreateFits name) (hno : ¬ CreateTyped s.heap s.disk c s.directorySize name) :
    s.Yields (FileSystem.createWith false store name) (fun r s' => r = true →
      ∃ p n base, createAt s.disk c s.directorySize name = some (p, n, base) ∧
        Misfiled s'.disk p base) := by
  unfold FileSystem.createWith
  refine Prog.yields_bind.mpr ((hi.addEntry hstore hfits).yields.mono fun _ s₀ h₀ => ?_)
  refine Prog.yields_bind.mpr (h₀.yields.mono ?_)
  rintro e s₁ (⟨rfl, -⟩ | ⟨base, backup, rfl, hadd⟩)
  · exact Prog.yields_bind.mpr (Prog.yields_of_forall fun _ _ => Prog.yields_pure.mpr
      fun h => nomatch h)
  · refine Prog.yields_bind.mpr (hadd.yields.mono fun d s₂ h₂ => ?_)
    refine Prog.yields_bind.mpr (h₂.yields.mono ?_)
    rintro r s₃ ⟨-, hmis⟩
    refine (endCreate_disk backup r).mono fun b s' hs' hb => ?_
    rw [hs'.1]
    exact hmis rfl (hs'.2.mp hb) hno

/-- **A file that is not created** is not misfiled. -/
theorem Idle.createWith_refused (hi : Idle D V s c rest) {isDirectory : Bool} {more : ℕ}
    {store : ℕ → Bitmap → Directory → Sys (Option Bool)} (hstore : StoreOk D isDirectory more store)
    (hfits : CreateFits name) :
    s.Yields (FileSystem.createWith isDirectory store name) (fun r s' => r = false → ∃ V' c',
      Created D V s c rest isDirectory more name r V' c' s') := by
  unfold FileSystem.createWith
  refine Prog.yields_bind.mpr ((hi.addEntry hstore hfits).yields.mono fun _ s₀ h₀ => ?_)
  refine Prog.yields_bind.mpr (h₀.yields.mono ?_)
  rintro e s₁ (⟨rfl, hend⟩ | ⟨base, backup, rfl, hadd⟩)
  · exact hend.yields.mono fun _ _ h _ => h
  · refine Prog.yields_bind.mpr (hadd.yields.mono fun d s₂ h₂ => ?_)
    refine Prog.yields_bind.mpr (h₂.yields.mono ?_)
    rintro r s₃ ⟨hend, -⟩
    by_cases hr : r = some true
    · refine (endCreate_disk backup r).mono fun b s' hs' hb => ?_
      rw [hs'.2.mpr hr] at hb
      cases hb
    · exact (hend fun _ h => absurd h hr).yields.mono fun _ _ h _ => h

end Creating
end PaldOs
