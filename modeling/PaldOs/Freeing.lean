import PaldOs.RoundTrip
import PaldOs.HandleCounts
import PaldOs.SectorOwnership

/-! # Files that are removed

`Remove` gives back the sectors of one file: those of its headers and the data sectors of each.  The
directory is written as a whole, but only the entry of the file is different, and nothing else of
the tree is.

A new file takes the sector of its header, its `Write`s take sectors, and `Remove` gives back
the ones that belong to the file.  So the free map is what it was, if no `Write` has lost a
sector in between.
-/
namespace PaldOs

open Sys

/-! ## What is left of the others -/

/-- **The file `name` of the directory at `c` is gone, and only that**: the file had its first
header at `x`, its sectors are clear now and were marked, its entry is empty, and the rest of the
tree is found as before, with the same sectors in it. -/
structure FreesFile (disk : ℕ → Sector) (c : ℕ) (name : List UInt8) (x : ℕ)
    (disk' : ℕ → Sector) : Prop where
  owned : ∀ y, Uses disk (chainOn disk x) y → y < numSectors ∧ mapAt disk y = true
  cleared : ∀ y, y < numSectors →
    (mapAt disk' y = true ↔ mapAt disk y = true ∧ ¬ Uses disk (chainOn disk x) y)
  entry : ∃ j, (tableAt disk c).findIndex name = some j ∧ ((tableAt disk c).slot j).sector = x ∧
    ∀ q, (tableAt disk' c).slot q =
      if q = j then ((tableAt disk c).slot j).emptied else (tableAt disk c).slot q
  length : (tableAt disk' c).length = (tableAt disk c).length
  found : ∀ path h b, Found disk' path h b ↔ Found disk path h b ∧ h ≠ x
  chain : ∀ path h b, Found disk path h b → h ≠ x → chainOn disk' h = chainOn disk h
  other : ∀ path h b, Found disk path h b → h ≠ x → h ≠ c →
    ∀ y, Uses disk (chainOn disk h) y → disk' y = disk y
  content : ∀ path h, Found disk path h false → h ≠ x → FileOk disk (chainOn disk h) →
    fileContent disk' (chainOn disk' h) = fileContent disk (chainOn disk h)

section Frees
variable {D : Discipline} {V V' : Volume} {s : System} {c x : ℕ} {rest : List (ℕ × ℕ)}
  {name : List UInt8} {disk' : ℕ → Sector}

/-- The sectors of the other files stay. -/
theorem Freed.other (hf : Freed V.map s.disk c x disk') (hd : DiskOk D V s.disk)
    (hc : V.kind c = some true) {h : ℕ} {i : FileInfo} (hi : V.files h = some i) (hne : h ≠ c)
    {y : ℕ} (hy : Uses s.disk i.chain y) : disk' y = s.disk y := by
  obtain ⟨chain, t, hdirectory⟩ := kind_true_iff.mp hc
  refine hf.frame y ?_ fun hu => ?_
  · rintro rfl
    exact (hd.reserved h i hi).2 hy
  · rw [hd.chainOn_eq hdirectory] at hu
    exact hne (hd.apart h c i _ y hi hdirectory hy hu)

/-- The entries of the directories, after the file is removed. -/
theorem Freed.slot_eq (hf : Freed V.map s.disk c x disk') (hd : DiskOk D V s.disk)
    (hc : V.kind c = some true) {j : ℕ} (hj : ∀ q, (tableAt disk' c).slot q =
      if q = j then ((tableAt s.disk c).slot j).emptied else (tableAt s.disk c).slot q) {h : ℕ}
    (hk : V.kind h = some true) (q : ℕ) : (tableAt disk' h).slot q =
      if h = c ∧ q = j then ((tableAt s.disk c).slot j).emptied else (tableAt s.disk h).slot q := by
  rcases eq_or_ne h c with rfl | hne
  · rw [hj q]
    simp only [true_and]
  · obtain ⟨chain, t, hdirectory⟩ := kind_true_iff.mp hk
    have hon := (hd.file h _ hdirectory).congr fun y hy => hf.other hd hc hdirectory hne hy
    obtain ⟨hok, htable⟩ := hon.directory t rfl
    rw [if_neg fun hcase => hne hcase.1, htable.tableAt_eq hok hon.head, hd.tableAt_eq hdirectory]

/-- **The tree without the file.** -/
theorem Freed.found_iff (hf : Freed V.map s.disk c x disk') (hd : DiskOk D V s.disk)
    (ht : TreeOk V) (hc : V.kind c = some true) (hx : V.kind x = some false) {j : ℕ}
    (hu : (V.slot c j).inUse = true) (hsector : (V.slot c j).sector = x)
    (hj : ∀ q, (tableAt disk' c).slot q =
      if q = j then ((tableAt s.disk c).slot j).emptied else (tableAt s.disk c).slot q)
    (path : List ℕ) (h : ℕ) (b : Bool) :
    Found disk' path h b ↔ Found s.disk path h b ∧ h ≠ x := by
  -- a directory is not the file
  have hdirectory : ∀ h, V.kind h = some true → h ≠ x := by
    intro h hk heq
    rw [heq, hx] at hk
    cases hk
  constructor
  · intro hfound
    induction hfound with
    | root => exact ⟨.root, hdirectory _ ht.root⟩
    | @entry path h q _ hused ih =>
      obtain ⟨hparent, hne⟩ := ih
      have hk := hd.found ht hparent
      have hslot := hf.slot_eq hd hc hj hk q
      by_cases hcase : h = c ∧ q = j
      · rw [hslot, if_pos hcase] at hused
        cases hused
      · rw [if_neg hcase] at hslot
        rw [hslot] at hused ⊢
        refine ⟨.entry q hparent hused, fun heq => hcase ?_⟩
        rw [hd.slot_eq hk] at hused heq
        exact ht.once h q c j hused hu (heq.trans hsector.symm)
  · rintro ⟨hfound, hne⟩
    induction hfound with
    | root => exact .root
    | @entry path h q hparent hused ih =>
      have hk := hd.found ht hparent
      have hslot := hf.slot_eq hd hc hj hk q
      rw [if_neg] at hslot
      · rw [← hslot] at hused ⊢
        exact .entry q (ih (hdirectory h hk)) hused
      · rintro ⟨rfl, rfl⟩
        rw [hd.slot_eq hk] at hne
        exact hne hsector

theorem fileContent_congr {disk : ℕ → Sector} {hs : List ℕ} (hf : FileOk disk hs)
    (hsame : ∀ y, Uses disk hs y → disk' y = disk y) :
    fileContent disk' hs = fileContent disk hs := by
  have hlength : fileLength disk' hs = fileLength disk hs :=
    fileLength_congr hf.pos fun i hi => headerOf_of_uses hsame hi
  rw [fileContent, fileContent, hlength]
  exact List.map_congr_left fun p hp => hf.fileByte_congr hsame (List.mem_range.mp hp)

/-- **What `Remove` gives back is exactly one file.** -/
theorem Idle.freesFile (hi : Idle D V s c rest)
    (hx : removeTarget s.disk c name false = some x) (hf : Freed V.map s.disk c x disk')
    (hmap : mapAt disk' = mapOn disk' V.map) : FreesFile s.disk c name x disk' := by
  have hd := hi.ready.disk
  have ht := hi.ready.tree
  have hc := hi.kind
  obtain ⟨j, hindex, hsector, hu, -, hk⟩ := hi.target_entry hx
  obtain ⟨i, hfile, -⟩ := Option.map_eq_some_iff.mp hk
  obtain ⟨q, hq, hsector', hslots⟩ := hf.slot
  -- the file has one entry only
  obtain rfl : q = j := by
    rw [hd.slot_eq hc] at hq hsector'
    exact (ht.once c q c j hq hu (hsector'.trans hsector.symm)).2
  have hother : ∀ path h b, Found s.disk path h b → h ≠ c →
      ∀ y, Uses s.disk (chainOn s.disk h) y → disk' y = s.disk y := by
    intro path h b hfound hne y hy
    obtain ⟨i', hi', -⟩ := Option.map_eq_some_iff.mp (hd.found ht hfound)
    rw [hd.chainOn_eq hi'] at hy
    exact hf.other hd hc hi' hne hy
  have hchain : ∀ path h b, Found s.disk path h b → chainOn disk' h = chainOn s.disk h := by
    intro path h b hfound
    rcases eq_or_ne h c with rfl | hne
    · exact hf.chain
    · obtain ⟨i', hi', -⟩ := Option.map_eq_some_iff.mp (hd.found ht hfound)
      have hon := (hd.file h i' hi').congr fun y hy => hf.other hd hc hi' hne hy
      rw [hon.sound.chainOn_eq hon.head, hd.chainOn_eq hi']
  refine ⟨fun y hy => ?_, fun y hy => ?_, ⟨q, hindex, hsector', hslots⟩, hf.length,
    hf.found_iff hd ht hc hk hu hsector hslots, fun path h b hfound _ => hchain path h b hfound,
    fun path h b hfound _ => hother path h b hfound, fun path h hfound _ hok => ?_⟩
  · rw [hd.chainOn_eq hfile] at hy
    obtain ⟨hlt, hmark⟩ := hd.owned_marked ⟨x, i, hfile, hy⟩
    exact ⟨hlt, by rw [hd.mapAt_eq]; exact hmark⟩
  · rw [hmap, hd.mapAt_eq]
    exact hf.map y hy
  · have hne : h ≠ c := by
      rintro rfl
      rw [hd.found ht hfound] at hc
      cases hc
    rw [hchain path h false hfound]
    exact fileContent_congr hok (hother path h false hfound hne)

/-- **`Remove` of a file that nobody has open** frees exactly that file. -/
theorem Idle.remove_frees (hi : Idle D V s c rest)
    (hsize : s.directorySize = (tableAt s.disk c).length)
    (hx : removeTarget s.disk c name false = some x) (hcount : (s.openFilesTable x).count = 0) :
    s.Ends (FileSystem.remove name false) (fun r s' => r = true ∧
      FreesFile s.disk c name x s'.disk ∧ ∃ V', Removed D V s c x V' s') := by
  refine (hi.remove hx (hi.target_regular hx) hcount).mono ?_
  rintro r s' ⟨hr, V', hrem⟩
  refine ⟨hr, hi.freesFile hx (hrem.freed hsize.le) ?_, V', hrem⟩
  rw [hrem.ready.disk.mapAt_eq, hrem.map]

end Frees

/-! ## Between `Create` and `Remove` -/

/-- The calls that use the file `name` of the directory at `c`: it is opened, and its open files are
written and closed. -/
def UsesFile (c : ℕ) (name : List UInt8) (w : World) : Call → Prop
  | .openFile name' => name' = name
  | .write f _ _ | .close f => f ∈ w.handles ∧
      (tableAt w.sys.disk c).find name = some (w.sys.openFile f).sector
  | _ => False

/-- **A new file is in use.**  It has its first header at `x`; `before` is the free map from before
it was created, and the sectors in `lost` were taken since then, and do not belong to it. -/
structure InUse (before : Bitmap) (c : ℕ) (name : List UInt8) (x : ℕ) (lost : ℕ → Prop)
    (w : World) : Prop where
  live : ∃ V rest, Live w V c rest
  size : w.sys.directorySize = (tableAt w.sys.disk c).length
  target : removeTarget w.sys.disk c name false = some x
  marks : ∀ y, y < numSectors → (mapAt w.sys.disk y = true ↔
    before y = true ∨ lost y ∨ Uses w.sys.disk (chainOn w.sys.disk x) y)
  apart : ∀ y, y < numSectors → before y = true →
    ¬ lost y ∧ ¬ Uses w.sys.disk (chainOn w.sys.disk x) y
  lost_apart : ∀ y, lost y → y < numSectors ∧ ¬ Uses w.sys.disk (chainOn w.sys.disk x) y

section InUse
variable {before : Bitmap} {c x f n : ℕ} {name : List UInt8} {lost : ℕ → Prop} {w w' : World}

/-- A call that leaves the disk as it is. -/
theorem InUse.same (h : InUse before c name x lost w) (hl : ∃ V rest, Live w' V c rest)
    (hs : Same w.sys w'.sys) : InUse before c name x lost w' := by
  have hdisk := hs.disk
  refine ⟨hl, ?_, ?_, ?_, ?_, ?_⟩
  · rw [hs.directorySize, hdisk]
    exact h.size
  · rw [hdisk]
    exact h.target
  · rw [hdisk]
    exact h.marks
  · rw [hdisk]
    exact h.apart
  · rw [hdisk]
    exact h.lost_apart

/-- The file is found from the root. -/
theorem InUse.found (h : InUse before c name x lost w) : ∃ path, Found w.sys.disk path x false := by
  obtain ⟨V, rest, hl⟩ := h.live
  have hi := hl.idle
  have hd := hi.ready.disk
  obtain ⟨j, -, hsector, hu, hregular, -⟩ := hi.target_entry h.target
  obtain ⟨chain, t, ha⟩ := hi.dir
  obtain ⟨path, b, hparent, hb⟩ := hd.found_of_reaches hi.ready.tree (hi.reached c _ ha.file)
  obtain rfl : true = b := Option.some.inj (hi.kind.symm.trans hb)
  have hslot := hd.slot_eq hi.kind j
  have hentry := Found.entry j hparent (by rw [hslot]; exact hu)
  rw [hslot, hsector, hregular] at hentry
  exact ⟨_, hentry⟩

theorem InUse.find (h : InUse before c name x lost w) :
    (tableAt w.sys.disk c).find name = some x := by
  have htarget := h.target
  rw [removeTarget] at htarget
  split at htarget
  · cases htarget
  · exact htarget

/-- **`Write`** takes sectors, and loses some of them exactly if it does not find the space it
needs. -/
theorem InUse.write (h : InUse before c name x lost w) (hf : f ∈ w.handles)
    (hsector : (w.sys.openFile f).sector = x) {src : ℕ → UInt8} (hn : 0 < n)
    (hperform : w.perform (.write f src n) = some w') :
    ∃ lost', InUse before c name x lost' w' ∧
      ((∀ y, ¬ lost' y) ↔ (∀ y, ¬ lost y) ∧ w.Keeps (.write f src n)) := by
  obtain ⟨path, hfound⟩ := h.found
  obtain ⟨V, rest, hl⟩ := h.live
  rw [← hsector] at hfound
  obtain ⟨k, s', V', hperform', hl', hw⟩ := hl.wrote hf hfound src hn
  obtain rfl := Option.some.inj (hperform.symm.trans hperform')
  have hd := hl.idle.ready.disk
  have hd' := hl'.idle.ready.disk
  obtain ⟨chain', reserved, hfile', hg, hroomy, hlost⟩ := hw.grown
  rw [hsector] at hfile' hg hroomy hw
  have hmap := hd.mapAt_eq
  have hmap' : mapAt s'.disk = mapOn s'.disk V.map := by
    rw [← hw.map]
    exact hd'.mapAt_eq
  have hchain' : chainOn s'.disk x = chain' := hd'.chainOn_eq hfile'
  -- the table of the directory stays
  have htable : tableAt s'.disk c = tableAt w.sys.disk c := by
    obtain ⟨chain, t, ha⟩ := hl.idle.dir
    have hne : c ≠ x := by
      rintro rfl
      have hk := (hw.kind c).trans hl.idle.kind
      rw [kind_of_files hfile'] at hk
      cases hk
    rw [hd.tableAt_eq ha.file]
    exact hd'.tableAt_eq ((hw.other c hne).trans ha.file)
  have hmarks := h.marks
  have hclear : ∀ y, y < numSectors → mapOn w.sys.disk V.map y = false →
      ¬ before y = true ∧ ¬ lost y := by
    intro y hy hclear
    rw [← not_or]
    intro hor
    have hmark := (hmarks y hy).mpr (hor.imp_right Or.inl)
    rw [hmap, hclear] at hmark
    cases hmark
  -- the new sectors of the file were clear
  have hfresh : ∀ y, y < numSectors → before y = true ∨ lost y → ¬ Uses s'.disk chain' y := by
    intro y hy hor hu
    rcases hg.fresh y hu with hold | hnew
    · rcases hor with hb | hlost'
      · exact (h.apart y hy hb).2 hold
      · exact (h.lost_apart y hlost').2 hold
    · obtain ⟨hb, hlost'⟩ := hclear y hy hnew
      exact hor.elim hb hlost'
  have hkeeps : w.Keeps (.write f src n) ↔ reserved = [] := by
    rw [← hroomy, ← hmap, ← hsector]
    exact Iff.rfl
  refine ⟨fun y => lost y ∨ y ∈ reserved, ⟨⟨V', rest, hl'⟩, ?_, ?_, fun y hy => ?_,
    fun y hy hb => ?_, fun y hy => ?_⟩, ?_⟩
  · rw [htable]
    exact hw.directorySize.trans h.size
  · show removeTarget s'.disk c name false = some x
    rw [removeTarget, htable]
    exact h.target
  · show mapAt s'.disk y = true ↔ before y = true ∨ _ ∨ Uses s'.disk (chainOn s'.disk x) y
    rw [hmap', hchain', hg.marks y hy, ← hmap, hmarks y hy]
    have hkept := hg.kept y
    tauto
  · show _ ∧ ¬ Uses s'.disk (chainOn s'.disk x) y
    rw [hchain']
    refine ⟨?_, hfresh y hy (Or.inl hb)⟩
    rintro (hold | hnew)
    · exact (h.apart y hy hb).1 hold
    · exact (hclear y hy (hg.reserved_clear y hnew)).1 hb
  · show _ ∧ ¬ Uses s'.disk (chainOn s'.disk x) y
    rw [hchain']
    rcases hy with hold | hnew
    · have hlt := (h.lost_apart y hold).1
      exact ⟨hlt, hfresh y hlt (Or.inr hold)⟩
    · exact ⟨(hlost y hnew).1, hg.reserved_apart y hnew⟩
  · rw [hkeeps, List.eq_nil_iff_forall_not_mem]
    simp only [not_or, forall_and]

/-- **One call** that uses the file. -/
theorem InUse.step (h : InUse before c name x lost w) {call : Call} (hu : UsesFile c name w call)
    (hperform : w.perform call = some w') : ∃ lost', InUse before c name x lost' w' ∧
      ((∀ y, ¬ lost' y) ↔ (∀ y, ¬ lost y) ∧ w.Keeps call) := by
  obtain ⟨V, rest, hl⟩ := h.live
  cases call with
  | openFile name' =>
    obtain ⟨r, s', hperform', hs, hcases⟩ := hl.opened name'
    obtain rfl := Option.some.inj (hperform.symm.trans hperform')
    refine ⟨lost, h.same ?_ hs, (and_iff_left trivial).symm⟩
    rcases hcases with ⟨rfl, -, hl'⟩ | ⟨g, y, rfl, -, hl'⟩
    · exact ⟨_, _, hl'⟩
    · exact ⟨_, _, hl'⟩
  | write g src k =>
    obtain ⟨hg, hfind⟩ := hu
    rcases Nat.eq_zero_or_pos k with rfl | hk
    · rw [w.write_zero] at hperform
      cases hperform
    · rw [h.find] at hfind
      exact h.write hg (Option.some.inj hfind).symm hk hperform
  | close g =>
    obtain ⟨s', rest', hperform', hs, hl'⟩ := hl.closed hu.1
    obtain rfl := Option.some.inj (hperform.symm.trans hperform')
    exact ⟨lost, h.same ⟨_, rest', hl'⟩ hs, (and_iff_left trivial).symm⟩
  | create _ => exact hu.elim
  | createDir _ => exact hu.elim
  | changeDir _ => exact hu.elim
  | remove _ => exact hu.elim
  | removeDir _ => exact hu.elim
  | reuse _ => exact hu.elim

/-- What was lost can be seen from the disk. -/
theorem InUse.lost_unique {lost' : ℕ → Prop} (h : InUse before c name x lost w)
    (h' : InUse before c name x lost' w) {y : ℕ} (hy : lost y) : lost' y := by
  obtain ⟨hlt, hnot⟩ := h.lost_apart y hy
  rcases (h'.marks y hlt).mp ((h.marks y hlt).mpr (Or.inr (Or.inl hy))) with hb | hl | hu
  · exact absurd hy (h.apart y hlt hb).1
  · exact hl
  · exact absurd hu hnot

/-- Calls that find the space they need lose nothing. -/
theorem InUse.session_keeps {w₁ w₂ : World} (h : InUse before c name x (fun _ => False) w₁)
    {calls : List Call}
    (hs : Session (fun w call => UsesFile c name w call ∧ w.Keeps call) w₁ calls w₂) :
    InUse before c name x (fun _ => False) w₂ := by
  refine Run.invariant (I := fun _ w => InUse before c name x (fun _ => False) w) h ?_ hs
  intro _ w call w' h hg hperform
  obtain ⟨lost, h', hiff⟩ := h.step hg.1 hperform
  have hnone := hiff.mpr ⟨fun _ => id, hg.2⟩
  have heq : lost = fun _ => False := funext fun y => eq_false (hnone y)
  exact heq ▸ h'

/-- **A session of such calls** loses nothing exactly if each of them finds the space it needs. -/
theorem InUse.session {w₁ w₂ : World} (h : InUse before c name x (fun _ => False) w₁)
    {calls : List Call} (hs : Session (UsesFile c name) w₁ calls w₂) :
    ∃ lost, InUse before c name x lost w₂ ∧ ((∀ y, ¬ lost y) ↔
      Session (fun w call => UsesFile c name w call ∧ w.Keeps call) w₁ calls w₂) := by
  obtain ⟨lost, h', hkeeps⟩ : ∃ lost, InUse before c name x lost w₂ ∧ ((∀ y, ¬ lost y) →
      Session (fun w call => UsesFile c name w call ∧ w.Keeps call) w₁ calls w₂) := by
    refine Run.invariant (I := fun tr w => ∃ lost, InUse before c name x lost w ∧
      ((∀ y, ¬ lost y) → Session (fun w call => UsesFile c name w call ∧ w.Keeps call) w₁ tr w))
      ⟨_, h, fun _ => .start⟩ ?_ hs
    rintro tr w call w' ⟨lost, h, hkeeps⟩ hg hperform
    obtain ⟨lost', h', hiff⟩ := h.step hg hperform
    refine ⟨lost', h', fun hnone => ?_⟩
    obtain ⟨hbefore, hkeep⟩ := hiff.mp hnone
    exact (hkeeps hbefore).next call ⟨hg, hkeep⟩ hperform
  exact ⟨lost, h', hkeeps, fun hs' y hy => h'.lost_unique (h.session_keeps hs') hy⟩

/-- The calls are legal. -/
theorem InUse.typed (h : InUse before c name x lost w) {call : Call} (hu : UsesFile c name w call) :
    w.Typed call := by
  cases call with
  | openFile name' => exact trivial
  | write g src k =>
    obtain ⟨hg, hfind⟩ := hu
    obtain ⟨path, hfound⟩ := h.found
    rw [Option.some.inj (h.find.symm.trans hfind)] at hfound
    exact ⟨hg, path, hfound⟩
  | close g => exact hu.1
  | create _ => exact hu.elim
  | createDir _ => exact hu.elim
  | changeDir _ => exact hu.elim
  | remove _ => exact hu.elim
  | removeDir _ => exact hu.elim
  | reuse _ => exact hu.elim

/-- Nobody has the file open when the thread has no open files. -/
theorem InUse.proceeds (h : InUse before c name x lost w) (hexact : w.CountsExact)
    (hnone : w.handles = []) : w.Proceeds (.remove name) := by
  obtain ⟨V, rest, hl⟩ := h.live
  have hi := hl.idle
  intro y hy
  rw [hi.current_eq] at hy
  obtain rfl := Option.some.inj (h.target.symm.trans hy)
  obtain ⟨-, -, -, -, -, hk⟩ := hi.target_entry h.target
  rw [hexact x, List.countP_eq_zero]
  intro g hg
  rw [beq_iff_eq]
  rw [World.inUse, hnone, List.mem_cons, List.mem_singleton] at hg
  have hfiles := hi.ready.handles
  rcases hg with rfl | rfl
  · rw [hfiles.sector _ _ hfiles.freeMapFile]
    rintro rfl
    obtain ⟨i, hfile, -⟩ := Option.map_eq_some_iff.mp hk
    exact (hi.ready.disk.reserved _ i hfile).1 (hi.ready.disk.file _ i hfile).uses_self
  · have hcurrent : (w.sys.openFile w.sys.directoryFile).sector = c := hi.current_eq
    rw [hcurrent]
    rintro rfl
    rw [hi.kind] at hk
    cases hk

/-- **`Remove`** then leaves what was lost. -/
theorem InUse.remove (h : InUse before c name x lost w) (hp : w.Proceeds (.remove name)) :
    ∃ w', w.perform (.remove name) = some w' ∧ ((∀ y, y < numSectors →
      mapAt w'.sys.disk y = before y) ↔ ∀ y, ¬ lost y) := by
  obtain ⟨V, rest, hl⟩ := h.live
  have hcount : (w.sys.openFilesTable x).count = 0 := by
    refine hp x ?_
    rw [hl.idle.current_eq]
    exact h.target
  obtain ⟨r, s', hafter, -, hfrees, -⟩ :=
    World.after_of_ends (hl.idle.remove_frees h.size h.target hcount)
  refine ⟨_, hafter, ?_⟩
  have hleft : ∀ y, y < numSectors → (mapAt s'.disk y = true ↔ before y = true ∨ lost y) := by
    intro y hy
    have hapart := h.apart y hy
    have hlost := h.lost_apart y
    rw [hfrees.cleared y hy, h.marks y hy]
    tauto
  constructor
  · intro hback y hy
    have hlt := (h.lost_apart y hy).1
    have hmark := (hleft y hlt).mpr (Or.inr hy)
    exact (h.apart y hlt ((hback y hlt).symm.trans hmark)).1 hy
  · intro hnone y hy
    rw [Bool.eq_iff_iff, hleft y hy]
    exact or_iff_left (hnone y)

end InUse

/-! ## A new file -/

section Create
variable {V : Volume} {c : ℕ} {rest : List (ℕ × ℕ)} {name : List UInt8} {w : World}

/-- A directory that gets no longer has all the sectors it needs. -/
theorem TableOn.entryFits {disk : ℕ → Sector} {chain : List ℕ} {t : Directory}
    (ht : TableOn disk chain t) (hok : FileOk disk chain) (freeMap : Bitmap) {size j : ℕ}
    (hsize : size ≤ t.length) (hj : j < t.length) : Storable disk chain freeMap t size j := by
  have hes : DirectoryEntry.size = 32 := rfl
  have hss : sectorSize = 128 := rfl
  have hcap := hok.length_bounds.2
  have hsectors := hok.sectorCount_eq
  rw [ht.length] at hcap hsectors
  refine ⟨roomy_of_le ?_, Or.inr ⟨fun hshort => ?_, Or.inl hj⟩⟩
  · rw [hes] at hcap ⊢
    omega
  · rw [Short, lt_divRoundUp_iff (by decide)] at hshort
    have hbytes := (divRoundUp_le_iff (show 0 < sectorSize by decide)).mp hsectors.ge
    rw [hes] at hshort hbytes
    rw [hss] at hshort hbytes
    omega

/-- The sectors of a file with one header and no bytes. -/
theorem FileOk.uses_empty {disk : ℕ → Sector} {x y : ℕ} (hok : FileOk disk [x])
    (hempty : fileLength disk [x] = 0) : Uses disk [x] y ↔ y = x := by
  have hnone : (headerOn disk x).numSectors = 0 := by
    have hcount := hok.sectorCount_eq
    rw [hempty] at hcount
    have hsum : numDirect * 0 + (headerOn disk x).numSectors = divRoundUp 0 sectorSize := hcount
    rw [Nat.mul_zero, Nat.zero_add] at hsum
    exact hsum
  rw [uses_single, hnone]
  refine or_iff_left ?_
  rintro ⟨j, hj, -⟩
  exact absurd hj (Nat.not_lt_zero j)

/-- An entry that is not in use is not that of a directory. -/
theorem createTyped_of_free (hsize : w.sys.directorySize = (tableAt w.sys.disk c).length)
    (hrel : name.head? ≠ some slash) {q : ℕ} (hq : q < (tableAt w.sys.disk c).length)
    (hfree : ((tableAt w.sys.disk c).slot q).inUse = false) :
    CreateTyped w.sys.heap w.sys.disk c w.sys.directorySize name := by
  intro p n base hat _ _ hgrows
  rw [createAt, if_neg hrel, Option.some.injEq, Prod.mk.injEq, Prod.mk.injEq] at hat
  obtain ⟨rfl, rfl, rfl⟩ := hat
  have hindex := Directory.freeIndex_le hfree
  omega

/-- **`Create` of a new name** in an entry that is not in use takes one sector. -/
theorem Live.create_inUse (hl : Live w V c rest)
    (hsize : w.sys.directorySize = (tableAt w.sys.disk c).length)
    (hrel : name.head? ≠ some slash) (hnew : (tableAt w.sys.disk c).find name = none) {q : ℕ}
    (hq : q < (tableAt w.sys.disk c).length)
    (hfree : ((tableAt w.sys.disk c).slot q).inUse = false)
    (hspace : 0 < (mapAt w.sys.disk).countClear) : ∃ x w₁, w.perform (.create name) = some w₁ ∧
      InUse (mapAt w.sys.disk) c name x (fun _ => False) w₁ := by
  have hd := hl.idle.ready.disk
  obtain ⟨chain, t, ha⟩ := hl.idle.dir
  obtain ⟨-, hok, htable⟩ := hd.directory ha.file
  have htab := hd.tableAt_eq ha.file
  have hchain : chainOn w.sys.disk c = chain := hd.chainOn_eq ha.file
  have hfull : w.sys.directorySize = t.length := hsize.trans (congrArg List.length htab)
  have hindex : t.freeIndex < t.length := by
    rw [htab] at hq hfree
    exact Nat.lt_of_le_of_lt (Directory.freeIndex_le hfree) hq
  have hat : createAt w.sys.disk c w.sys.directorySize name =
      some (c, w.sys.directorySize, name) := by
    unfold createAt
    rw [if_neg hrel]
  obtain ⟨r, s', V', c', hafter, hlive, hc⟩ := hl.createWith (storeFile_ok _)
    (fun habs => absurd habs hrel) fun _ => createTyped_of_free hsize hrel hq hfree
  obtain ⟨rfl, -⟩ := hc.returns fun habs => absurd habs hrel
  have haddable : Addable w.sys.disk (chainOn w.sys.disk c') (mapAt w.sys.disk)
      (tableAt w.sys.disk c') w.sys.directorySize name 0 := by
    rw [hchain, htab]
    refine Or.inr (Or.inr fun freeMap j _ hfreej hused => ?_)
    obtain rfl := Directory.freeIndex_eq hfreej hused
    exact htable.entryFits hok freeMap (by omega) hindex
  have hfits : CreateFitsEntry w.sys.disk c' w.sys.directorySize 0 := by
    rw [CreateFitsEntry, hchain, htab]
    exact fun freeMap _ => (htable.entryFits hok freeMap (by omega) hindex).2
  obtain ⟨rfl, henr⟩ := hc.stored _ _ _ hat haddable hnew hspace
  obtain ⟨p, m, base, x, hat', -, -, hlt, hclear, -, hbound⟩ := hc.succeeded rfl
  rw [hat, Option.some.injEq, Prod.mk.injEq, Prod.mk.injEq] at hat'
  obtain ⟨hp, hm, hbase⟩ := hat'
  rw [← hp, ← hm, ← hbase] at hbound
  obtain ⟨j, e, hnamed, hregular, -, -, hne, hslot, i, hfile, hichain, hitable, hzero⟩ := henr.entry
  have hself : V'.slot c' j = e := by
    rw [hslot _ _ hne, if_pos ⟨rfl, rfl⟩]
  -- the new entry is the only one with the name
  have honly : ∀ q, q ≠ j → (V'.slot c' q).named name = false := by
    intro q hqj
    rw [hslot _ _ hne, if_neg fun hcase => hqj hcase.2, slot_of_files ha.file]
    rw [htab, Directory.find_eq, Option.map_eq_none_iff] at hnew
    exact Directory.findIndex_eq_none hnew q
  have hsector : e.sector = x := by
    obtain ⟨j', hnamed', -, hsector⟩ := hbound.bound hfits
    obtain rfl : j' = j := by
      by_contra hne
      rw [honly j' hne] at hnamed'
      cases hnamed'
    rw [← hself]
    exact hsector
  rw [hsector] at hfile hichain hzero
  have hd' := hlive.idle.ready.disk
  have hfile' : V'.files x = some ⟨[x], none⟩ := by
    have hnone : i.table = none := by simpa using hitable
    rw [hfile, ← hichain, ← hnone]
  have hokx : FileOk s'.disk [x] := (hd'.file x _ hfile').regular rfl
  have hchainx : chainOn s'.disk x = [x] := hd'.chainOn_eq hfile'
  -- the directory gets no longer
  obtain ⟨chain', t', ha'⟩ := hlive.idle.dir
  have hsize' : s'.directorySize = w.sys.directorySize := by
    rw [hc.size hrel, sizeAfter, hnew, htab]
    exact Nat.max_eq_left (by omega)
  have htab' : tableAt s'.disk c' = t' := hd'.tableAt_eq ha'.file
  have hle' : t'.length ≤ s'.directorySize := ha'.le
  rw [hsize', hfull] at hle'
  rw [hchain] at henr
  obtain ⟨hlength, hsectors⟩ := henr.still t chain' t' ha.file ha'.file hle'
  have hcount := henr.count chain' t' ha'.file
  have hmap' : mapAt s'.disk = mapOn s'.disk V.map := by
    rw [← hc.map]
    exact hd'.mapAt_eq
  -- one sector more is marked
  have hmark := Bitmap.countClear_mark hlt hclear
  rw [hd.mapAt_eq] at hmark
  have hone : ∀ y, y < numSectors → mapAt s'.disk y = (mapAt w.sys.disk).mark x y := by
    intro y hy
    rw [hmap', hd.mapAt_eq]
    refine Bitmap.eq_of_countClear_eq (fun y hy hset => ?_) (by omega) hy
    rcases eq_or_ne y x with rfl | hne
    · have hown := (hd'.owned_marked ⟨y, _, hfile', (hd'.file y _ hfile').uses_self⟩).2
      rw [hc.map] at hown
      exact hown
    · rw [Bitmap.mark, Function.update_of_ne hne] at hset
      exact henr.marked y hy hset
  refine ⟨x, _, hafter, ⟨V', rest, hlive⟩, ?_, ?_, fun y hy => ?_, fun y hy hb => ⟨id, ?_⟩,
    fun y hno => hno.elim⟩
  · show s'.directorySize = (tableAt s'.disk c').length
    rw [hsize', hfull, htab', hlength]
  · show removeTarget s'.disk c' name false = some x
    have hslots : ∀ q, t'.slot q = V'.slot c' q := fun q => (slot_of_files ha'.file q).symm
    have hfindIndex : t'.findIndex name = some j := by
      refine Directory.findIndex_iff.mpr ⟨?_, fun q hq => ?_⟩
      · rw [hslots, hself]
        exact hnamed
      · rw [hslots]
        exact honly q (Nat.ne_of_lt hq)
    rw [removeTarget, htab', if_neg, Directory.find_eq, hfindIndex, Option.map_some, hslots, hself,
      hsector]
    rw [Bool.not_false, Bool.and_true, Directory.findDir_iff]
    rintro ⟨q, hq, hdir⟩
    rw [hslots] at hq hdir
    obtain rfl : q = j := by
      by_contra hne
      rw [honly q hne] at hq
      cases hq
    rw [hself, hregular] at hdir
    cases hdir
  · show mapAt s'.disk y = true ↔ _ ∨ False ∨ Uses s'.disk (chainOn s'.disk x) y
    rw [hone y hy, hchainx, hokx.uses_empty (hzero rfl), false_or, Bitmap.mark]
    rcases eq_or_ne y x with rfl | hne
    · simp
    · rw [Function.update_of_ne hne]
      exact (or_iff_left hne).symm
  · show ¬ Uses s'.disk (chainOn s'.disk x) y
    rw [hchainx, hokx.uses_empty (hzero rfl)]
    rintro rfl
    rw [hclear] at hb
    cases hb

/-- `Create` on a full disk does nothing, and so do the calls that use the file. -/
theorem Live.create_full (hl : Live w V c rest) (hrel : name.head? ≠ some slash)
    (htyped : CreateTyped w.sys.heap w.sys.disk c w.sys.directorySize name)
    (hspace : (mapAt w.sys.disk).countClear = 0) : ∃ w₁, w.perform (.create name) = some w₁ ∧
      (∃ V rest, Live w₁ V c rest) ∧ w₁.sys.disk = w.sys.disk := by
  obtain ⟨r, s', V', c', hafter, hlive, hc⟩ := hl.createWith (storeFile_ok _)
    (fun habs => absurd habs hrel) fun _ => htyped
  obtain ⟨rfl, -⟩ := hc.returns fun habs => absurd habs hrel
  refine ⟨_, hafter, ⟨V', rest, hlive⟩, ?_⟩
  cases r with
  | false => exact (hc.failed rfl).1
  | true =>
    obtain ⟨_, _, _, -, -, hfree⟩ := hc.result.mp rfl
    rw [hspace] at hfree
    exact absurd hfree (Nat.lt_irrefl 0)

/-- The calls that use a file that is not there. -/
theorem Live.session_absent {w₁ w₂ : World} {calls : List Call} (hl : ∃ V rest, Live w₁ V c rest)
    (hnone : (tableAt w₁.sys.disk c).find name = none)
    (hs : Session (UsesFile c name) w₁ calls w₂) : (∃ V rest, Live w₂ V c rest) ∧
      w₂.sys.disk = w₁.sys.disk ∧
      Session (fun w call => UsesFile c name w call ∧ w.Keeps call) w₁ calls w₂ := by
  refine Run.invariant (I := fun tr w => (∃ V rest, Live w V c rest) ∧ w.sys.disk = w₁.sys.disk ∧
    Session (fun w call => UsesFile c name w call ∧ w.Keeps call) w₁ tr w) ⟨hl, rfl, .start⟩ ?_ hs
  rintro tr w call w' ⟨⟨V, rest, hl⟩, hdisk, hkept⟩ hu hperform
  have habsent : ∀ y, (tableAt w.sys.disk c).find name ≠ some y := by
    intro y hy
    rw [hdisk, hnone] at hy
    cases hy
  cases call with
  | openFile name' =>
    obtain ⟨r, s', hperform', hsame, hcases⟩ := hl.opened name'
    obtain rfl := Option.some.inj (hperform.symm.trans hperform')
    refine ⟨?_, hsame.disk.trans hdisk, hkept.next _ ⟨hu, trivial⟩ hperform⟩
    rcases hcases with ⟨rfl, -, hl'⟩ | ⟨g, y, rfl, -, hl'⟩
    · exact ⟨_, _, hl'⟩
    · exact ⟨_, _, hl'⟩
  | write g src k => exact absurd hu.2 (habsent _)
  | close g => exact absurd hu.2 (habsent _)
  | create _ => exact hu.elim
  | createDir _ => exact hu.elim
  | changeDir _ => exact hu.elim
  | remove _ => exact hu.elim
  | removeDir _ => exact hu.elim
  | reuse _ => exact hu.elim

/-- `Remove` of a file that is not there. -/
theorem Live.remove_absent (hl : Live w V c rest)
    (hnone : (tableAt w.sys.disk c).find name = none) : ∃ w', w.perform (.remove name) = some w' ∧
      w'.sys.disk = w.sys.disk := by
  have htarget : removeTarget w.sys.disk c name false = none := by
    rw [removeTarget, hnone, ite_self]
  obtain ⟨r, s', hafter, -, hs, -⟩ := World.after_of_ends (hl.idle.remove_refused htarget)
  exact ⟨_, hafter, hs.disk⟩

end Create

/-- **`Remove` frees exactly one file**, and a file that is created, used and removed leaves the
free map as it was if and only if each of its `Write`s finds the space it needs, or not even the
sectors for its headers. -/
theorem remove_restores_iff {w : World} {V : Volume} {c : ℕ} {rest : List (ℕ × ℕ)}
    (hl : Live w V c rest) (hsize : w.sys.directorySize = (tableAt w.sys.disk c).length) :
    (∀ name x, removeTarget w.sys.disk c name false = some x →
      (w.sys.openFilesTable x).count = 0 → w.sys.Ends (FileSystem.remove name false)
        (fun r s' => r = true ∧ FreesFile w.sys.disk c name x s'.disk)) ∧
    ∀ name q, name.head? ≠ some slash → (tableAt w.sys.disk c).find name = none →
      q < (tableAt w.sys.disk c).length → ((tableAt w.sys.disk c).slot q).inUse = false →
      ∃ w₁, w.perform (.create name) = some w₁ ∧
        ∀ calls w₂, Session (UsesFile c name) w₁ calls w₂ →
          (∀ call, UsesFile c name w₂ call → w₂.Proceeds call → ∃ w', w₂.perform call = some w') ∧
          (w₂.Proceeds (.remove name) → ∃ w₃, w₂.perform (.remove name) = some w₃ ∧
            ((∀ y, y < numSectors → mapAt w₃.sys.disk y = mapAt w.sys.disk y) ↔
              Session (fun w call => UsesFile c name w call ∧ w.Keeps call) w₁ calls w₂)) := by
  refine ⟨fun name x hx hcount => ?_, fun name q hrel hnew hq hfree => ?_⟩
  · refine (hl.idle.remove_frees hsize hx hcount).mono ?_
    rintro r s' ⟨hr, hfrees, -⟩
    exact ⟨hr, hfrees⟩
  rcases Nat.eq_zero_or_pos (mapAt w.sys.disk).countClear with hfull | hspace
  · -- there is no sector for the file
    obtain ⟨w₁, hperform, hl₁, hdisk₁⟩ := hl.create_full hrel
      (createTyped_of_free hsize hrel hq hfree) hfull
    have hnone : (tableAt w₁.sys.disk c).find name = none := by
      rw [hdisk₁]
      exact hnew
    refine ⟨w₁, hperform, fun calls w₂ hs => ?_⟩
    obtain ⟨⟨V₂, rest₂, hl₂⟩, hdisk₂, hkept⟩ := Live.session_absent hl₁ hnone hs
    rw [← hdisk₂] at hnone
    refine ⟨fun call hu hp => hl₂.proceeds ?_ hp, fun _ => ?_⟩
    · cases call with
      | openFile name' => exact trivial
      | write g src k =>
        rw [UsesFile, hnone] at hu
        cases hu.2
      | close g => exact hu.1
      | create _ => exact hu.elim
      | createDir _ => exact hu.elim
      | changeDir _ => exact hu.elim
      | remove _ => exact hu.elim
      | removeDir _ => exact hu.elim
      | reuse _ => exact hu.elim
    · obtain ⟨w₃, hremove, hdisk₃⟩ := hl₂.remove_absent hnone
      refine ⟨w₃, hremove, fun _ => hkept, fun _ y _ => ?_⟩
      rw [hdisk₃, hdisk₂, hdisk₁]
  · obtain ⟨x, w₁, hperform, h₁⟩ := hl.create_inUse hsize hrel hnew hq hfree hspace
    refine ⟨w₁, hperform, fun calls w₂ hs => ?_⟩
    obtain ⟨lost, h₂, hiff⟩ := h₁.session hs
    obtain ⟨V₂, rest₂, hl₂⟩ := h₂.live
    refine ⟨fun call hu hp => hl₂.proceeds (h₂.typed hu) hp, fun hp => ?_⟩
    obtain ⟨w₃, hremove, hback⟩ := h₂.remove hp
    exact ⟨w₃, hremove, hback.trans hiff⟩

theorem World.handles_of_boot {disk : ℕ → Sector} {w : World} (h : World.boot disk = some w) :
    w.handles = [] := by
  obtain ⟨r, -, rfl⟩ := Option.map_eq_some_iff.mp h
  rfl

/-- The root of the blank volume: ten entries, and none is in use. -/
theorem Live.blank_root {w : World} {handles rest : List (ℕ × ℕ)}
    (hl : Live w (emptyVolume blankDisk handles) directorySector rest)
    (hsize : w.sys.directorySize = numDirEntries) (name : List UInt8) :
    w.sys.directorySize = (tableAt w.sys.disk directorySector).length ∧
      (tableAt w.sys.disk directorySector).find name = none ∧
      0 < (tableAt w.sys.disk directorySector).length ∧
      ((tableAt w.sys.disk directorySector).slot 0).inUse = false := by
  have htable : tableAt w.sys.disk directorySector = rootTable blankDisk :=
    hl.idle.ready.disk.tableAt_eq emptyVolume_files_self
  rw [htable, rootTable_length]
  refine ⟨hsize, ?_, by decide, (blankDisk_formatted.rootTable_slot 0).1⟩
  rw [Directory.find_eq, Option.map_eq_none_iff]
  cases hindex : (rootTable blankDisk).findIndex name with
  | none => rfl
  | some j =>
    have hnamed := (Directory.findIndex_eq_some hindex).2
    rw [DirectoryEntry.named, (blankDisk_formatted.rootTable_slot j).1, Bool.false_and] at hnamed
    cases hnamed

/-- On the blank volume, a file is created, opened, written and closed.  Nobody has to be waited for
to remove it; and its `Write` finds the space it needs exactly if it finds it in an empty file with
1017 free sectors. -/
theorem blank_used {n : ℕ} (hn : 0 < n) : ∃ w₀ w₁ f w₂ V rest x disk y,
    World.boot blankDisk = some w₀ ∧ Live w₀ V directorySector rest ∧
    w₀.sys.directorySize = (tableAt w₀.sys.disk directorySector).length ∧
    (tableAt w₀.sys.disk directorySector).find (letter 0) = none ∧
    0 < (tableAt w₀.sys.disk directorySector).length ∧
    ((tableAt w₀.sys.disk directorySector).slot 0).inUse = false ∧
    w₀.perform (.create (letter 0)) = some w₁ ∧
    InUse (mapAt w₀.sys.disk) directorySector (letter 0) x (fun _ => False) w₁ ∧
    Session (UsesFile directorySector (letter 0)) w₁
      [.openFile (letter 0), .write f (fun _ => 0) n, .close f] w₂ ∧
    w₂.Proceeds (.remove (letter 0)) ∧
    (mapAt disk).countClear = 1017 ∧ sectorCount disk [y] = 0 ∧
    (Session (fun w call => UsesFile directorySector (letter 0) w call ∧ w.Keeps call) w₁
      [.openFile (letter 0), .write f (fun _ => 0) n, .close f] w₂ ↔
        Roomy disk [y] (mapAt disk) 0 n) := by
  obtain ⟨w₀, handles, rest, hboot, h₀, hempty₀⟩ := crowded_blank
  have hrel := letter_head 0 (by decide)
  obtain ⟨hsize, hnew, hpos, hfree⟩ := h₀.live.blank_root h₀.size (letter 0)
  -- the file is created
  obtain ⟨x, w₁, hcreate, hin₁⟩ := h₀.live.create_inUse hsize hrel hnew hpos hfree
    (by rw [h₀.free]; decide)
  obtain ⟨s₁, V₁, hcreate', h₁, hempty₁⟩ := h₀.create hempty₀ (by decide)
  obtain rfl := Option.some.inj (hcreate.symm.trans hcreate')
  -- it is opened, and written
  obtain ⟨s₂, f, V₂, rest₂, hopen, h₂, hempty₂, hsector⟩ := h₁.openFile hempty₁ (by decide)
  have hopening : UsesFile directorySector (letter 0) ⟨s₁, w₀.handles⟩ (.openFile (letter 0)) := rfl
  obtain ⟨lost₂, hin₂, hiff₂⟩ := hin₁.step hopening hopen
  have hx : (s₂.openFile f).sector = x :=
    hsector.trans (Option.some.inj ((h₂.find_first (by decide)).symm.trans hin₂.find))
  obtain ⟨hlegal, y, m, s₃, V₃, hwrite, hlive₃, -, hcount, -, hw, hchain, hposition⟩ :=
    h₂.write hempty₂ (by decide) List.mem_cons_self hsector (fun _ => 0) hn
  obtain ⟨lost₃, hin₃, hiff₃⟩ := hin₂.write List.mem_cons_self hx hn hwrite
  have hkeeps : World.Keeps ⟨s₂, f :: w₀.handles⟩ (.write f (fun _ => 0) n) ↔
      Roomy s₂.disk [y] (mapAt s₂.disk) 0 n := by
    rw [← hposition, ← hchain]
    exact Iff.rfl
  have hwriting : UsesFile directorySector (letter 0) ⟨s₂, f :: w₀.handles⟩
      (.write f (fun _ => 0) n) := by
    refine ⟨List.mem_cons_self, ?_⟩
    show _ = some (s₂.openFile f).sector
    rw [hx]
    exact hin₂.find
  -- it is closed
  have hstill : (s₃.openFile f).sector = x := by
    obtain ⟨hmem, -⟩ := h₂.live.handle List.mem_cons_self
    refine hlive₃.idle.ready.handles.sector f x ?_
    rw [hlive₃.idle.handles, ← hx]
    exact List.mem_cons_of_mem _ hmem
  have hclosing : UsesFile directorySector (letter 0) ⟨s₃, f :: w₀.handles⟩ (.close f) := by
    refine ⟨List.mem_cons_self, ?_⟩
    show _ = some (s₃.openFile f).sector
    rw [hstill]
    exact hin₃.find
  obtain ⟨s₄, rest₄, hclose, -, -⟩ := hlive₃.closed List.mem_cons_self
  obtain ⟨lost₄, hin₄, hiff₄⟩ := hin₃.step hclosing hclose
  have huse : Session (UsesFile directorySector (letter 0)) ⟨s₁, w₀.handles⟩ [] ⟨s₁, w₀.handles⟩ :=
    .start
  have huses := ((huse.next _ hopening hopen).next _ hwriting hwrite).next _ hclosing hclose
  -- nobody holds it
  have hstart : Session (fun w call => w.Legal call ∧ w.Returns call) w₀ [] w₀ := .start
  have hs₁ := hstart.next (.create (letter 0)) ⟨(fun h => absurd h hrel), fun h => absurd h hrel⟩
    hcreate
  have hs₃ := (hs₁.next (.openFile (letter 0)) ⟨trivial, trivial⟩ hopen).next _ ⟨hlegal, trivial⟩
    hwrite
  obtain ⟨-, htyped⟩ := (hs₃.next (.close f) ⟨hclosing.1, trivial⟩ hclose).typed hboot
    fun _ _ hg => hg.1
  obtain ⟨-, -, -, -, hexact⟩ := blankDisk_formatted.countsExact hboot
    (htyped.mono fun _ _ _ hg => ⟨hg.2, hg.1.2⟩)
  have hnone : (f :: w₀.handles).erase f = [] := by
    rw [List.erase_cons_head, World.handles_of_boot hboot]
  obtain ⟨lost, hin, hiff⟩ := hin₁.session huses
  refine ⟨w₀, _, f, _, _, rest, x, s₂.disk, y, hboot, h₀.live, hsize, hnew, hpos, hfree, hcreate,
    hin₁, huses, hin₄.proceeds hexact hnone, h₂.free, hcount, hiff.symm.trans ?_⟩
  have hsame : (∀ z, ¬ lost z) ↔ ∀ z, ¬ lost₄ z :=
    ⟨fun h z hz => h z (hin₄.lost_unique hin hz), fun h z hz => h z (hin.lost_unique hin₄ hz)⟩
  rw [hsame, hiff₄, hiff₃, hiff₂, hkeeps]
  exact ⟨fun h => h.1.2, fun h => ⟨⟨⟨fun _ => id, trivial⟩, h⟩, trivial⟩⟩

/-- A file of 5000 bytes is removed, and the free map is as it was. -/
theorem remove_restores_iff_blank : ∃ w₀ w₁ f w₂ w₃, World.boot blankDisk = some w₀ ∧
    w₀.perform (.create (letter 0)) = some w₁ ∧
    Session (UsesFile directorySector (letter 0)) w₁
      [.openFile (letter 0), .write f (fun _ => 0) 5000, .close f] w₂ ∧
    w₂.perform (.remove (letter 0)) = some w₃ ∧
    ∀ y, y < numSectors → mapAt w₃.sys.disk y = mapAt w₀.sys.disk y := by
  obtain ⟨w₀, w₁, f, w₂, V, rest, x, disk, y, hboot, hl, hsize, hnew, hpos, hfree, hcreate, -, hs,
    hproceeds, hclear, hcount, hiff⟩ := blank_used (show 0 < 5000 by decide)
  obtain ⟨w, hcreate', hall⟩ :=
    (remove_restores_iff hl hsize).2 (letter 0) 0 (letter_head 0 (by decide)) hnew hpos hfree
  obtain rfl := Option.some.inj (hcreate.symm.trans hcreate')
  obtain ⟨w₃, hremove, hback⟩ := (hall _ w₂ hs).2 hproceeds
  refine ⟨w₀, w₁, f, w₂, w₃, hboot, hcreate, hs, hremove, hback.mpr (hiff.mpr ?_)⟩
  unfold Roomy
  rw [hclear, hcount, List.length_singleton]
  decide

/-- A file whose `Write` loses sectors is removed, and these stay marked. -/
theorem remove_leaves_marked : ∃ w₀ w₁ f w₂ w₃, World.boot blankDisk = some w₀ ∧
    w₀.sys.directorySize = (tableAt w₀.sys.disk directorySector).length ∧
    (tableAt w₀.sys.disk directorySector).find (letter 0) = none ∧
    ((tableAt w₀.sys.disk directorySector).slot 0).inUse = false ∧
    w₀.perform (.create (letter 0)) = some w₁ ∧
    Session (UsesFile directorySector (letter 0)) w₁
      [.openFile (letter 0), .write f (fun _ => 0) 3671168, .close f] w₂ ∧
    w₂.perform (.remove (letter 0)) = some w₃ ∧
    ∃ y, y < numSectors ∧ mapAt w₃.sys.disk y ≠ mapAt w₀.sys.disk y := by
  obtain ⟨w₀, w₁, f, w₂, V, rest, x, disk, y, hboot, -, hsize, hnew, -, hfree, hcreate, hin, hs,
    hproceeds, hclear, hcount, hiff⟩ := blank_used (show 0 < 3671168 by decide)
  obtain ⟨lost, hin₂, hlost⟩ := hin.session hs
  obtain ⟨w₃, hremove, hback⟩ := hin₂.remove hproceeds
  refine ⟨w₀, w₁, f, w₂, w₃, hboot, hsize, hnew, hfree, hcreate, hs, hremove, ?_⟩
  by_contra hsame
  simp only [not_exists, not_and, not_not] at hsame
  have hroomy := hiff.mp (hlost.mp (hback.mp hsame))
  unfold Roomy at hroomy
  rw [hclear, hcount, List.length_singleton] at hroomy
  exact absurd hroomy (by decide)

end PaldOs
