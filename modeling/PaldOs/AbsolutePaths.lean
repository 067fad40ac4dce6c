import PaldOs.Checker
import PaldOs.Durability
import PaldOs.Freeing
import PaldOs.Listing
import PaldOs.PathBuffers
import PaldOs.PathResolution

/-! # A relative name has an absolute path

`Create` and `CreateDir` store a relative name as it is.  With the path of the current directory in
front of it, it is an absolute path, which they split at its last slash, and `ChangeDir` splits what
is before that at every slash.

So the file is found at this path only if no slash is in the name or in the names of the directories
on the way, and none of them is empty; the path has to be shorter than the buffer that it is copied
to, and the directory must have had space for the entry.  Then it is found there
(`create_foundAt_iff`): directories make a tree, in which no other path leads to the directory.
-/
namespace PaldOs

open Sys

/-! ## Paths -/

/-- The absolute path: a slash before every name. -/
def pathString (names : List (List UInt8)) : List UInt8 := names.flatMap fun name => slash :: name

/-- A name that comes out of a path as it went in. -/
def Component (name : List UInt8) : Prop := name ≠ [] ∧ slash ∉ name

/-- **The names of the directory at `h`**, and of the directories above it, from the root on: of
each name what counts. -/
inductive PathTo (disk : ℕ → Sector) : List (List UInt8) → ℕ → Prop
  | root : PathTo disk [] directorySector
  | entry {names : List (List UInt8)} {h j : ℕ} : PathTo disk names h →
      ((tableAt disk h).slot j).inUse = true → ((tableAt disk h).slot j).isDirectory = true →
      PathTo disk (names ++ [((tableAt disk h).slot j).key]) ((tableAt disk h).slot j).sector

/-- **The path leads to the sector.**  It is split as `Create` does it: `ChangeDir` accepts what is
before the last slash, what is behind it is not empty, and in the directory that has become the
current one `Find` gives the sector. -/
def FoundAt (s : System) (path : List UInt8) (sector : ℕ) : Prop :=
  ∃ name backup s₁ dir s₂,
    (FileSystem.enterParent path).run System.act s = some (some (name, some backup), s₁) ∧
    name ≠ [] ∧ FileSystem.currentTable.run System.act s₁ = some (dir, s₂) ∧
    dir.find name = some sector

/-! ## Splitting -/

section Splitting
variable {a b path name token : List UInt8} {names : List (List UInt8)}

theorem pathString_concat (names : List (List UInt8)) (name : List UInt8) :
    pathString (names ++ [name]) = pathString names ++ slash :: name := by
  rw [pathString, List.flatMap_append, List.flatMap_singleton]
  rfl

theorem pathString_head (names : List (List UInt8)) :
    pathString names = [] ∨ (pathString names).head? = some slash := by
  cases names with
  | nil => exact Or.inl rfl
  | cons name names => exact Or.inr rfl

theorem pathString_append_head (names : List (List UInt8)) (name : List UInt8) :
    (pathString names ++ slash :: name).head? = some slash := by
  cases names with
  | nil => rfl
  | cons first names => rfl

theorem tokens_append (a b : List UInt8) : tokens (a ++ slash :: b) = tokens a ++ tokens b := by
  rw [tokens, List.splitOn_append_cons_self, List.filter_append]
  rfl

theorem tokens_component (h : Component name) : tokens name = [name] :=
  (PathBuffers.tokens_name h.1 h.2 []).1

/-- The tokens of a path are those of its names. -/
theorem tokens_pathString (names : List (List UInt8)) :
    tokens (pathString names) = names.flatMap tokens := by
  induction names using List.reverseRecOn with
  | nil => rfl
  | append_singleton names name ih =>
    rw [pathString_concat, tokens_append, ih, List.flatMap_append, List.flatMap_singleton]

theorem flatMap_tokens (h : ∀ name ∈ names, Component name) : names.flatMap tokens = names := by
  induction names with
  | nil => rfl
  | cons name names ih =>
    obtain ⟨hname, hnames⟩ := List.forall_mem_cons.mp h
    rw [List.flatMap_cons, tokens_component hname, ih hnames]
    rfl

/-- A string that starts with another character has a token. -/
theorem tokens_ne_nil (hne : a ≠ []) (hhead : a.head? ≠ some slash) : tokens a ≠ [] := by
  by_cases hslash : slash ∈ a
  · obtain ⟨first, others, rfl, hfirst⟩ := List.eq_append_cons_of_mem hslash
    have hfirst_ne : first ≠ [] := by
      rintro rfl
      exact hhead rfl
    rw [tokens_append, tokens_component ⟨hfirst_ne, hfirst⟩]
    exact List.cons_ne_nil _ _
  · rw [tokens_component ⟨hne, hslash⟩]
    exact List.cons_ne_nil _ _

/-- The characters of a token are those of the path. -/
theorem mem_of_mem_splitOn {c : UInt8} (path : List UInt8) : ∀ token ∈ path.splitOn slash,
    c ∈ token → c ∈ path := by
  induction path with
  | nil =>
    intro token htoken hc
    rw [List.splitOn_nil, List.mem_singleton] at htoken
    rwa [htoken] at hc
  | cons x path ih =>
    intro token htoken hc
    rw [List.splitOn_cons_eq_if_modifyHead] at htoken
    split at htoken
    · rcases List.mem_cons.mp htoken with rfl | htoken
      · cases hc
      · exact List.mem_cons_of_mem _ (ih token htoken hc)
    · cases hsplit : path.splitOn slash with
      | nil => exact absurd hsplit (List.splitOn_ne_nil _ _)
      | cons first others =>
        rw [hsplit] at htoken ih
        rcases List.mem_cons.mp htoken with rfl | htoken
        · rcases List.mem_cons.mp hc with rfl | hc
          · exact List.mem_cons_self
          · exact List.mem_cons_of_mem _ (ih first List.mem_cons_self hc)
        · exact List.mem_cons_of_mem _ (ih token (List.mem_cons_of_mem _ htoken) hc)

theorem component_of_mem_tokens (h : token ∈ tokens path) : Component token := by
  obtain ⟨hmem, hempty⟩ := List.mem_filter.mp h
  refine ⟨?_, slash_not_mem_splitOn path token hmem⟩
  rintro rfl
  cases hempty

/-- Where the last slash is. -/
theorem lastSlashFound_append (a : List UInt8) (hb : slash ∉ b) :
    lastSlashFound (a ++ slash :: b) = a.length := by
  have hnone : b.reverse.findIdx (· == slash) = b.reverse.length := by
    refine List.findIdx_eq_length.mpr fun c hc => ?_
    rw [beq_eq_false_iff_ne]
    rintro rfl
    exact hb (List.mem_reverse.mp hc)
  have hindex : (a ++ slash :: b).reverse.findIdx (· == slash) = b.length := by
    rw [List.reverse_append, List.reverse_cons, List.append_assoc, List.findIdx_append, hnone,
      if_neg (Nat.lt_irrefl _), List.singleton_append, List.findIdx_cons, List.length_reverse]
    simp
  rw [lastSlashFound, hindex, List.length_append, List.length_cons]
  omega

/-- **A path is split** at its last slash. -/
theorem split_path (ha : a = [] ∨ a.head? = some slash) (hb : slash ∉ b) :
    baseName (a ++ slash :: b) = b ∧ tokens (parentPath (a ++ slash :: b)).tail = tokens a := by
  have hlast := lastSlashFound_append a hb
  constructor
  · rw [baseName, hlast, ← List.singleton_append, ← List.append_assoc]
    exact List.drop_left' (by simp)
  · rw [parentPath, hlast, List.take_left]
    rcases ha with rfl | hhead
    · rfl
    · cases a with
      | nil => cases hhead
      | cons x a =>
        obtain rfl := Option.some.inj hhead
        rw [if_neg (by simp), PathBuffers.tokens_slash]
        rfl

end Splitting

/-! ## Names in a tree -/

section Names
variable {e : DirectoryEntry} {name : List UInt8} {c : UInt8}

/-- The key of a name has characters of the name only. -/
theorem mem_of_mem_nameKey (h : c ∈ nameKey name) : c ∈ name := by
  have hne := List.mem_takeWhile_imp h
  obtain ⟨i, -, rfl⟩ := List.mem_map.mp ((List.takeWhile_prefix _).subset h)
  rw [charAt] at hne ⊢
  rcases Nat.lt_or_ge i name.length with hi | hi
  · rw [List.getD_eq_getElem _ _ hi]
    exact List.getElem_mem hi
  · rw [List.getD_eq_default _ _ hi] at hne
    cases hne

/-- The key of a component is one. -/
theorem Component.nameKey (h : Component name) (hstring : (0 : UInt8) ∉ name) :
    Component (nameKey name) := by
  obtain ⟨hne, hslash⟩ := h
  cases name with
  | nil => exact absurd rfl hne
  | cons x name =>
    refine ⟨?_, fun hmem => hslash (mem_of_mem_nameKey hmem)⟩
    have hx : charAt (x :: name) 0 ≠ 0 := by
      rintro (rfl : x = 0)
      exact hstring List.mem_cons_self
    rw [PaldOs.nameKey, show fileNameMaxLen = 19 + 1 from rfl, keyFrom_succ, if_neg hx]
    exact List.cons_ne_nil _ _

/-- What counts of a name has no null byte. -/
theorem DirectoryEntry.zero_not_mem_key (e : DirectoryEntry) : (0 : UInt8) ∉ e.key := by
  intro hmem
  have hne := List.mem_takeWhile_imp hmem
  cases hne

/-- An entry has the name that is its key. -/
theorem DirectoryEntry.named_key (hu : e.inUse = true) : e.named e.key = true := by
  have hget : ∀ p, p < fileNameMaxLen →
      ((List.range' 0 fileNameMaxLen).map e.nameAt).getD p 0 = e.nameAt p := by
    intro p hp
    rw [List.getD_eq_getElem _ _ (by simpa using hp), List.getElem_map, List.getElem_range',
      Nat.zero_add, Nat.one_mul]
  rw [DirectoryEntry.named, hu, Bool.true_and, sameFrom_iff]
  intro l hl hne
  rw [Nat.zero_add, charAt, DirectoryEntry.key, keyFrom, DirectoryEntry.getD_takeWhile _ l
    fun p hp => ?_, hget l hl]
  rw [hget p (hp.trans hl)]
  have := hne p hp
  rwa [Nat.zero_add] at this

end Names

section Trees
variable {V V' : Volume} {disk disk' : ℕ → Sector} {names tokens : List (List UInt8)} {h j x : ℕ}
  {name : List UInt8}

/-- A path leads to a directory of the volume. -/
theorem PathTo.kind (hp : PathTo disk names h) (hd : DiskOk .strict V disk) (ht : TreeOk V) :
    V.kind h = some true := by
  induction hp with
  | root => exact ht.root
  | @entry _ h j _ hu hdir ih =>
    rw [hd.slot_eq ih] at hu hdir ⊢
    rw [(ht.entry h j hu).1, hdir]

/-- The names stay, and so do their entries. -/
theorem PathTo.kept (hp : PathTo disk names h) (hd : DiskOk .strict V disk) (ht : TreeOk V)
    (hd' : DiskOk .strict V' disk') (ht' : TreeOk V')
    (hsame : ∀ h q, (V.slot h q).inUse = true → V'.slot h q = V.slot h q) :
    PathTo disk' names h := by
  induction hp with
  | root => exact .root
  | @entry names h j hp hu hdir ih =>
    have hk := hp.kind hd ht
    have hslot : (tableAt disk' h).slot j = (tableAt disk h).slot j := by
      rw [hd'.slot_eq (ih.kind hd' ht'), hd.slot_eq hk]
      rw [hd.slot_eq hk] at hu
      exact hsame h j hu
    rw [← hslot] at hu hdir ⊢
    exact .entry ih hu hdir

theorem PathTo.leads (hp : PathTo disk names h) : Leads disk names h := by
  induction hp with
  | root => exact .root
  | entry _ hu hdir ih => exact .entry ih (DirectoryEntry.named_key hu) hdir

/-- **Directories make a tree**: whatever leads to the directory are names of the directories
above it. -/
theorem PathTo.unique (hp : PathTo disk names h) (hd : DiskOk .strict V disk) (ht : TreeOk V) :
    ∀ {tokens : List (List UInt8)}, Leads disk tokens h → names = tokens.map nameKey := by
  -- by induction on the path: an entry is the only one with its sector, and none is on the root
  induction hp with
  | root =>
    intro tokens hl
    generalize hx : directorySector = x at hl
    cases hl with
    | root => rfl
    | @entry _ h j _ hl hnamed _ =>
      have hk := ht.resolve_kind _ ht.root ((hd.leads_iff ht _).mp hl)
      rw [hd.slot_eq hk] at hnamed hx
      exact absurd hx.symm (ht.entry h j (Bool.and_eq_true_iff.mp hnamed).1).2
  | @entry names h j hp hu hdir ih =>
    intro tokens hl
    have hk := hp.kind hd ht
    rw [hd.slot_eq hk] at hu
    generalize hx : ((tableAt disk h).slot j).sector = x at hl
    rw [hd.slot_eq hk] at hx ⊢
    cases hl with
    | root => exact absurd hx (ht.entry h j hu).2
    | @entry tokens h' j' token hl hnamed _ =>
      have hk' := ht.resolve_kind _ ht.root ((hd.leads_iff ht _).mp hl)
      rw [hd.slot_eq hk'] at hnamed hx
      obtain ⟨rfl, rfl⟩ := ht.once h j h' j' hu (Bool.and_eq_true_iff.mp hnamed).1 hx
      rw [List.map_append, ← ih hl, (DirectoryEntry.named_iff.mp hnamed).2]
      rfl

/-- Every directory has a path. -/
theorem Volume.Reaches.exists_path (hr : V.Reaches h) (hd : DiskOk .strict V disk) (ht : TreeOk V)
    (hk : V.kind h = some true) : ∃ names, PathTo disk names h := by
  induction hr with
  | root => exact ⟨[], .root⟩
  | @entry h j _ hu ih =>
    have hdir : (V.slot h j).isDirectory = true :=
      Option.some.inj ((ht.entry h j hu).1.symm.trans hk)
    have hparent : V.kind h = some true := kind_of_inUse hu
    obtain ⟨names, hp⟩ := ih hparent
    rw [← hd.slot_eq hparent] at hu hdir ⊢
    exact ⟨_, .entry hp hu hdir⟩

/-- The names on a path have no null byte. -/
theorem PathTo.zero_not_mem (hp : PathTo disk names h) : ∀ name ∈ names, (0 : UInt8) ∉ name := by
  induction hp with
  | root => exact fun _ hname => absurd hname List.not_mem_nil
  | entry _ _ _ ih =>
    intro name hname
    rcases List.mem_append.mp hname with hname | hname
    · exact ih name hname
    · rw [List.mem_singleton.mp hname]
      exact DirectoryEntry.zero_not_mem_key _

end Trees

/-! ## What is found at a path -/

section Finding
variable {V : Volume} {s : System} {c x : ℕ} {rest : List (ℕ × ℕ)} {path : List UInt8}

/-- **What is at a path**, if it is short enough: the entry of its last name, in the directory that
the names before it lead to. -/
theorem Idle.foundAt_iff (hi : Idle .strict V s c rest) (habs : path.head? = some slash) :
    FoundAt s path x ↔ CreateFits path ∧ baseName path ≠ [] ∧
      ∃ h j, Leads s.disk (tokens (parentPath path).tail) h ∧
        (V.slot h j).named (baseName path) = true ∧ (V.slot h j).sector = x := by
  have hd := hi.ready.disk
  have ht := hi.ready.tree
  obtain ⟨chain, t, ha⟩ := hi.dir
  have hsome : (V.files c).isSome = true := by
    rw [ha.file]
    rfl
  constructor
  · rintro ⟨name, backup, s₁, dir, s₂, hrun, hne, htable, hfind⟩
    have hfits := enterParent_fits _ _ hrun
    obtain ⟨r, s₁', hrun', hcases⟩ := Ready.enterParent (V := V) hi.ready_handles hsome hfits
    rw [hrun, Option.some.injEq, Prod.mk.injEq] at hrun'
    obtain ⟨rfl, rfl⟩ := hrun'
    rcases hcases with ⟨hrel, -⟩ | ⟨-, -, hnone, -⟩ |
      ⟨-, -, ⟨p, hres, hname, hm⟩ | ⟨_, -, hnone, -⟩⟩
    · exact absurd habs hrel
    · cases hnone
    · obtain ⟨rfl, -⟩ := Prod.mk.inj (Option.some.inj hname)
      obtain ⟨chainp, tp, hap, -⟩ := hm.atDir
      obtain ⟨d, s₂', htable', -, hslot, -⟩ := hm.ready.currentTable hap
      rw [htable, Option.some.injEq, Prod.mk.injEq] at htable'
      obtain ⟨rfl, -⟩ := htable'
      rw [Directory.find_congr hslot] at hfind
      obtain ⟨j, hnamed, hsector⟩ := (ht.find_iff (show V.files p = _ from hap.file)).mp hfind
      exact ⟨hfits, hne, p, j, (hd.leads_iff ht _).mpr hres, hnamed, hsector⟩
    · cases hnone
  · rintro ⟨hfits, hne, h, j, hl, hnamed, hsector⟩
    have hres := (hd.leads_iff ht _).mp hl
    obtain ⟨r, s₁, hrun, hcases⟩ := Ready.enterParent (V := V) hi.ready_handles hsome hfits
    rcases hcases with ⟨hrel, -⟩ | ⟨-, hnil, -⟩ | ⟨-, -, ⟨p, hp, rfl, hm⟩ | ⟨_, hnone, -⟩⟩
    · exact absurd habs hrel
    · have hroot : path = [slash] := by
        rw [← List.cons_head?_tail (Option.mem_def.mpr habs), hnil]
      rw [hroot] at hne
      exact absurd rfl hne
    · obtain rfl := Option.some.inj (hp.symm.trans hres)
      obtain ⟨chainp, tp, hap, -⟩ := hm.atDir
      obtain ⟨d, s₂, htable, -, hslot, -⟩ := hm.ready.currentTable hap
      refine ⟨_, _, s₁, d, s₂, hrun, hne, htable, ?_⟩
      rw [Directory.find_congr hslot]
      exact (ht.find_iff (show V.files p = _ from hap.file)).mpr ⟨j, hnamed, hsector⟩
    · rw [hres] at hnone
      cases hnone

end Finding

/-! ## What was created -/

section Components
variable {path name : List UInt8} {names : List (List UInt8)}

theorem zero_not_mem_pathString (h : ∀ name ∈ names, (0 : UInt8) ∉ name) :
    (0 : UInt8) ∉ pathString names := by
  intro hmem
  obtain ⟨name, hname, hzero⟩ := List.mem_flatMap.mp hmem
  rcases List.mem_cons.mp hzero with hslash | hzero
  · cases hslash
  · exact h name hname hzero

theorem components_of_map (hnames : names = (tokens path).map nameKey)
    (hzero : (0 : UInt8) ∉ path) : ∀ name ∈ names, Component name := by
  intro name hname
  rw [hnames] at hname
  obtain ⟨token, htoken, rfl⟩ := List.mem_map.mp hname
  exact (component_of_mem_tokens htoken).nameKey fun hmem =>
    hzero (mem_of_mem_splitOn path token (List.mem_of_mem_filter htoken) hmem)

/-- If what is before the last slash leads to the directory, then no slash is in a name. -/
theorem components_of_unique (hrel : name.head? ≠ some slash)
    (hstring : ∀ name' ∈ names ++ [name], (0 : UInt8) ∉ name')
    (hbase : baseName (pathString names ++ slash :: name) ≠ [])
    (hnames : names =
      (tokens (parentPath (pathString names ++ slash :: name)).tail).map nameKey) :
    ∀ name' ∈ names ++ [name], Component name' := by
  have hpath : (0 : UInt8) ∉ pathString names ++ slash :: name := by
    rw [← pathString_concat]
    exact zero_not_mem_pathString hstring
  by_cases hslash : slash ∈ name
  · exfalso
    obtain ⟨after, before, hreverse, hafter⟩ :=
      List.eq_append_cons_of_mem (List.mem_reverse.mpr hslash)
    obtain rfl : name = before.reverse ++ slash :: after.reverse := by
      rw [← List.reverse_reverse name, hreverse]
      simp
    generalize before.reverse = first at hrel hbase hnames hpath
    have hlast : slash ∉ after.reverse := fun hmem => hafter (List.mem_reverse.mp hmem)
    generalize after.reverse = last at hbase hnames hpath hlast
    have hne : first ≠ [] := by
      rintro rfl
      exact hrel rfl
    have hhead : first.head? ≠ some slash := by
      rwa [List.head?_append_of_ne_nil _ hne] at hrel
    rw [← List.cons_append, ← List.append_assoc] at hnames hpath
    rw [(split_path (Or.inr (pathString_append_head names first)) hlast).2] at hnames
    have hall := components_of_map hnames fun hmem => hpath (List.mem_append_left _ hmem)
    rw [tokens_append, tokens_pathString, flatMap_tokens hall] at hnames
    -- there would be more tokens than names
    have hlength := congrArg List.length hnames
    rw [List.length_map, List.length_append] at hlength
    exact tokens_ne_nil hne hhead (List.eq_nil_of_length_eq_zero (by omega))
  · obtain ⟨hself, htokens⟩ := split_path (pathString_head names) hslash
    rw [hself] at hbase
    rw [htokens] at hnames
    have hall := components_of_map hnames fun hmem => hpath (List.mem_append_left _ hmem)
    intro name' hmem
    rcases List.mem_append.mp hmem with hmem | hmem
    · exact hall name' hmem
    · rw [List.mem_singleton.mp hmem]
      exact ⟨hbase, hslash⟩

end Components

section Created
variable {V V' : Volume} {s s' : System} {c c' : ℕ} {rest : List (ℕ × ℕ)} {isDirectory : Bool}
  {more : ℕ} {name : List UInt8} {names : List (List UInt8)}

/-- **The file is found at the path** of the directory, with its name behind it, exactly if names go
in and out of the path, the path is short enough, and the entry fits. -/
theorem Created.foundAt_iff (hi : Idle .strict V s c rest)
    (hc : Created .strict V s c rest isDirectory more name true V' c' s')
    (hrel : name.head? ≠ some slash) (hstring : (0 : UInt8) ∉ name) (hp : PathTo s.disk names c)
    (hlevel : names.length < maxDirLevel) : ∃ sector,
      (mapAt s.disk).find = some (sector, (mapAt s.disk).mark sector) ∧
      (FoundAt s' (pathString names ++ slash :: name) sector ↔
        (∀ name' ∈ names ++ [name], Component name') ∧
        (pathString names ++ slash :: name).length < filePathMaxLen ∧
        CreateFitsEntry s.disk c s.directorySize more) := by
  have hd := hi.ready.disk
  have ht := hi.ready.tree
  have hd' := hc.idle.ready.disk
  have ht' := hc.idle.ready.tree
  obtain ⟨p, n, base, sector, hat, -, -, hlt, hclear, hbefore, hb⟩ := hc.succeeded rfl
  rw [createAt, if_neg hrel, Option.some.injEq, Prod.mk.injEq, Prod.mk.injEq] at hat
  obtain ⟨rfl, rfl, rfl⟩ := hat
  refine ⟨sector, Bitmap.find_eq_some_iff.mpr ⟨⟨hlt, hclear, hbefore⟩, rfl⟩, ?_⟩
  have hp' : PathTo s'.disk names c := hp.kept hd ht hd' ht' hb.entries
  rw [hc.idle.foundAt_iff (pathString_append_head names name)]
  constructor
  · rintro ⟨hfits, hbase, h, j, hl, hnamed, hsector⟩
    have hfitsEntry : CreateFitsEntry s.disk c s.directorySize more := by
      by_contra hno
      rw [hb.unbound hno h j] at hnamed hsector
      -- the sector was free, and belongs to no entry
      obtain ⟨i, hfile, -⟩ :=
        Option.map_eq_some_iff.mp (ht.entry h j (Bool.and_eq_true_iff.mp hnamed).1).1
      have hmarked := (hd.owned_marked ⟨_, i, hfile, (hd.file _ i hfile).uses_self⟩).2
      rw [hsector, ← hd.mapAt_eq, hclear] at hmarked
      cases hmarked
    obtain ⟨q, hnamedq, -, hsectorq⟩ := hb.bound hfitsEntry
    obtain ⟨rfl, rfl⟩ := ht'.once h j c q (Bool.and_eq_true_iff.mp hnamed).1
      (Bool.and_eq_true_iff.mp hnamedq).1 (hsector.trans hsectorq.symm)
    have hzero : ∀ name' ∈ names ++ [name], (0 : UInt8) ∉ name' := by
      intro name' hmem
      rcases List.mem_append.mp hmem with hmem | hmem
      · exact hp.zero_not_mem name' hmem
      · rwa [List.mem_singleton.mp hmem]
    exact ⟨components_of_unique hrel hzero hbase (hp'.unique hd' ht' hl),
      (hfits (pathString_append_head names name)).1, hfitsEntry⟩
  · rintro ⟨hall, hlen, hfitsEntry⟩
    obtain ⟨hne, hslash⟩ := hall name (List.mem_append_right _ (List.mem_singleton_self name))
    obtain ⟨hself, htokens⟩ := split_path (pathString_head names) hslash
    rw [tokens_pathString, flatMap_tokens fun name' hmem =>
      hall name' (List.mem_append_left _ hmem)] at htokens
    obtain ⟨q, hnamed, -, hsector⟩ := hb.bound hfitsEntry
    refine ⟨fun _ => ⟨hlen, by rwa [htokens]⟩, by rwa [hself], c, q, ?_, by rwa [hself], hsector⟩
    rw [htokens]
    exact hp'.leads

end Created

/-- **A file created with a relative name is found at its absolute path** exactly if the names of
the path go in and out of it, the path is shorter than its buffer, and the directory has space for
the entry. -/
theorem create_foundAt_iff {disk : ℕ → Sector} (hf : Formatted disk) :
    ∃ w₀, World.boot disk = some w₀ ∧ ∀ calls w, Session World.Typed w₀ calls w →
      (∃ names, PathTo w.sys.disk names w.current) ∧
      ∀ names, PathTo w.sys.disk names w.current → names.length ≤ 8 →
      ∀ isDirectory name, (0 : UInt8) ∉ name → name.head? ≠ some slash →
        w.TypedKind isDirectory name →
        (∃ r s', (FileSystem.createKind isDirectory name).run System.act w.sys = some (r, s')) ∧
        ∀ s', (FileSystem.createKind isDirectory name).run System.act w.sys = some (true, s') →
          ∃ sector, (mapAt w.sys.disk).find = some (sector, (mapAt w.sys.disk).mark sector) ∧
            (FoundAt s' (pathString names ++ slash :: name) sector ↔
              (∀ name' ∈ names ++ [name], Component name') ∧
              (pathString names ++ slash :: name).length < filePathMaxLen ∧
              CreateFitsEntry w.sys.disk w.current w.sys.directorySize
                (sectorsOfKind isDirectory)) := by
  obtain ⟨w₀, handles, rest, hboot, -⟩ := hf.live
  refine ⟨w₀, hboot, fun calls w hs => ⟨?_,
    fun names hp hlevel isDirectory name hstring hrel htyped => ?_⟩⟩
  · obtain ⟨V, rest, hi⟩ := hf.idle hboot hs
    obtain ⟨chain, t, ha⟩ := hi.dir
    exact (hi.reached _ _ ha.file).exists_path hi.ready.disk hi.ready.tree hi.kind
  · obtain ⟨V, rest, hi⟩ := hf.idle hboot hs
    obtain ⟨hcomes, hcreated⟩ := hi.created htyped
    refine ⟨hcomes fun habs => absurd habs hrel, fun s' hrun => ?_⟩
    obtain ⟨V', c', hc⟩ := hcreated true s' hrun
    exact hc.foundAt_iff hi hrel hstring hp (Nat.lt_of_le_of_lt hlevel (by decide))

/-- Two files are created; a third is found at `/c`. -/
theorem create_foundAt_iff_blank : Formatted blankDisk ∧ ∃ w₀ w s' sector,
    World.boot blankDisk = some w₀ ∧ Session World.Typed w₀ (crowd 2) w ∧
    PathTo w.sys.disk [] w.current ∧
    (FileSystem.createKind false (letter 2)).run System.act w.sys = some (true, s') ∧
    (mapAt w.sys.disk).find = some (sector, (mapAt w.sys.disk).mark sector) ∧
    FoundAt s' (slash :: letter 2) sector := by
  obtain ⟨w₀, w, V, rest, hboot, hcrowd, h, -⟩ := crowded (k := 2) (by decide)
  have hs : Session World.Typed w₀ (crowd 2) w := Run.mono (fun _ _ _ hg => hg.2.1) hcrowd
  have hi := h.live.idle
  have hrel := letter_head 2 (by decide)
  have hroot : PathTo w.sys.disk [] w.current := by
    rw [hi.current_eq]
    exact .root
  obtain ⟨w₁, hboot', hfound⟩ := create_foundAt_iff blankDisk_formatted
  obtain rfl := Option.some.inj (hboot.symm.trans hboot')
  obtain ⟨-, hiff⟩ := (hfound _ w hs).2 [] hroot (by decide) false (letter 2) (by decide) hrel
    fun _ => h.heap ▸ createTyped_zero
  obtain ⟨t, hfile, -⟩ := h.live.small_root (by rw [h.size]; decide)
  have hat := createAt_letter (show 2 < 26 by decide) w.sys.disk directorySector w.sys.directorySize
  obtain ⟨r, s', hrun, V', c', hc⟩ := hi.createWith (storeFile_ok _)
    (show CreateFits (letter 2) from fun habs => absurd habs hrel)
    fun _ => h.heap ▸ createTyped_zero
  obtain rfl : r = true := by
    refine hc.result.mpr ⟨_, _, _, hat, ?_, ?_⟩
    · rw [hi.ready.disk.tableAt_eq hfile]
      exact h.find_none (by decide) hfile
    · rw [h.free]
      decide
  obtain ⟨sector, hsector, hfoundAt⟩ := hiff s' hrun
  refine ⟨blankDisk_formatted, w₀, w, s', sector, hboot, hs, hroot, hrun, hsector,
    hfoundAt.mpr ⟨?_, by decide, ?_⟩⟩
  · intro name hname
    obtain rfl := List.mem_singleton.mp hname
    exact ⟨by decide, by decide⟩
  · rw [hi.current_eq]
    exact h.fits (by decide)

/-- In the root of the blank volume, a file with the name `a/b` is created, and so is one without a
name. -/
theorem create_not_foundAt : Formatted blankDisk ∧ ∃ w₀, World.boot blankDisk = some w₀ ∧
    PathTo w₀.sys.disk [] w₀.current ∧ ∀ name ∈ [[97, slash, 98], []], ∃ s' sector,
      (FileSystem.create name).run System.act w₀.sys = some (true, s') ∧
      (mapAt w₀.sys.disk).find = some (sector, (mapAt w₀.sys.disk).mark sector) ∧
      ¬ FoundAt s' (slash :: name) sector := by
  obtain ⟨w₀, handles, rest, hboot, hl, hdisk, hten⟩ := blankDisk_formatted.live
  have hi := hl.idle
  have hpath : PathTo w₀.sys.disk [] directorySector := .root
  refine ⟨blankDisk_formatted, w₀, hboot, hi.current_eq.symm ▸ hpath, fun name hname => ?_⟩
  have hspace : 0 < (mapAt w₀.sys.disk).countClear := by
    rw [hdisk, blankDisk_free]
    decide
  have hrel : name.head? ≠ some slash := by
    revert name
    decide
  have hstring : (0 : UInt8) ∉ name := by
    revert name
    decide
  have hbad : ¬ (name ≠ [] ∧ slash ∉ name) := by
    revert name
    decide
  obtain ⟨-, hnew, -⟩ := hl.blank_root hten name
  obtain ⟨r, s', hrun, V', c', hc⟩ := hi.createWith (storeFile_ok _) (fun habs => absurd habs hrel)
    fun _ => World.boot_heap hboot ▸ createTyped_zero
  obtain rfl : r = true := by
    refine hc.result.mpr ⟨directorySector, w₀.sys.directorySize, name, ?_, hnew, hspace⟩
    rw [createAt, if_neg hrel]
  obtain ⟨sector, hsector, hiff⟩ := hc.foundAt_iff hi hrel hstring hpath (by decide)
  exact ⟨s', sector, hrun, hsector, fun hfound =>
    hbad ((hiff.mp hfound).1 name (List.mem_append_right _ (List.mem_singleton_self name)))⟩

end PaldOs
