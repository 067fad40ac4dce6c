import PaldOs.Operations

/-! # The buffers of a path

`Create` and `CreateDir` copy an absolute path into `nameCopy` and cut it at its last slash;
`ChangeDir` copies it without its first character, and splits the copy into names, which it keeps
in `splittedName`.  `nameCopy` has `FILE_PATH_MAX_LEN` bytes and `splittedName` has
`MAX_DIR_LEVEL` elements.

`strtok_r` puts a null byte behind every token.  The loop that splits the path stores what
`strtok_r` returns at the end too, so there is one element more than there are names.
-/
namespace PaldOs

namespace PathBuffers

/-! ## Copying and splitting -/

/-- What is written into the two buffers: indices of `nameCopy`, and elements of `splittedName`
with their indices. -/
structure Writes where
  nameCopy : List ℕ
  splittedName : List (ℕ × Option (List UInt8))

/-- `sprintf` with the format `%s`: the string and a null byte. -/
def sprintf (s : List UInt8) : List ℕ := List.range (s.length + 1)

/-- What `strtok_r` finds: the token, where it puts a null byte, and what is left, which starts at
index `next`. -/
structure Token where
  name : List UInt8
  cut : Option ℕ
  rest : List UInt8
  next : ℕ

/-- `strtok_r` with the delimiter `"/"`, on a string that starts at index `i`. -/
def strtok (i : ℕ) (s : List UInt8) : Option Token :=
  let start := i + (s.takeWhile (· == slash)).length
  let s := s.dropWhile (· == slash)
  if s = [] then none
  else
    let name := s.takeWhile (· != slash)
    match s.dropWhile (· != slash) with
    | [] => some ⟨name, none, [], start + name.length⟩
    | _ :: rest => some ⟨name, some (start + name.length), rest, start + name.length + 1⟩

/-- The loop of `ChangeDir` that splits the path, with the last token and the number of elements
there are. -/
def splitLoop : ℕ → Option Token → ℕ → Writes
  | fuel + 1, some t, count =>
      let token := strtok t.next t.rest
      let w := splitLoop fuel token (count + 1)
      ⟨(token.bind Token.cut).toList ++ w.nameCopy, (count, token.map Token.name) :: w.splittedName⟩
  | _, _, _ => ⟨[], []⟩

/-- `ChangeDir`.  A round of the loop takes at least one character. -/
def changeDir (name : List UInt8) : Writes :=
  if name.head? = some slash then
    let path := name.tail
    let token := strtok 0 path
    let w := splitLoop path.length token 1
    ⟨sprintf path ++ (token.bind Token.cut).toList ++ w.nameCopy,
      (0, token.map Token.name) :: w.splittedName⟩
  else ⟨[], []⟩

/-- `Create` and `CreateDir`.  The directory they change to is given by what is left in front of
the last slash. -/
def create (name : List UInt8) : Writes :=
  if name.head? = some slash then
    if name.tail = [] then ⟨[], []⟩
    else
      let w := changeDir (parentPath name)
      ⟨sprintf name ++ [lastSlashFound name] ++ w.nameCopy, w.splittedName⟩
  else ⟨[], []⟩

/-- The functions that copy a path. -/
inductive Copier where
  | create
  | createDir
  | changeDir

/-- What the function writes. -/
def writes : Copier → List UInt8 → Writes
  | .create, name => create name
  | .createDir, name => create name
  | .changeDir, name => changeDir name

/-- **The buffers are not overrun.** -/
def Within (w : Writes) : Prop :=
  (∀ i ∈ w.nameCopy, i < filePathMaxLen) ∧ ∀ e ∈ w.splittedName, e.1 < maxDirLevel

/-- The system call reads the path: a null byte comes within `FILE_PATH_MAX_LEN + 1` bytes. -/
def Accepted (path : List UInt8) : Prop := path.length ≤ filePathMaxLen ∧ ∀ b ∈ path, b ≠ 0

/-- **The path is short enough**: a path to create is shorter than the buffer, and there is room
behind the names. -/
def Fits : Copier → List UInt8 → Prop
  | .create, path | .createDir, path => path.head? = some slash → path.tail ≠ [] →
      path.length < filePathMaxLen ∧ (tokens (parentPath path).tail).length < maxDirLevel
  | .changeDir, path => path.head? = some slash → (tokens path.tail).length < maxDirLevel

/-! ## The names of a path -/

section Split
variable {s : List UInt8} {i : ℕ}

theorem tokens_slash (s : List UInt8) : tokens (slash :: s) = tokens s := by
  rw [tokens, List.splitOn_cons_eq_if_modifyHead, if_pos (by decide),
    List.filter_cons_of_neg (by decide)]
  rfl

theorem tokens_dropWhile (s : List UInt8) : tokens (s.dropWhile (· == slash)) = tokens s := by
  induction s with
  | nil => rfl
  | cons b s ih =>
    by_cases hb : b = slash
    · subst hb
      rw [List.dropWhile_cons_of_pos (by decide), ih, tokens_slash]
    · rw [List.dropWhile_cons_of_neg (by simpa using hb)]

/-- The name in front of a slash, or of the end. -/
theorem tokens_name {name : List UInt8} (hne : name ≠ []) (hname : slash ∉ name)
    (rest : List UInt8) :
    tokens name = [name] ∧ tokens (name ++ slash :: rest) = name :: tokens rest := by
  have hempty : (!name.isEmpty) = true := by simpa using hne
  constructor
  · rw [tokens, List.splitOn_eq_singleton hname, List.filter_cons, if_pos hempty, List.filter_nil]
  · rw [tokens, List.splitOn_append_cons_self_of_not_mem hname, List.filter_cons, if_pos hempty]
    rfl

theorem slash_not_mem_takeWhile (s : List UInt8) : slash ∉ s.takeWhile (· != slash) := by
  intro hmem
  have hall := List.all_takeWhile (p := (· != slash)) (l := s)
  have := List.all_eq_true.mp hall slash hmem
  simp at this

/-- **One call of `strtok_r`**: it takes the first name, if there is one. -/
theorem strtok_spec (i : ℕ) (s : List UInt8) :
    strtok i s = none ∧ tokens s = [] ∨
    ∃ t, strtok i s = some t ∧ tokens s = t.name :: tokens t.rest ∧ t.rest.length < s.length ∧
      t.next + t.rest.length = i + s.length ∧ ∀ c ∈ t.cut, c < i + s.length := by
  have hsplit := congrArg List.length (List.takeWhile_append_dropWhile (p := (· == slash)) (l := s))
  rw [List.length_append] at hsplit
  unfold strtok
  dsimp only
  rw [← tokens_dropWhile s]
  cases hd : s.dropWhile (· == slash) with
  | nil => exact Or.inl ⟨rfl, rfl⟩
  | cons b l =>
    rw [hd] at hsplit
    have hb : (b != slash) = true := by
      have hhead := List.head?_dropWhile_not (· == slash) s
      rw [hd] at hhead
      simpa using hhead
    right
    have hne : (b :: l).takeWhile (· != slash) ≠ [] := by
      rw [List.takeWhile_cons, if_pos hb]
      exact List.cons_ne_nil _ _
    have hnot := slash_not_mem_takeWhile (b :: l)
    have happ := List.takeWhile_append_dropWhile (p := (· != slash)) (l := b :: l)
    have hlen := congrArg List.length happ
    rw [List.length_append] at hlen
    have hpos := List.length_pos_of_ne_nil hne
    cases hr : (b :: l).dropWhile (· != slash) with
    | nil =>
      rw [hr, List.append_nil] at happ
      rw [hr, List.length_nil] at hlen
      have hname := (tokens_name hne hnot []).1
      rw [if_neg (List.cons_ne_nil b l)]
      refine ⟨_, rfl, ?_, ?_, ?_, ?_⟩
      · rw [happ] at hname
        rw [happ, hname]
        rfl
      · rw [List.length_nil]
        omega
      · dsimp only
        rw [List.length_nil]
        omega
      · intro c hc
        cases hc
    | cons d rest =>
      have hd' : d = slash := by
        have hhead := List.head?_dropWhile_not (· != slash) (b :: l)
        rw [hr] at hhead
        simpa using hhead
      rw [hr, hd'] at happ
      rw [hr, List.length_cons] at hlen
      rw [if_neg (List.cons_ne_nil b l)]
      refine ⟨_, rfl, ?_, ?_, ?_, ?_⟩
      · rw [← (tokens_name hne hnot rest).2, happ]
      · dsimp only
        omega
      · dsimp only
        omega
      · intro c hc
        rw [Option.mem_some_iff] at hc
        omega

/-- **The loop that splits the path.**  It stores the names that are left, and what `strtok_r`
returns at the end. -/
theorem splitLoop_spec (fuel : ℕ) : ∀ (t : Token) (count : ℕ), t.rest.length < fuel →
    (splitLoop fuel (some t) count).splittedName.map Prod.snd = (tokens t.rest).map some ++ [none] ∧
    (splitLoop fuel (some t) count).splittedName.map Prod.fst =
      List.range' count ((tokens t.rest).length + 1) ∧
    ∀ i ∈ (splitLoop fuel (some t) count).nameCopy, i < t.next + t.rest.length := by
  induction fuel with
  | zero =>
    intro t count hlt
    exact absurd hlt (Nat.not_lt_zero _)
  | succ fuel ih =>
    intro t count hlt
    unfold splitLoop
    dsimp only
    rcases strtok_spec t.next t.rest with ⟨hnone, hnil⟩ | ⟨t', hsome, hcons, hless, hnext, hcut⟩
    · have hend : splitLoop fuel none (count + 1) = ⟨[], []⟩ := by cases fuel <;> rfl
      rw [hnone, hnil, hend]
      refine ⟨rfl, rfl, ?_⟩
      intro i hi
      cases hi
    · obtain ⟨hnames, hindices, hcuts⟩ := ih t' (count + 1) (by omega)
      rw [hsome, hcons]
      refine ⟨?_, ?_, ?_⟩
      · rw [List.map_cons, hnames]
        rfl
      · rw [List.map_cons, hindices, List.length_cons,
          List.range'_succ (n := (tokens t'.rest).length + 1)]
      · intro i hi
        rcases List.mem_append.mp hi with hi | hi
        · exact hcut i (Option.mem_toList.mp hi)
        · have := hcuts i hi
          omega

/-- **`ChangeDir` with an absolute path**: the names of the path are stored, and one element
more. -/
theorem changeDir_spec {name : List UInt8} (habs : name.head? = some slash) :
    (changeDir name).splittedName.map Prod.snd = (tokens name.tail).map some ++ [none] ∧
    (changeDir name).splittedName.map Prod.fst = List.range ((tokens name.tail).length + 1) ∧
    (∀ i, i ∈ (changeDir name).nameCopy ↔ i < name.length) := by
  obtain ⟨path, rfl⟩ : ∃ path, name = slash :: path := by
    cases name with
    | nil => cases habs
    | cons b path => exact ⟨path, by rw [Option.some.inj habs]⟩
  unfold changeDir
  rw [if_pos habs, List.tail_cons]
  dsimp only
  have hcopy : ∀ i, i ∈ sprintf path ↔ i < path.length + 1 := fun i => List.mem_range
  rcases strtok_spec 0 path with ⟨hnone, hnil⟩ | ⟨t, hsome, hcons, hless, hnext, hcut⟩
  · have hend : splitLoop path.length none 1 = ⟨[], []⟩ := by cases path.length <;> rfl
    rw [hnone, hnil, hend]
    refine ⟨rfl, rfl, fun i => ?_⟩
    rw [List.length_cons]
    simpa using hcopy i
  · obtain ⟨hnames, hindices, hcuts⟩ := splitLoop_spec path.length t 1 hless
    rw [hsome, hcons]
    refine ⟨?_, ?_, fun i => ?_⟩
    · rw [List.map_cons, hnames]
      rfl
    · rw [List.map_cons, hindices, List.length_cons, List.range_eq_range',
        List.range'_succ (s := 0)]
    · rw [List.length_cons, List.mem_append, List.mem_append, hcopy]
      constructor
      · rintro ((hi | hi) | hi)
        · exact hi
        · have := hcut i (Option.mem_toList.mp hi)
          omega
        · have := hcuts i hi
          omega
      · intro hi
        exact Or.inl (Or.inl hi)

theorem changeDir_relative {name : List UInt8} (hrel : name.head? ≠ some slash) :
    changeDir name = ⟨[], []⟩ := by
  unfold changeDir
  rw [if_neg hrel]

/-- The elements are within `splittedName` if there is room behind the names. -/
theorem changeDir_elements {name : List UInt8} (habs : name.head? = some slash) :
    (∀ e ∈ (changeDir name).splittedName, e.1 < maxDirLevel) ↔
      (tokens name.tail).length < maxDirLevel := by
  obtain ⟨-, hindices, -⟩ := changeDir_spec habs
  have hmem : ∀ i, (∃ e ∈ (changeDir name).splittedName, e.1 = i) ↔
      i < (tokens name.tail).length + 1 := by
    intro i
    rw [← List.mem_range, ← hindices, List.mem_map]
  constructor
  · intro hall
    obtain ⟨e, he, hlast⟩ := (hmem (tokens name.tail).length).mpr (Nat.lt_succ_self _)
    rw [← hlast]
    exact hall e he
  · intro hlt e he
    have := (hmem e.1).mp ⟨e, he, rfl⟩
    omega

end Split

/-! ## Paths that fit -/

theorem lastSlashFound_lt {name : List UInt8} (hne : name ≠ []) :
    lastSlashFound name < name.length := by
  have := List.length_pos_of_ne_nil hne
  unfold lastSlashFound
  omega

theorem create_within_iff {name : List UInt8} (habs : name.head? = some slash)
    (htail : name.tail ≠ []) : Within (create name) ↔
      name.length < filePathMaxLen ∧ (tokens (parentPath name).tail).length < maxDirLevel := by
  have hne : name ≠ [] := by
    rintro rfl
    cases habs
  have hslash := lastSlashFound_lt hne
  have hparent : (parentPath name).length ≤ name.length := by
    unfold parentPath
    split
    · exact List.length_pos_of_ne_nil hne
    · rw [List.length_take]
      omega
  have helements := changeDir_elements (parentPath_head habs)
  obtain ⟨-, -, hcopy⟩ := changeDir_spec (parentPath_head habs)
  have hwrites : create name = ⟨sprintf name ++ [lastSlashFound name] ++
      (changeDir (parentPath name)).nameCopy, (changeDir (parentPath name)).splittedName⟩ := by
    unfold create
    rw [if_pos habs, if_neg htail]
  rw [hwrites, Within, helements]
  refine and_congr_left fun _ => ⟨fun hall => ?_, fun hlt i hi => ?_⟩
  · apply hall
    exact List.mem_append_left _ (List.mem_append_left _ (List.mem_range.mpr (Nat.lt_succ_self _)))
  · rcases List.mem_append.mp hi with hi | hi
    · rcases List.mem_append.mp hi with hi | hi
      · have := List.mem_range.mp hi
        omega
      · rw [List.mem_singleton.mp hi]
        omega
    · have := (hcopy i).mp hi
      omega

theorem create_within {name : List UInt8} (h : ¬ (name.head? = some slash ∧ name.tail ≠ [])) :
    Within (create name) := by
  have hnothing : create name = ⟨[], []⟩ := by
    unfold create
    by_cases habs : name.head? = some slash
    · have htail : name.tail = [] := by
        by_contra htail
        exact h ⟨habs, htail⟩
      rw [if_pos habs, if_pos htail]
    · rw [if_neg habs]
  rw [hnothing]
  exact ⟨fun _ hi => absurd hi List.not_mem_nil, fun _ he => absurd he List.not_mem_nil⟩

/-- The paths that `FileSystem.changeDir` goes on with are those that overrun no buffer. -/
theorem pathFits_iff (name : List UInt8) : PathFits name ↔ Within (changeDir name) := by
  by_cases habs : name.head? = some slash
  · obtain ⟨-, -, hcopy⟩ := changeDir_spec habs
    have hlength : name.tail.length + 1 = name.length := by
      cases name with
      | nil => cases habs
      | cons b path => rfl
    rw [Within, changeDir_elements habs]
    constructor
    · intro hfits
      obtain ⟨hlt, hnames⟩ := hfits habs
      refine ⟨fun i hi => ?_, hnames⟩
      have := (hcopy i).mp hi
      omega
    · rintro ⟨hall, hnames⟩ _
      have := hall name.tail.length ((hcopy _).mpr (by omega))
      exact ⟨this, hnames⟩
  · rw [changeDir_relative habs]
    exact iff_of_true (fun h => absurd h habs)
      ⟨fun _ hi => absurd hi List.not_mem_nil, fun _ he => absurd he List.not_mem_nil⟩

/-- The paths that `FileSystem.create` and `FileSystem.createDir` go on with are those that overrun
no buffer. -/
theorem createFits_iff (name : List UInt8) : CreateFits name ↔ Within (create name) := by
  by_cases hpath : name.head? = some slash ∧ name.tail ≠ []
  · rw [create_within_iff hpath.1 hpath.2]
    exact ⟨fun hfits => hfits hpath.1, fun hfits _ => hfits⟩
  · refine iff_of_true (fun habs => ?_) (create_within hpath)
    have htail : name.tail = [] := by
      by_contra htail
      exact hpath ⟨habs, htail⟩
    obtain rfl : name = [slash] := by
      cases name with
      | nil => cases habs
      | cons b path => rw [Option.some.inj habs, show path = [] from htail]
    exact ⟨by decide, by decide⟩

/-- **The buffers are not overrun exactly if the path is short enough**, for a path that a system
call reads. -/
theorem writes_within_iff (c : Copier) (path : List UInt8) (h : Accepted path) :
    Within (writes c path) ↔ Fits c path := by
  have hcreate : Within (create path) ↔ (path.head? = some slash → path.tail ≠ [] →
      path.length < filePathMaxLen ∧ (tokens (parentPath path).tail).length < maxDirLevel) := by
    by_cases hpath : path.head? = some slash ∧ path.tail ≠ []
    · rw [create_within_iff hpath.1 hpath.2]
      exact ⟨fun hfits _ _ => hfits, fun hfits => hfits hpath.1 hpath.2⟩
    · exact iff_of_true (create_within hpath) fun habs htail => absurd ⟨habs, htail⟩ hpath
  cases c with
  | create => exact hcreate
  | createDir => exact hcreate
  | changeDir =>
    by_cases habs : path.head? = some slash
    · obtain ⟨-, -, hcopy⟩ := changeDir_spec habs
      have hlen := h.1
      show (_ ∧ _) ↔ _
      rw [writes, changeDir_elements habs]
      constructor
      · rintro ⟨-, hlt⟩ _
        exact hlt
      · intro hlt
        refine ⟨fun i hi => ?_, hlt habs⟩
        have := (hcopy i).mp hi
        omega
    · refine iff_of_true ?_ fun h => absurd h habs
      rw [writes, changeDir_relative habs]
      exact ⟨fun _ hi => absurd hi List.not_mem_nil, fun _ he => absurd he List.not_mem_nil⟩

/-- The path `/a/a/...` of `n` names. -/
def namesPath (n : ℕ) : List UInt8 := (List.replicate n [slash, 97]).flatten

theorem accepted_namesPath {n : ℕ} (hn : 2 * n ≤ filePathMaxLen) : Accepted (namesPath n) := by
  refine ⟨?_, fun b hb => ?_⟩
  · rw [namesPath, List.length_flatten, List.map_replicate, List.sum_replicate_nat]
    exact (Nat.mul_comm n 2).trans_le hn
  · obtain ⟨l, hl, hb⟩ := List.mem_flatten.mp hb
    rw [List.eq_of_mem_replicate hl, List.mem_cons, List.mem_singleton] at hb
    rcases hb with rfl | rfl
    · decide
    · decide

/-- A path of three names fits, one of ten does not. -/
theorem writes_within_iff_names :
    (Accepted (namesPath 3) ∧ (Within (writes .create (namesPath 3)) ↔ Fits .create (namesPath 3)) ∧
      Within (writes .create (namesPath 3))) ∧
    Accepted (namesPath 10) ∧
      (Within (writes .changeDir (namesPath 10)) ↔ Fits .changeDir (namesPath 10)) ∧
      ¬ Within (writes .changeDir (namesPath 10)) := by
  have hthree := accepted_namesPath (show 2 * 3 ≤ filePathMaxLen by decide)
  have hten := accepted_namesPath (show 2 * 10 ≤ filePathMaxLen by decide)
  have hcreate := writes_within_iff .create (namesPath 3) hthree
  have hchange := writes_within_iff .changeDir (namesPath 10) hten
  refine ⟨⟨hthree, hcreate, hcreate.mpr fun _ _ => by decide⟩, hten, hchange, fun hwithin => ?_⟩
  have hfits := hchange.mp hwithin (by decide)
  exact absurd hfits (by decide)

/-- A path of `FILE_PATH_MAX_LEN` bytes is accepted, and its null byte is written behind `nameCopy`;
a path with ten names makes `ChangeDir` write behind `splittedName`. -/
theorem path_overruns :
    (∃ path, Accepted path ∧ ¬ Within (writes .create path)) ∧
    ∃ path, Accepted path ∧ ¬ Within (writes .changeDir path) := by
  constructor
  · refine ⟨slash :: List.replicate 199 97, ⟨?_, ?_⟩, fun hwithin => ?_⟩
    · rw [List.length_cons, List.length_replicate]
      decide
    · intro b hb
      rcases List.mem_cons.mp hb with rfl | hb
      · decide
      · rw [List.eq_of_mem_replicate hb]
        decide
    · have hfits := (create_within_iff rfl (by decide)).mp hwithin
      rw [List.length_cons, List.length_replicate] at hfits
      exact absurd hfits.1 (by decide)
  · refine ⟨namesPath 10, accepted_namesPath (by decide), fun hwithin => ?_⟩
    have hfits := (changeDir_elements (by decide)).mp hwithin.2
    exact absurd hfits (by decide)

end PathBuffers
end PaldOs
