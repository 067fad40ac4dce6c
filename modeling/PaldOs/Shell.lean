import Mathlib.Data.List.TakeWhile
import PaldOs.Bytes

/-! # The arguments of a command line

`PrepareArguments` of the shell cuts the line it has read: the first space of each group of spaces
becomes a null byte, and `argv` gets the address of what follows the group.  The buffer is used
again for the next line, so there may be anything after the null byte of a line.

The loop goes on one byte after the place where the spaces ended.  If they ended at the null byte
of the line, this is outside the line: the loop cuts what earlier lines have left, and takes it
for arguments.
-/
namespace PaldOs
namespace Shell

/-- `MAX_ARG_COUNT`. -/
def maxArgCount : ℕ := 32

/-- `ARG_SEPARATOR`. -/
def argSeparator : UInt8 := 32

/-- The line, what was stored in `argv` and the result.  A pointer into the line is an index. -/
structure Prepared where
  line : List UInt8
  argv : List (Option ℕ)
  result : ℕ
deriving DecidableEq, Repr

/-- `while(line[++i] == ARG_SEPARATOR);`, from the next `i` on.  It fails at the end of the
buffer. -/
def skipSeparators (line : List UInt8) : ℕ → ℕ → Option ℕ
  | 0, _ => none
  | fuel + 1, i => do
      let c ← (line)[i]?
      if c = argSeparator then skipSeparators line fuel (i + 1) else return i

/-- `argv[argCount] = p`.  It fails outside the array. -/
def store (argvSize : ℕ) (argv : List (Option ℕ)) (p : Option ℕ) : Option (List (Option ℕ)) :=
  if argv.length < argvSize then some (argv ++ [p]) else none

/-- `argvSize - 1`, of unsigned numbers. -/
def lastIndex (argvSize : ℕ) : ℕ := (argvSize + 2 ^ 32 - 1) % 2 ^ 32

theorem lastIndex_of_pos {argvSize : ℕ} (hpos : 0 < argvSize) (hsize : argvSize ≤ maxArgCount) :
    lastIndex argvSize = argvSize - 1 := by
  rw [lastIndex, maxArgCount] at *
  omega

/-- The loop of `PrepareArguments`, from index `i` on.  `argCount` is the length of `argv`. -/
def scan (argvSize : ℕ) : ℕ → List UInt8 → ℕ → List (Option ℕ) → Option Prepared
  | 0, _, _, _ => none
  | fuel + 1, line, i, argv => do
      let c ← (line)[i]?
      if c = 0 then
        let argv ← store argvSize argv none
        return ⟨line, argv, 0⟩
      else if c = argSeparator then
        if argv.length = lastIndex argvSize then return ⟨line, argv, 1⟩
        else
          let line := line.set i 0
          let j ← skipSeparators line (line.length + 1) (i + 1)
          let d ← (line)[j]?
          let argv ← if d ≠ 0 then store argvSize argv (some j) else some argv
          scan argvSize fuel line (j + 1) argv
      else scan argvSize fuel line (i + 1) argv

/-- `PrepareArguments`. -/
def prepareArguments (line : List UInt8) (argvSize : ℕ) : Option Prepared :=
  if maxArgCount < argvSize then some ⟨line, [], 1⟩
  else scan argvSize (line.length + 1) line 0 []

/-! ## What there should be -/

/-- The maximal runs of characters that are no spaces. -/
def words (s : List UInt8) : List (List UInt8) :=
  (s.splitOn argSeparator).filter (fun word => !word.isEmpty)

/-- **The arguments of a line**: what follows its first space, in words. -/
def arguments (typed : List UInt8) : List (List UInt8) :=
  words (typed.dropWhile (· != argSeparator))

/-- The string at index `i`. -/
def stringAt (line : List UInt8) (i : ℕ) : List UInt8 := (line.drop i).takeWhile (· != 0)

/-- **Only the line matters.**  Whatever comes after the null byte of the line, the result and
`argv` are the same, nothing is written there, the command ends at the first space, and `argv` has
the arguments and a null pointer if the result is 0. -/
def SplitsLine (typed : List UInt8) (argvSize : ℕ) : Prop :=
  ∃ argv result, ∀ rest, ∃ typed',
    prepareArguments (typed ++ 0 :: rest) argvSize = some ⟨typed' ++ 0 :: rest, argv, result⟩ ∧
    typed'.length = typed.length ∧
    stringAt (typed' ++ 0 :: rest) 0 = typed.takeWhile (· != argSeparator) ∧
    (result = 0 → argv.map (Option.map (stringAt (typed' ++ 0 :: rest))) =
      (arguments typed).map some ++ [none])

/-! ## Words -/

theorem takeWhile_bne_of_not_mem {c : UInt8} {s : List UInt8} (hc : c ∉ s) :
    s.takeWhile (· != c) = s := by
  refine List.takeWhile_eq_self_iff.mpr fun b hb => bne_iff_ne.mpr ?_
  rintro rfl
  exact hc hb

theorem takeWhile_bne_append {c : UInt8} {s : List UInt8} (hc : c ∉ s) (t : List UInt8) :
    (s ++ c :: t).takeWhile (· != c) = s := by
  rw [List.takeWhile_append, takeWhile_bne_of_not_mem hc, if_pos rfl,
    List.takeWhile_cons_of_neg (by simp), List.append_nil]

theorem words_separator (s : List UInt8) : words (argSeparator :: s) = words s := by
  rw [words, List.splitOn_cons_eq_if_modifyHead, if_pos (by decide),
    List.filter_cons_of_neg (by decide)]
  rfl

theorem words_separators (gap s : List UInt8) (hgap : ∀ c ∈ gap, c = argSeparator) :
    words (gap ++ s) = words s := by
  induction gap with
  | nil => rfl
  | cons c gap ih =>
    rw [List.cons_append, hgap c List.mem_cons_self, words_separator]
    exact ih fun c hc => hgap c (List.mem_cons_of_mem _ hc)

theorem words_word {word : List UInt8} (hne : word ≠ []) (hword : argSeparator ∉ word) :
    words word = [word] ∧ ∀ s, words (word ++ argSeparator :: s) = word :: words s := by
  have hempty : (!word.isEmpty) = true := by simpa using hne
  constructor
  · rw [words, List.splitOn_eq_singleton hword, List.filter_cons, if_pos hempty, List.filter_nil]
  · intro s
    rw [words, List.splitOn_append_cons_self_of_not_mem hword, List.filter_cons, if_pos hempty]
    rfl

theorem dropWhile_word {word s : List UInt8} (hword : argSeparator ∉ word) :
    (word ++ s).dropWhile (· != argSeparator) = s.dropWhile (· != argSeparator) := by
  refine List.dropWhile_append_of_pos fun c hc => bne_iff_ne.mpr ?_
  rintro rfl
  exact hword hc

theorem arguments_word {word : List UInt8} (hword : argSeparator ∉ word) : arguments word = [] := by
  rw [arguments, ← List.append_nil word, dropWhile_word hword]
  rfl

/-- The arguments are the words after the first group of spaces. -/
theorem arguments_gap {word gap s : List UInt8} (hword : argSeparator ∉ word)
    (hgap : ∀ c ∈ gap, c = argSeparator) :
    arguments (word ++ argSeparator :: (gap ++ s)) = words s := by
  rw [arguments, dropWhile_word hword, List.dropWhile_cons_of_neg (by decide), words_separator,
    words_separators gap s hgap]

/-- The first argument, and the rest. -/
theorem words_cons {c : UInt8} (hc : c ≠ argSeparator) (s : List UInt8) :
    words (c :: s) = (c :: s.takeWhile (· != argSeparator)) :: arguments s := by
  by_cases hmem : argSeparator ∈ s
  · obtain ⟨word, tail, rfl, hword⟩ := List.eq_append_cons_of_mem hmem
    have hc' : argSeparator ∉ c :: word := by simp [hword, Ne.symm hc]
    rw [← List.cons_append, (words_word (List.cons_ne_nil _ _) hc').2,
      takeWhile_bne_append hword, ← List.nil_append tail, arguments_gap hword (by simp),
      List.nil_append]
  · have hc' : argSeparator ∉ c :: s := by simp [hmem, Ne.symm hc]
    rw [(words_word (List.cons_ne_nil _ _) hc').1, arguments_word hmem,
      takeWhile_bne_of_not_mem hmem]

/-! ## Steps of the loop -/

section Steps

variable {argvSize : ℕ} {argv : List (Option ℕ)}

theorem skipSeparators_gap (pre gap tail : List UInt8) {d : UInt8} (hd : d ≠ argSeparator)
    (hgap : ∀ c ∈ gap, c = argSeparator) {fuel : ℕ} (hfuel : gap.length < fuel) :
    skipSeparators (pre ++ (gap ++ d :: tail)) fuel pre.length =
      some (pre.length + gap.length) := by
  induction gap generalizing pre fuel with
  | nil =>
    obtain ⟨fuel, rfl⟩ := Nat.exists_eq_add_of_lt hfuel
    simp [skipSeparators, hd]
  | cons c gap ih =>
    rw [List.length_cons] at hfuel
    obtain ⟨fuel, rfl⟩ : ∃ m, fuel = m + 1 := ⟨fuel - 1, by omega⟩
    have hc : c = argSeparator := hgap c List.mem_cons_self
    have hnext := ih (pre ++ [c]) (fun c hc => hgap c (List.mem_cons_of_mem _ hc))
      (Nat.lt_of_succ_lt_succ hfuel)
    rw [List.append_assoc, List.length_append, List.length_singleton, Nat.add_assoc,
      Nat.add_comm 1] at hnext
    rw [skipSeparators, List.cons_append, List.getElem?_append_right (Nat.le_refl _), Nat.sub_self,
      List.getElem?_cons_zero]
    exact (if_pos hc).trans hnext

/-- A character of a word is passed over. -/
theorem scan_char (pre tail : List UInt8) {c : UInt8} (hzero : c ≠ 0) (hsep : c ≠ argSeparator)
    (fuel : ℕ) :
    scan argvSize (fuel + 1) (pre ++ c :: tail) pre.length argv =
      scan argvSize fuel (pre ++ c :: tail) (pre.length + 1) argv := by
  simp [scan, hzero, hsep]

theorem scan_word (pre word tail : List UInt8) (hzero : 0 ∉ word) (hword : argSeparator ∉ word)
    (fuel : ℕ) :
    scan argvSize (fuel + word.length) (pre ++ (word ++ tail)) pre.length argv =
      scan argvSize fuel ((pre ++ word) ++ tail) (pre ++ word).length argv := by
  induction word generalizing pre with
  | nil => rw [List.append_nil, List.nil_append]; rfl
  | cons c word ih =>
    rw [List.mem_cons, not_or] at hzero hword
    have hnext := ih (pre ++ [c]) hzero.2 hword.2
    rw [List.append_assoc, List.append_assoc pre [c] word, List.length_append,
      List.length_singleton] at hnext
    rw [List.length_cons, ← Nat.add_assoc, List.cons_append,
      scan_char _ _ (Ne.symm hzero.1) (Ne.symm hword.1)]
    exact hnext

/-- At the null byte `argv` is closed. -/
theorem scan_zero (pre tail : List UInt8) (hroom : argv.length < argvSize) (fuel : ℕ) :
    scan argvSize (fuel + 1) (pre ++ 0 :: tail) pre.length argv =
      some ⟨pre ++ 0 :: tail, argv ++ [none], 0⟩ := by
  simp [scan, store, hroom]

/-- With a full `argv`, a space ends the loop. -/
theorem scan_full (pre tail : List UInt8) (hsize : argvSize ≤ maxArgCount)
    (hfull : argv.length + 1 = argvSize) (fuel : ℕ) :
    scan argvSize (fuel + 1) (pre ++ argSeparator :: tail) pre.length argv =
      some ⟨pre ++ argSeparator :: tail, argv, 1⟩ := by
  have hlast : argv.length = lastIndex argvSize := by
    rw [lastIndex_of_pos (by omega) hsize]
    omega
  simp [scan, hlast, argSeparator]

/-- **A group of spaces**: its first space becomes a null byte, and the loop goes on after the
character `d` that follows the group, which starts an argument unless it is the null byte. -/
theorem scan_gap (pre gap tail : List UInt8) {d : UInt8} (hd : d ≠ argSeparator)
    (hgap : ∀ c ∈ gap, c = argSeparator) (hsize : argvSize ≤ maxArgCount)
    (hroom : argv.length + 1 < argvSize) (fuel : ℕ) :
    scan argvSize (fuel + 1) (pre ++ argSeparator :: (gap ++ d :: tail)) pre.length argv =
      scan argvSize fuel ((pre ++ 0 :: (gap ++ [d])) ++ tail) (pre ++ 0 :: (gap ++ [d])).length
        (if d = 0 then argv else argv ++ [some (pre ++ 0 :: gap).length]) := by
  have hbuffer : (pre ++ 0 :: (gap ++ [d])) ++ tail = (pre ++ [0]) ++ (gap ++ d :: tail) := by
    simp
  have hnext : (pre ++ 0 :: (gap ++ [d])).length = pre.length + 1 + gap.length + 1 := by
    simp only [List.length_append, List.length_cons, List.length_nil]
    omega
  have harg : (pre ++ 0 :: gap).length = pre.length + 1 + gap.length := by
    simp only [List.length_append, List.length_cons]
    omega
  have hlast : argv.length ≠ lastIndex argvSize := by
    rw [lastIndex_of_pos (by omega) hsize]
    omega
  have hset : (pre ++ argSeparator :: (gap ++ d :: tail)).set pre.length 0 =
      (pre ++ [0]) ++ (gap ++ d :: tail) := by
    simp
  have hfuel : gap.length < ((pre ++ [0]) ++ (gap ++ d :: tail)).length + 1 := by
    simp only [List.length_append, List.length_cons]
    omega
  have hskip := skipSeparators_gap (pre ++ [0]) gap tail hd hgap hfuel
  have hlen : (pre ++ [(0 : UInt8)]).length = pre.length + 1 := List.length_append
  have hlook : ((pre ++ [0]) ++ (gap ++ d :: tail))[pre.length + 1 + gap.length]? = some d := by
    rw [← hlen, List.getElem?_append_right (by omega), List.getElem?_append_right (by omega)]
    simp
  rw [hlen] at hskip
  rw [scan, hbuffer, hnext, harg]
  simp only [List.getElem?_append_right (Nat.le_refl _), Nat.sub_self, List.getElem?_cons_zero,
    Option.bind_eq_bind, Option.bind_some, hlast, hset, hskip, hlook, if_false]
  by_cases hzero : d = 0
  · simp [hzero, argSeparator]
  · simp [hzero, argSeparator, store, show argv.length < argvSize by omega]

end Steps

/-! ## A line -/

theorem stringAt_append (pre s : List UInt8) (rest : List UInt8) :
    stringAt (pre ++ (s ++ 0 :: rest)) pre.length = s.takeWhile (· != 0) := by
  rw [stringAt, List.drop_left, List.takeWhile_append]
  split
  · rename_i hall
    have hself := (List.takeWhile_sublist (· != 0) : (s.takeWhile (· != 0)).Sublist s)
    rw [List.takeWhile_cons_of_neg (by decide), List.append_nil, hself.eq_of_length hall]
  · rfl

/-- The first word and the first group of spaces, with what follows it: the next argument or
nothing. -/
theorem eq_word_gap {line : List UInt8} (hmem : argSeparator ∈ line) :
    ∃ word gap, argSeparator ∉ word ∧ (∀ c ∈ gap, c = argSeparator) ∧
      (line = word ++ argSeparator :: gap ∨
        ∃ d tail, d ≠ argSeparator ∧ line = word ++ argSeparator :: (gap ++ d :: tail)) := by
  obtain ⟨word, tail, rfl, hword⟩ := List.eq_append_cons_of_mem hmem
  have hgap : ∀ c ∈ tail.takeWhile (· == argSeparator), c = argSeparator := fun _ hc =>
    beq_iff_eq.mp (List.mem_takeWhile_imp (p := (· == argSeparator)) hc)
  have hsplit := List.takeWhile_append_dropWhile (p := (· == argSeparator)) (l := tail)
  refine ⟨word, _, hword, hgap, ?_⟩
  cases hrest : tail.dropWhile (· == argSeparator) with
  | nil =>
    rw [hrest, List.append_nil] at hsplit
    exact .inl (by rw [hsplit])
  | cons d after =>
    have hd := List.head?_dropWhile_not (· == argSeparator) tail
    rw [hrest] at hd
    refine .inr ⟨d, after, by simpa using hd, ?_⟩
    rw [← hrest, hsplit]

theorem getLast?_gap (word : List UInt8) {gap : List UInt8} (hgap : ∀ c ∈ gap, c = argSeparator) :
    (word ++ argSeparator :: gap).getLast? = some argSeparator := by
  rw [List.eq_replicate_of_mem hgap, ← List.replicate_succ, List.getLast?_append,
    List.getLast?_replicate, if_neg (Nat.succ_ne_zero _)]
  rfl

theorem getLast?_argument (word gap : List UInt8) {d : UInt8} (hd : d ≠ argSeparator)
    (tail : List UInt8) :
    (word ++ argSeparator :: (gap ++ d :: tail)).getLast? = some argSeparator ↔
      tail.getLast? = some argSeparator := by
  rw [← List.cons_append, ← List.append_assoc, List.getLast?_append, List.getLast?_cons]
  cases tail.getLast? with
  | none => simp [hd]
  | some c => simp

/-- A word and a group of spaces, up to the first character of the next argument. -/
theorem scan_argument {argvSize : ℕ} (argv : List (Option ℕ)) (pre word gap tail : List UInt8)
    {d : UInt8} (hzero : 0 ∉ word) (hword : argSeparator ∉ word) (hd : d ≠ argSeparator)
    (hgap : ∀ c ∈ gap, c = argSeparator) (hsize : argvSize ≤ maxArgCount)
    (hroom : argv.length + 1 < argvSize) (fuel : ℕ) :
    scan argvSize (fuel + 1 + word.length)
        (pre ++ (word ++ argSeparator :: (gap ++ d :: tail))) pre.length argv =
      scan argvSize fuel ((pre ++ (word ++ 0 :: (gap ++ [d]))) ++ tail)
        (pre ++ (word ++ 0 :: (gap ++ [d]))).length
        (if d = 0 then argv else argv ++ [some (pre ++ (word ++ 0 :: gap)).length]) := by
  rw [scan_word pre word _ hzero hword, scan_gap _ gap tail hd hgap hsize hroom,
    List.append_assoc pre word, List.append_assoc pre word]

/-- **The loop stays inside the line**, which starts at `start` when `argv` has been filled so far:
the line that it leaves, what it adds to `argv`, and what is returned. -/
structure LineScan (argvSize : ℕ) (line : List UInt8) (argv : List (Option ℕ)) (start : ℕ)
    (line' : List UInt8) (args : List (Option ℕ)) (result : ℕ) : Prop where
  length : line'.length = line.length
  run : ∀ pre rest fuel, pre.length = start → line.length < fuel →
    scan argvSize fuel (pre ++ (line ++ 0 :: rest)) start argv =
      some ⟨pre ++ (line' ++ 0 :: rest), argv ++ args, result⟩
  command : result = 0 ∨ argv.length + 1 < argvSize ∨ argSeparator ∉ line →
    line'.takeWhile (· != 0) = line.takeWhile (· != argSeparator)
  strings : result = 0 → ∀ pre rest, pre.length = start →
    args.map (Option.map (stringAt (pre ++ (line' ++ 0 :: rest)))) =
      (arguments line).map some ++ [none]

section LineScans
variable {argvSize start : ℕ} {argv : List (Option ℕ)} {line word gap tail : List UInt8} {d : UInt8}

/-- No space: the loop goes to the null byte. -/
theorem LineScan.single (hzero : 0 ∉ line) (hmem : argSeparator ∉ line)
    (hroom : argv.length < argvSize) : LineScan argvSize line argv start line [none] 0 where
  length := rfl
  run := by
    rintro pre rest fuel rfl hfuel
    obtain ⟨fuel, rfl⟩ : ∃ m, fuel = m + 1 + line.length := ⟨fuel - 1 - line.length, by omega⟩
    rw [scan_word pre line _ hzero hmem, scan_zero _ _ hroom, List.append_assoc]
  command := by
    intro _
    rw [takeWhile_bne_of_not_mem hzero, takeWhile_bne_of_not_mem hmem]
  strings := by
    intro _ _ _ _
    rw [arguments_word hmem]
    rfl

/-- A space, and `argv` is full: the first space ends the loop. -/
theorem LineScan.full (hsize : argvSize ≤ maxArgCount) (hzero : 0 ∉ word)
    (hword : argSeparator ∉ word) (hfull : argv.length + 1 = argvSize) :
    LineScan argvSize (word ++ argSeparator :: tail) argv start (word ++ argSeparator :: tail) []
      1 where
  length := rfl
  run := by
    rintro pre rest fuel rfl hfuel
    rw [List.length_append, List.length_cons] at hfuel
    obtain ⟨fuel, rfl⟩ : ∃ m, fuel = m + 1 + word.length := ⟨fuel - 1 - word.length, by omega⟩
    rw [List.append_assoc, scan_word pre word _ hzero hword, List.cons_append,
      scan_full _ _ hsize hfull, List.append_nil, List.append_assoc]
  command := by
    rintro (h | h | h)
    · cases h
    · omega
    · exact absurd (List.mem_append_right _ List.mem_cons_self) h
  strings := fun h => by cases h

/-- **An argument**, and the line behind its first character. -/
theorem LineScan.argument {tail' : List UInt8} {args : List (Option ℕ)} {result : ℕ}
    (hsize : argvSize ≤ maxArgCount) (hzero : 0 ∉ word) (hword : argSeparator ∉ word)
    (hgap : ∀ c ∈ gap, c = argSeparator) (hzd : d ≠ 0) (hd : d ≠ argSeparator)
    (hroom : argv.length + 1 < argvSize)
    (ht : LineScan argvSize tail (argv ++ [some (start + (word ++ 0 :: gap).length)])
      (start + (word ++ 0 :: (gap ++ [d])).length) tail' args result) :
    LineScan argvSize (word ++ argSeparator :: (gap ++ d :: tail)) argv start
      (word ++ 0 :: (gap ++ d :: tail')) (some (start + (word ++ 0 :: gap).length) :: args)
      result where
  length := by simp only [List.length_append, List.length_cons, ht.length]
  run := by
    rintro pre rest fuel rfl hfuel
    simp only [List.length_append, List.length_cons] at hfuel
    obtain ⟨fuel, rfl⟩ : ∃ m, fuel = m + 1 + word.length := ⟨fuel - 1 - word.length, by omega⟩
    have hstep := scan_argument argv pre word gap (tail ++ 0 :: rest) hzero hword hd hgap hsize
      hroom fuel
    have hargument : (pre ++ (word ++ 0 :: gap)).length =
        pre.length + (word ++ 0 :: gap).length := List.length_append
    rw [if_neg hzd, List.length_append, hargument] at hstep
    have hnext := ht.run (pre ++ (word ++ 0 :: (gap ++ [d]))) rest fuel List.length_append
      (by omega)
    simpa using hstep.trans hnext
  command := by
    intro _
    rw [takeWhile_bne_append hzero, takeWhile_bne_append hword]
  strings := by
    rintro hresult pre rest rfl
    have hstring := stringAt_append (pre ++ (word ++ 0 :: gap)) (d :: tail') rest
    have hargument : (d :: tail').takeWhile (· != 0) =
        d :: tail.takeWhile (· != argSeparator) := by
      rw [List.takeWhile_cons, if_pos (bne_iff_ne.mpr hzd), ht.command (.inl hresult)]
    have hrest := ht.strings hresult (pre ++ (word ++ 0 :: (gap ++ [d]))) rest List.length_append
    rw [show pre ++ (word ++ 0 :: (gap ++ [d])) ++ (tail' ++ 0 :: rest) =
      pre ++ ((word ++ 0 :: (gap ++ d :: tail')) ++ 0 :: rest) by simp] at hrest
    rw [List.length_append, hargument] at hstring
    rw [List.map_cons, hrest, arguments_gap hword hgap, words_cons hd, Option.map_some, ← hstring]
    simp

end LineScans

/-- **With room for the arguments, or no space at the end**, the loop stays inside the line. -/
theorem scan_line {argvSize : ℕ} (hsize : argvSize ≤ maxArgCount) (line : List UInt8)
    (hzero : 0 ∉ line) (argv : List (Option ℕ)) (hroom : argv.length < argvSize) (start : ℕ)
    (hend : line.getLast? ≠ some argSeparator ∨
      argvSize ≤ argv.length + (arguments line).length + 1) :
    ∃ line' args result, LineScan argvSize line argv start line' args result := by
  -- by induction on the length: an argument leaves a shorter line
  induction hlength : line.length using Nat.strong_induction_on
    generalizing line argv start with
  | _ n ih =>
  subst hlength
  by_cases hmem : argSeparator ∈ line
  · by_cases hfull : argv.length + 1 = argvSize
    · obtain ⟨word, tail, rfl, hword⟩ := List.eq_append_cons_of_mem hmem
      exact ⟨_, _, _, .full hsize (fun h => hzero (List.mem_append_left _ h)) hword hfull⟩
    · obtain ⟨word, gap, hword, hgap, rfl | ⟨d, tail, hd, rfl⟩⟩ := eq_word_gap hmem
      · -- only spaces: there is no room
        have hnone : arguments (word ++ argSeparator :: gap) = [] := by
          have := arguments_gap hword hgap (s := [])
          rwa [List.append_nil] at this
        rw [hnone, List.length_nil] at hend
        rcases hend with h | h
        · exact absurd (getLast?_gap word hgap) h
        · omega
      · have hend' : tail.getLast? ≠ some argSeparator ∨
            argvSize ≤ (argv.length + 1) + (arguments tail).length + 1 := by
          rw [arguments_gap hword hgap, words_cons hd, List.length_cons] at hend
          exact hend.imp (mt (getLast?_argument word gap hd tail).mpr) (by omega)
        simp only [List.mem_append, List.mem_cons, not_or] at hzero
        obtain ⟨hzword, -, -, hzd, hztail⟩ := hzero
        obtain ⟨tail', args, result, ht⟩ :=
          ih tail.length (by simp only [List.length_append, List.length_cons]; omega) tail hztail
            (argv ++ [some (start + (word ++ 0 :: gap).length)])
            (by rw [List.length_append, List.length_singleton]; omega)
            (start + (word ++ 0 :: (gap ++ [d])).length)
            (by rwa [List.length_append, List.length_singleton]) rfl
        exact ⟨_, _, _, .argument hsize hzword hword hgap (Ne.symm hzd) hd (by omega) ht⟩
  · exact ⟨_, _, _, .single hzero hmem hroom⟩

/-- **With room for more and a space at the end**, the loop leaves the line: it goes on after the
null byte. -/
theorem scan_leaves {argvSize : ℕ} (hsize : argvSize ≤ maxArgCount) (line : List UInt8)
    (hzero : 0 ∉ line) (argv : List (Option ℕ))
    (hroom : argv.length + (arguments line).length + 1 < argvSize) (start : ℕ)
    (hend : line.getLast? = some argSeparator) :
    ∃ line' args steps, line'.length = line.length ∧ args.length = (arguments line).length ∧
      steps ≤ line.length ∧
      ∀ pre rest fuel, pre.length = start →
        scan argvSize (fuel + steps) (pre ++ (line ++ 0 :: rest)) start argv =
          scan argvSize fuel ((pre ++ (line' ++ [0])) ++ rest) (pre ++ (line' ++ [0])).length
            (argv ++ args) := by
  induction hlength : line.length using Nat.strong_induction_on
    generalizing line argv start with
  | _ n ih =>
  subst hlength
  obtain ⟨word, gap, hword, hgap, rfl | ⟨d, tail, hd, rfl⟩⟩ :=
    eq_word_gap (List.mem_of_getLast? hend)
  -- only spaces: the group ends at the null byte
  · have hnone := arguments_gap hword hgap (s := [])
    rw [List.append_nil] at hnone
    refine ⟨word ++ 0 :: gap, [], 1 + word.length, ?_, ?_, ?_, ?_⟩
    · simp only [List.length_append, List.length_cons]
    · rw [hnone]
      rfl
    · rw [List.length_append, List.length_cons]
      omega
    · rintro pre rest fuel rfl
      have hend : (0 : UInt8) ≠ argSeparator := by decide
      have hstep := scan_argument argv pre word gap rest (by simp_all) hword hend hgap hsize
        (by omega) fuel
      rw [if_pos rfl] at hstep
      simpa [Nat.add_assoc] using hstep
  -- an argument
  · have hargs : (arguments (word ++ argSeparator :: (gap ++ d :: tail))).length =
        (arguments tail).length + 1 := by
      rw [arguments_gap hword hgap, words_cons hd, List.length_cons]
    have hend' := (getLast?_argument word gap hd tail).mp hend
    rw [hargs] at hroom
    simp only [List.mem_append, List.mem_cons, not_or] at hzero
    obtain ⟨hzword, -, -, hzd, hztail⟩ := hzero
    obtain ⟨tail', args, steps, hlen, hcount, hsteps, hscan⟩ :=
      ih tail.length (by simp only [List.length_append, List.length_cons]; omega) tail hztail
        (argv ++ [some (start + (word ++ 0 :: gap).length)])
        (by rw [List.length_append, List.length_singleton]; omega)
        (start + (word ++ 0 :: (gap ++ [d])).length) hend' rfl
    refine ⟨word ++ 0 :: (gap ++ d :: tail'), some (start + (word ++ 0 :: gap).length) :: args,
      steps + 1 + word.length, ?_, ?_, ?_, ?_⟩
    · simp only [List.length_append, List.length_cons, hlen]
    · rw [hargs, List.length_cons, hcount]
    · simp only [List.length_append, List.length_cons]
      omega
    · rintro pre rest fuel rfl
      have hstep := scan_argument argv pre word gap (tail ++ 0 :: rest) hzword hword hd hgap hsize
        (by omega) (fuel + steps)
      have hargument : (pre ++ (word ++ 0 :: gap)).length =
          pre.length + (word ++ 0 :: gap).length := List.length_append
      rw [if_neg (Ne.symm hzd), List.length_append, hargument] at hstep
      have hnext := hscan (pre ++ (word ++ 0 :: (gap ++ [d]))) rest fuel List.length_append
      rw [show pre ++ (word ++ argSeparator :: (gap ++ d :: tail) ++ 0 :: rest) =
        pre ++ (word ++ argSeparator :: (gap ++ d :: (tail ++ 0 :: rest))) by simp,
        ← Nat.add_assoc, ← Nat.add_assoc]
      refine (hstep.trans hnext).trans ?_
      simp

/-! ## Which lines are split well -/

theorem splitsLine_of_stays {typed : List UInt8} {argvSize : ℕ} (hzero : 0 ∉ typed)
    (hsize : argvSize ≤ maxArgCount) (hpos : 0 < argvSize)
    (hroom : argSeparator ∈ typed → 2 ≤ argvSize)
    (hend : typed.getLast? ≠ some argSeparator ∨ argvSize ≤ (arguments typed).length + 1) :
    SplitsLine typed argvSize := by
  obtain ⟨typed', argv, result, hlen, hscan, hcommand, hresult⟩ :=
    scan_line hsize typed hzero [] hpos 0 (hend.imp_right fun h => by simpa using h)
  refine ⟨argv, result, fun rest => ⟨typed', ?_, hlen, ?_, fun h => hresult h [] rest rfl⟩⟩
  · rw [prepareArguments, if_neg (by omega)]
    exact hscan [] rest _ rfl (by simp only [List.length_append, List.length_cons]; omega)
  · refine (stringAt_append [] typed' rest).trans (hcommand ?_)
    by_cases hmem : argSeparator ∈ typed
    · exact .inr (.inl (hroom hmem))
    · exact .inr (.inr hmem)

theorem scan_no_room (fuel : ℕ) (line : List UInt8) (i : ℕ) : scan 0 fuel line i [] = none := by
  induction fuel generalizing line i with
  | zero => rfl
  | succ fuel ih =>
    rw [scan]
    cases (line)[i]? with
    | none => rfl
    | some c =>
      have hlast : ¬ ([] : List (Option ℕ)).length = lastIndex 0 := by decide
      dsimp only [Option.bind_eq_bind, Option.bind_some]
      by_cases hzero : c = 0
      · rw [if_pos hzero]
        rfl
      by_cases hsep : c = argSeparator
      · rw [if_neg hzero, if_pos hsep, if_neg hlast]
        cases skipSeparators (line.set i 0) ((line.set i 0).length + 1) (i + 1) with
        | none => rfl
        | some j =>
          dsimp only [Option.bind_some]
          cases (line.set i 0)[j]? with
          | none => rfl
          | some d =>
            dsimp only [Option.bind_some]
            split
            · rfl
            · exact ih _ _
      · rw [if_neg hzero, if_neg hsep]
        exact ih _ _

/-- Without an element of `argv` for the null pointer, the loop writes outside the array. -/
theorem not_splitsLine_zero (typed : List UInt8) : ¬ SplitsLine typed 0 := by
  rintro ⟨argv, result, h⟩
  obtain ⟨typed', hrun, -⟩ := h []
  rw [prepareArguments, if_neg (by decide), scan_no_room] at hrun
  cases hrun

/-- An `argv` of one element has no room for an argument, and the command is not ended. -/
theorem not_splitsLine_one {typed : List UInt8} (hzero : 0 ∉ typed)
    (hmem : argSeparator ∈ typed) : ¬ SplitsLine typed 1 := by
  rintro ⟨argv, result, h⟩
  obtain ⟨word, tail, rfl, hword⟩ := List.eq_append_cons_of_mem hmem
  obtain ⟨typed', hrun, hlen, hcommand, -⟩ := h []
  have hscan : scan 1 (tail.length + 2 + 1 + word.length)
      ([] ++ (word ++ argSeparator :: (tail ++ [0]))) 0 [] =
        some ⟨([] ++ word) ++ argSeparator :: (tail ++ [0]), [], 1⟩ :=
    (scan_word [] word _ (by simp_all) hword _).trans (scan_full _ _ (by decide) rfl _)
  have hline : word ++ argSeparator :: tail ++ [0] = word ++ argSeparator :: (tail ++ [0]) :=
    List.append_assoc _ _ _
  have hfuel : (word ++ argSeparator :: (tail ++ [0])).length + 1 =
      tail.length + 2 + 1 + word.length := by
    simp only [List.length_append, List.length_cons, List.length_nil]
    omega
  rw [prepareArguments, if_neg (by decide), hline, hfuel] at hrun
  have hsame := congrArg Prepared.line (Option.some.inj (hrun.symm.trans hscan))
  rw [List.nil_append, ← hline] at hsame
  dsimp only at hsame
  have hstring := stringAt_append [] (word ++ argSeparator :: tail) []
  rw [takeWhile_bne_of_not_mem hzero] at hstring
  rw [hsame, takeWhile_bne_append hword] at hcommand
  exact absurd (congrArg List.length (hstring.symm.trans hcommand)) (by simp)

/-- **A space at the end**: something is written after the line. -/
theorem not_splitsLine_of_leaves {typed : List UInt8} {argvSize : ℕ} (hzero : 0 ∉ typed)
    (hsize : argvSize ≤ maxArgCount) (hroom : (arguments typed).length + 1 < argvSize)
    (hend : typed.getLast? = some argSeparator) : ¬ SplitsLine typed argvSize := by
  rintro ⟨argv, result, h⟩
  obtain ⟨line', args, steps, hlen, hcount, hsteps, hscan⟩ :=
    scan_leaves hsize typed hzero [] (by simpa using hroom) 0 hend
  obtain ⟨typed', hrun, hlen', -⟩ := h [argSeparator, 1, 0]
  obtain ⟨fuel, hfuel⟩ : ∃ fuel, (typed ++ 0 :: [argSeparator, 1, 0]).length + 1 =
      fuel + 2 + steps := ⟨typed.length + 3 - steps, by
    simp only [List.length_append, List.length_cons, List.length_nil]; omega⟩
  have hrun' := (hscan [] [argSeparator, 1, 0] (fuel + 2) rfl).trans
    (scan_gap _ [] [0] (d := 1) (by decide) (by simp) hsize (by simpa [hcount] using hroom) _)
  rw [if_neg (by decide), List.nil_append, scan_zero] at hrun'
  · rw [prepareArguments, if_neg (by omega), hfuel, hrun'] at hrun
    have hsame := congrArg Prepared.line (Option.some.inj hrun)
    have hsame' : (line' ++ [0]) ++ [0, 1, 0] = (typed' ++ [0]) ++ [argSeparator, 1, 0] := by
      simpa using hsame
    have := (List.append_inj hsame' (by simp [hlen, hlen'])).2
    cases this
  · simpa [hcount] using hroom

/-- **Which lines are split well**: if there is room for the null pointer, for an argument where
the line has a space, and the line does not end with a space that is reached. -/
theorem splitsLine_iff {typed : List UInt8} {argvSize : ℕ} (hzero : 0 ∉ typed)
    (hsize : argvSize ≤ maxArgCount) :
    SplitsLine typed argvSize ↔ 0 < argvSize ∧ (argSeparator ∈ typed → 2 ≤ argvSize) ∧
      (typed.getLast? ≠ some argSeparator ∨ argvSize ≤ (arguments typed).length + 1) := by
  constructor
  · intro h
    have hpos : 0 < argvSize := by
      refine Nat.pos_of_ne_zero ?_
      rintro rfl
      exact not_splitsLine_zero typed h
    refine ⟨hpos, fun hmem => ?_, ?_⟩
    · by_contra hone
      obtain rfl : argvSize = 1 := by omega
      exact not_splitsLine_one hzero hmem h
    · by_contra hleaves
      rw [not_or, not_not, not_le] at hleaves
      exact not_splitsLine_of_leaves hzero hsize hleaves.2 hleaves.1 h
  · rintro ⟨hpos, hroom, hend⟩
    exact splitsLine_of_stays hzero hsize hpos hroom hend

/-- `cat a  b`. -/
theorem splitsLine_cat : SplitsLine [99, 97, 116, 32, 97, 32, 32, 98] maxArgCount :=
  (splitsLine_iff (by decide) (by decide)).mpr ⟨by decide, by decide, .inl (by decide)⟩

/-- **An argument of an earlier line**: the line `x    abc` has left spaces in the buffer, and with
`ls ` written over its start, `abc` is an argument of `ls`. -/
theorem stale_argument :
    prepareArguments ([120, 32, 32, 32, 32, 97, 98, 99] ++ 0 :: []) maxArgCount =
      some ⟨[120, 0, 32, 32, 32, 97, 98, 99, 0], [some 5, none], 0⟩ ∧
    prepareArguments ([108, 115, 32] ++ 0 :: [32, 97, 98, 99, 0]) maxArgCount =
      some ⟨[108, 115, 0, 0, 0, 97, 98, 99, 0], [some 5, none], 0⟩ ∧
    ¬ SplitsLine [108, 115, 32] maxArgCount :=
  ⟨by decide, by decide, not_splitsLine_of_leaves (by decide) (by decide) (by decide) (by decide)⟩

end Shell
end PaldOs
