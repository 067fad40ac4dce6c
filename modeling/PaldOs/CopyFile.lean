import Mathlib.Data.List.Basic

/-! # The copy of `cp`

`copy_file` reads a byte and writes a byte until `Read` returns 0.  What the two system calls do
with the files is a parameter (`ByteFiles`): the state of the files is of any type, and all that is
known of it are the bytes that are still to be read and the bytes that were written.

In each pass the byte goes over from one to the other (`copyByte_next`), so the two together stay
what they were.  The last pass, in which `Read` returns 0, writes as well: the null byte that `c`
was set to goes after the copy (`copyByte_end`).
-/
namespace PaldOs

/-- **The two open files**, as `Read` and `Write` of one byte see them.  `read` gets what is in
`c`, and gives the number of bytes read and what is in `c` afterwards. -/
structure ByteFiles (State : Type) where
  read : UInt8 → State → ℕ × UInt8 × State
  write : UInt8 → State → State
  /-- What is still to be read from the first file. -/
  rest : State → List UInt8
  /-- The content of the second file. -/
  copied : State → List UInt8
  /-- `Read` gives the next byte. -/
  read_next : ∀ c s b bs, rest s = b :: bs →
    ∃ s', read c s = (1, b, s') ∧ rest s' = bs ∧ copied s' = copied s
  /-- At the end `Read` gives 0, and nothing is stored. -/
  read_end : ∀ c s, rest s = [] →
    ∃ s', read c s = (0, c, s') ∧ rest s' = [] ∧ copied s' = copied s
  /-- `Write` appends. -/
  copied_write : ∀ c s, copied (write c s) = copied s ++ [c]
  rest_write : ∀ c s, rest (write c s) = rest s

namespace ByteFiles

variable {State : Type} (files : ByteFiles State)

/-- The body of the loop of `copy_file`: the value of `nb`, and the files. -/
def copyByte (s : State) : ℕ × State :=
  let c := 0
  let (nb, c, s) := files.read c s
  (nb, files.write c s)

/-- `copy_file`, up to the two calls of `Close`: the loop, with the current `nb`. -/
def copyFile : ℕ → ℕ → State → Option State
  | 0, _, _ => none
  | fuel + 1, nb, s =>
    if nb ≠ 0 then
      let (nb, s) := files.copyByte s
      copyFile fuel nb s
    else some s

/-- **An identical copy**: the loop ends, and what was to be read is now in the second file, after
what had been there. -/
def CopiesIdentically (s : State) : Prop :=
  ∃ fuel s', files.copyFile fuel 1 s = some s' ∧ files.copied s' = files.copied s ++ files.rest s

variable {files}

/-- A pass that reads a byte moves it. -/
theorem copyByte_next {s : State} {b : UInt8} {bs : List UInt8} (hrest : files.rest s = b :: bs) :
    ∃ s', files.copyByte s = (1, s') ∧ files.rest s' = bs ∧
      files.copied s' = files.copied s ++ [b] := by
  obtain ⟨s', hread, hrest', hcopied⟩ := files.read_next 0 s b bs hrest
  refine ⟨files.write b s', ?_, ?_, ?_⟩
  · rw [copyByte, hread]
  · rw [files.rest_write, hrest']
  · rw [files.copied_write, hcopied]

/-- The last pass writes the null byte. -/
theorem copyByte_end {s : State} (hrest : files.rest s = []) :
    ∃ s', files.copyByte s = (0, s') ∧ files.rest s' = [] ∧
      files.copied s' = files.copied s ++ [0] := by
  obtain ⟨s', hread, hrest', hcopied⟩ := files.read_end 0 s hrest
  refine ⟨files.write 0 s', ?_, ?_, ?_⟩
  · rw [copyByte, hread]
  · rw [files.rest_write, hrest']
  · rw [files.copied_write, hcopied]

/-- **A run of the loop** ends after one pass more than there are bytes, with the null byte after
them. -/
theorem copyFile_run (s : State) (fuel : ℕ) :
    ∃ s', files.copyFile (fuel + (files.rest s).length + 2) 1 s = some s' ∧
      files.rest s' = [] ∧ files.copied s' = files.copied s ++ files.rest s ++ [0] := by
  induction hbytes : files.rest s generalizing s with
  | nil =>
    obtain ⟨s', hpass, hrest, hcopied⟩ := copyByte_end hbytes
    refine ⟨s', ?_, hrest, ?_⟩
    · rw [copyFile, if_pos Nat.one_ne_zero, hpass]
      rfl
    · rw [hcopied, List.append_nil]
  | cons b bs ih =>
    obtain ⟨s₁, hpass, hrest, hcopied⟩ := copyByte_next hbytes
    obtain ⟨s', hrun, hend, hcopy⟩ := ih s₁ hrest
    refine ⟨s', ?_, hend, ?_⟩
    · rw [copyFile, if_pos Nat.one_ne_zero, hpass]
      exact hrun
    · rw [hcopy, hcopied, List.append_assoc _ [b] bs, List.singleton_append]

/-- More fuel does not change the outcome. -/
theorem copyFile_mono {fuel nb : ℕ} {s s' : State} (hrun : files.copyFile fuel nb s = some s')
    (more : ℕ) : files.copyFile (fuel + more) nb s = some s' := by
  induction fuel generalizing nb s with
  | zero => cases hrun
  | succ fuel ih =>
    rw [copyFile] at hrun
    rw [Nat.succ_add, copyFile]
    split_ifs at hrun ⊢ with hnb
    · exact ih hrun
    · exact hrun

/-- **The copy is never identical**: the loop ends, with a null byte after the copy. -/
theorem copyFile_not_identical (files : ByteFiles State) (s : State) :
    (∃ fuel s', files.copyFile fuel 1 s = some s' ∧
      files.copied s' = files.copied s ++ files.rest s ++ [0]) ∧
    ¬ files.CopiesIdentically s := by
  obtain ⟨s', hrun, -, hcopied⟩ :
      ∃ s', files.copyFile (0 + (files.rest s).length + 2) 1 s = some s' ∧
        files.rest s' = [] ∧ files.copied s' = files.copied s ++ files.rest s ++ [0] :=
    copyFile_run s 0
  refine ⟨⟨_, s', hrun, hcopied⟩, ?_⟩
  rintro ⟨fuel, s₁, hrun₁, hcopied₁⟩
  have hsame : s₁ = s' := by
    have h := copyFile_mono hrun₁ (0 + (files.rest s).length + 2)
    rw [Nat.add_comm fuel, copyFile_mono hrun fuel] at h
    exact (Option.some.inj h).symm
  rw [hsame, hcopied] at hcopied₁
  exact absurd (congrArg List.length hcopied₁) (by simp)

end ByteFiles

/-- The bytes still to be read and the bytes written. -/
def listFiles : ByteFiles (List UInt8 × List UInt8) where
  read c s :=
    match s with
    | ([], copied) => (0, c, [], copied)
    | (b :: rest, copied) => (1, b, rest, copied)
  write c s := (s.1, s.2 ++ [c])
  rest := Prod.fst
  copied := Prod.snd
  read_next := by
    rintro c ⟨rest, copied⟩ b bs rfl
    exact ⟨(bs, copied), rfl, rfl, rfl⟩
  read_end := by
    rintro c ⟨rest, copied⟩ rfl
    exact ⟨([], copied), rfl, rfl, rfl⟩
  copied_write := by
    intro c s
    rfl
  rest_write := by
    intro c s
    rfl

/-- **An empty file** gets a copy with one byte. -/
theorem copy_of_empty : listFiles.copyFile 2 1 ([], []) = some ([], [0]) ∧
    ¬ listFiles.CopiesIdentically ([], []) := by
  refine ⟨rfl, ?_⟩
  rintro ⟨fuel, s', hrun, hcopied⟩
  have hrun₂ : listFiles.copyFile (2 + fuel) 1 ([], []) = some ([], [0]) :=
    ByteFiles.copyFile_mono rfl fuel
  rw [Nat.add_comm, ByteFiles.copyFile_mono hrun 2] at hrun₂
  obtain rfl := Option.some.inj hrun₂
  cases hcopied

end PaldOs
