import Mathlib.Data.List.TakeWhile
import PaldOs.DirectoryMap
import PaldOs.SystemCalls

/-! # Listing a directory

`PrintNames` puts a line for each entry in use into a buffer of `LSDIR_OUTPUT` bytes, which belongs
to the system call and of whose size it knows nothing.  `sprintf` also puts a null byte after each
line.

A name of 20 bytes fills the part of the entry that `Add` writes.  The byte after it is left as it
was, and for an entry made in a heap it may be anything; without a null byte there, `sprintf` goes
on: the flag `isDirectory` is next, and what is in memory after it.
-/
namespace PaldOs

open SystemCalls (lsdirOutput)

namespace DirectoryEntry

/-- There is a null byte in the field of the name. -/
def Terminated (e : DirectoryEntry) : Prop := ∃ i, i < 21 ∧ e.nameAt i = 0

instance (e : DirectoryEntry) : Decidable e.Terminated := by
  unfold Terminated
  infer_instance

/-- The characters of the string at the name, with what is in memory after `isDirectory` up to a
null byte. -/
def printed (e : DirectoryEntry) (after : List UInt8) : List UInt8 :=
  if e.Terminated then e.string
  else e.string ++ if e.isDirectory then 1 :: after else []

/-- What comes after a name in its line: `"/\n"` for a directory, `"\n"` for a file. -/
def lineEnd (e : DirectoryEntry) : List UInt8 := if e.isDirectory then [47, 10] else [10]

/-- The line that `sprintf` makes of the entry. -/
def line (e : DirectoryEntry) (after : List UInt8) : List UInt8 := e.printed after ++ e.lineEnd

/-- The line with the name that was added. -/
def nameLine (e : DirectoryEntry) : List UInt8 := e.key ++ e.lineEnd

end DirectoryEntry

/-- `sprintf` into the buffer at `temp`: the text and a null byte.  It fails where it writes past
the end of the buffer. -/
def sprintf (into : ℕ → UInt8) (temp : ℕ) (text : List UInt8) : Option (ℕ → UInt8) :=
  if temp + text.length + 1 ≤ lsdirOutput then some (blit into temp (text.length + 1) (charAt text))
  else none

namespace Directory

/-- The loop of `PrintNames`, from entry `i` on.  `result` bytes are in the buffer before. -/
def printLoop (after : ℕ → List UInt8) : ℕ → Directory → ℕ → (ℕ → UInt8) → Option (ℕ × (ℕ → UInt8))
  | _, [], result, into => some (result, into)
  | i, e :: d, result, into =>
      if e.inUse then
        (sprintf into result (e.line (after i))).bind
          (printLoop after (i + 1) d (result + (e.line (after i)).length))
      else printLoop after (i + 1) d result into

/-- `Directory::PrintNames`: the result and the buffer. -/
def printInto (d : Directory) (after : ℕ → List UInt8) (into : ℕ → UInt8) :
    Option (ℕ × (ℕ → UInt8)) :=
  printLoop after 0 d 0 into

/-- All the lines, of the entries from entry `i` on. -/
def text (after : ℕ → List UInt8) : ℕ → Directory → List UInt8
  | _, [] => []
  | i, e :: d =>
      if e.inUse then e.line (after i) ++ text after (i + 1) d else text after (i + 1) d

/-- **The listing there should be**: the names in use, one a line, with a slash after those of
directories. -/
def listing (d : Directory) : List UInt8 :=
  (d.filter DirectoryEntry.inUse).flatMap DirectoryEntry.nameLine

/-- `PrintNames` stays in the buffer, returns the number of characters and leaves the listing
there, with a null byte after it. -/
def Listed (d : Directory) (after : ℕ → List UInt8) (into : ℕ → UInt8) : Prop :=
  ∃ into', d.printInto after into = some (d.listing.length, into') ∧
    (∀ i, i < d.listing.length → into' i = charAt d.listing i) ∧
    (d.listing ≠ [] → into' d.listing.length = 0)

/-- The listing fits into the buffer, and no name in use runs on. -/
structure Listable (d : Directory) : Prop where
  fits : d.listing ≠ [] → d.listing.length + 1 ≤ lsdirOutput
  terminated : ∀ e ∈ d, e.inUse = true → e.Terminated

end Directory

/-! ## Lines -/

namespace DirectoryEntry
variable {e : DirectoryEntry} {after : List UInt8}

theorem range_nameAt (e : DirectoryEntry) : (List.range 21).map e.nameAt =
    (List.range' 0 fileNameMaxLen).map e.nameAt ++ [e.nameAt 20] := by
  rw [← List.range_eq_range', show 21 = fileNameMaxLen + 1 from rfl, List.range_succ,
    List.map_append]
  rfl

/-- A string is the key of the name, if there is a null byte in the field. -/
theorem string_of_terminated (h : e.Terminated) : e.string = e.key := by
  rw [string, range_nameAt, List.takeWhile_append, key, keyFrom]
  split
  · rename_i hlength
    have hself := (List.takeWhile_prefix _).eq_of_length hlength
    have hall := List.takeWhile_eq_self_iff.mp hself
    -- no null byte among the first 20, so it is the last one
    obtain ⟨i, hi, hzero⟩ := h
    have hi20 : i = 20 := by
      by_contra hne
      have hmem : e.nameAt i ∈ (List.range' 0 fileNameMaxLen).map e.nameAt := by
        refine List.mem_map.mpr ⟨i, ?_, rfl⟩
        have : fileNameMaxLen = 20 := rfl
        exact List.mem_range'_1.mpr (by omega)
      have hne0 := hall _ hmem
      simp [hzero] at hne0
    have hlast : [e.nameAt 20].takeWhile (· != 0) = [] := by
      rw [← hi20, List.takeWhile_cons, if_neg (by simp [hzero])]
    rw [hself, hlast, List.append_nil]
  · rfl

theorem length_string (h : ¬ e.Terminated) : e.string.length = 21 := by
  have hall : ∀ c ∈ (List.range 21).map e.nameAt, (c != 0) = true := by
    intro c hc
    obtain ⟨i, hi, rfl⟩ := List.mem_map.mp hc
    refine bne_iff_ne.mpr fun hzero => h ⟨i, List.mem_range.mp hi, hzero⟩
  rw [string, List.takeWhile_eq_self_iff.mpr hall, List.length_map, List.length_range]

theorem length_key_le (e : DirectoryEntry) : e.key.length ≤ fileNameMaxLen := by
  refine (List.takeWhile_prefix _).length_le.trans ?_
  rw [List.length_map, List.length_range']

theorem printed_of_terminated (h : e.Terminated) : e.printed after = e.key := by
  rw [printed, if_pos h, string_of_terminated h]

theorem length_line_of_not_terminated (h : ¬ e.Terminated) :
    e.nameLine.length < (e.line after).length := by
  have hkey := e.length_key_le
  have hmax : fileNameMaxLen = 20 := rfl
  rw [line, nameLine, printed, if_neg h]
  simp only [List.length_append, length_string h]
  omega

theorem length_line_le : e.nameLine.length ≤ (e.line after).length := by
  by_cases h : e.Terminated
  · rw [line, nameLine, printed_of_terminated h]
  · exact (length_line_of_not_terminated h).le

theorem lineEnd_ne_nil (e : DirectoryEntry) : e.lineEnd ≠ [] := by
  rw [lineEnd]
  split <;> simp

end DirectoryEntry

/-! ## The loop -/

namespace Directory
variable {d : Directory} {after : ℕ → List UInt8}

theorem line_append_ne_nil (e : DirectoryEntry) (l : List UInt8) (t : List UInt8) :
    e.line l ++ t ≠ [] := by
  simp [DirectoryEntry.line, e.lineEnd_ne_nil]

theorem charAt_append_left {a b : List UInt8} {i : ℕ} (h : i < a.length) :
    charAt (a ++ b) i = charAt a i := by
  rw [charAt, charAt, List.getD_append _ _ _ _ h]

theorem charAt_append_right {a b : List UInt8} {i : ℕ} (h : a.length ≤ i) :
    charAt (a ++ b) i = charAt b (i - a.length) := by
  rw [charAt, charAt, List.getD_append_right _ _ _ _ h]

theorem charAt_length (a : List UInt8) : charAt a a.length = 0 := by
  rw [charAt, List.getD_eq_default _ _ le_rfl]

/-- A line after another: the second one takes the place of the null byte after the first. -/
theorem blit_blit (into : ℕ → UInt8) (temp : ℕ) (a b : List UInt8) :
    blit (blit into temp (a.length + 1) (charAt a)) (temp + a.length) (b.length + 1) (charAt b) =
      blit into temp ((a ++ b).length + 1) (charAt (a ++ b)) := by
  funext x
  rw [List.length_append, blit]
  by_cases hb : temp + a.length ≤ x ∧ x < temp + a.length + (b.length + 1)
  · have hsub : x - temp - a.length = x - (temp + a.length) := by omega
    rw [if_pos hb, blit, if_pos (by omega), charAt_append_right (by omega), hsub]
  · rw [if_neg hb, blit, blit]
    by_cases ha : temp ≤ x ∧ x < temp + a.length
    · rw [if_pos (by omega), if_pos (by omega), charAt_append_left (by omega)]
    · rw [if_neg (by omega), if_neg (by omega)]

/-- **What the loop does**: all its lines, one after the other, if they fit. -/
theorem printLoop_eq (i : ℕ) (d : Directory) (result : ℕ) (into : ℕ → UInt8) :
    printLoop after i d result into =
      if text after i d = [] then some (result, into)
      else (sprintf into result (text after i d)).map
        (fun into' => (result + (text after i d).length, into')) := by
  induction d generalizing i result into with
  | nil => rfl
  | cons e d ih =>
    rw [printLoop, text]
    by_cases hu : e.inUse = true
    · rw [if_pos hu, if_pos hu, if_neg (line_append_ne_nil e _ _)]
      generalize e.line (after i) = l
      by_cases ht : text after (i + 1) d = []
      · simp only [ih, ht, List.append_nil, if_true]
        cases sprintf into result l with
        | none => rfl
        | some into' => rfl
      · simp only [ih, if_neg ht]
        generalize text after (i + 1) d = t
        simp only [sprintf]
        by_cases hfit : result + (l ++ t).length + 1 ≤ lsdirOutput
        · have hlen : (l ++ t).length = l.length + t.length := List.length_append
          rw [if_pos hfit, if_pos (by omega), Option.bind_some, if_pos (by omega), blit_blit,
            Option.map_some, Option.map_some, hlen, Nat.add_assoc]
        · have hlen : (l ++ t).length = l.length + t.length := List.length_append
          rw [if_neg hfit]
          split
          · rw [Option.bind_some, if_neg (by omega)]
            rfl
          · rfl
    · rw [if_neg hu, if_neg hu]
      exact ih (i + 1) result into

/-! ## The listing -/

theorem listing_cons (e : DirectoryEntry) (d : Directory) :
    listing (e :: d) = if e.inUse then e.nameLine ++ listing d else listing d := by
  rw [listing, List.filter_cons]
  split <;> rfl

/-- Without names that run on the lines are the listing. -/
theorem text_eq_listing (h : ∀ e ∈ d, e.inUse = true → e.Terminated) (i : ℕ) :
    text after i d = d.listing := by
  induction d generalizing i with
  | nil => rfl
  | cons e d ih =>
    rw [text, listing_cons, ih (fun e' he' => h e' (List.mem_cons_of_mem _ he'))]
    by_cases hu : e.inUse = true
    · rw [if_pos hu, if_pos hu, DirectoryEntry.line,
        DirectoryEntry.printed_of_terminated (h e List.mem_cons_self hu)]
      rfl
    · rw [if_neg hu, if_neg hu]

theorem length_listing_le (i : ℕ) (d : Directory) :
    d.listing.length ≤ (text after i d).length := by
  induction d generalizing i with
  | nil => exact le_rfl
  | cons e d ih =>
    rw [text, listing_cons]
    have hrest := ih (i + 1)
    split
    · have hline : e.nameLine.length ≤ (e.line (after i)).length := DirectoryEntry.length_line_le
      rw [List.length_append, List.length_append]
      omega
    · exact hrest

/-- A name that runs on makes the text longer. -/
theorem terminated_of_length {i : ℕ} (h : (text after i d).length = d.listing.length) :
    ∀ e ∈ d, e.inUse = true → e.Terminated := by
  induction d generalizing i with
  | nil => simp
  | cons e d ih =>
    rw [text, listing_cons] at h
    have hrest : (Directory.listing d).length ≤ (text after (i + 1) d).length :=
      length_listing_le (i + 1) d
    by_cases hu : e.inUse = true
    · have hline : e.nameLine.length ≤ (e.line (after i)).length := DirectoryEntry.length_line_le
      rw [if_pos hu, if_pos hu, List.length_append, List.length_append] at h
      intro e' he' hu'
      rcases List.mem_cons.mp he' with rfl | he'
      · by_contra hnot
        have hlonger : e'.nameLine.length < (e'.line (after i)).length :=
          DirectoryEntry.length_line_of_not_terminated hnot
        omega
      · exact ih (i := i + 1) (by omega) e' he' hu'
    · rw [if_neg hu, if_neg hu] at h
      intro e' he' hu'
      rcases List.mem_cons.mp he' with rfl | he'
      · exact absurd hu' hu
      · exact ih h e' he' hu'

/-- The text of the model of the file system, whose heap reads as zero. -/
theorem printNames_eq_listing (h : ∀ e ∈ d, e.inUse = true → e.Terminated) :
    d.printNames = d.listing := by
  rw [printNames, listing]
  refine List.flatMap_congr fun e he => ?_
  rw [List.mem_filter] at he
  rw [DirectoryEntry.string_of_terminated (h e he.1 he.2)]
  rfl

theorem listed_iff (d : Directory) (after : ℕ → List UInt8) (into : ℕ → UInt8) :
    Listed d after into ↔ Listable d := by
  rw [Listed, printInto, printLoop_eq]
  constructor
  · rintro ⟨into', hprint, -, -⟩
    by_cases ht : text after 0 d = []
    · have hle : d.listing.length ≤ (text after 0 d).length := length_listing_le 0 d
      rw [ht, List.length_nil] at hle
      have hlength : (text after 0 d).length = d.listing.length := by
        rw [ht, List.length_nil]
        omega
      refine ⟨fun hne => absurd (List.length_eq_zero_iff.mp (by omega)) hne,
        terminated_of_length hlength⟩
    · rw [if_neg ht, Option.map_eq_some_iff] at hprint
      obtain ⟨into'', hsprintf, heq⟩ := hprint
      obtain ⟨hlength, rfl⟩ := Prod.mk.inj heq
      rw [Nat.zero_add] at hlength
      refine ⟨fun _ => ?_, terminated_of_length hlength⟩
      rw [sprintf] at hsprintf
      split at hsprintf
      · omega
      · cases hsprintf
  · intro h
    rw [text_eq_listing h.terminated]
    by_cases ht : d.listing = []
    · rw [if_pos ht, ht]
      exact ⟨into, rfl, fun i hi => absurd hi (Nat.not_lt_zero i), fun hne => absurd rfl hne⟩
    · have hfits : 0 + d.listing.length + 1 ≤ lsdirOutput := by
        have := h.fits ht
        omega
      rw [if_neg ht, sprintf, if_pos hfits, Nat.zero_add]
      refine ⟨_, rfl, fun i hi => ?_, fun _ => ?_⟩
      · rw [blit, if_pos (by omega), Nat.sub_zero]
      · rw [blit, if_pos (by omega), Nat.sub_zero, charAt_length]

/-- **The listing of a directory is right exactly if** it fits into the buffer, with its null byte,
and the names of 20 bytes have a null byte after them; for any directory that comes about by adding
and removing names, whatever the heap has. -/
theorem directory_listed_iff (start : ℕ → DirectoryEntry) (size : ℕ) (calls : List Edit)
    (after : ℕ → List UInt8) (into : ℕ → UInt8) :
    Listed ((onHeap start size).edits calls) after into ↔
      Listable ((onHeap start size).edits calls) :=
  listed_iff _ after into

/-- **Ten files with names of 19 bytes** fill the buffer: there is no byte left for the null byte
at the end. -/
theorem directory_overflows : ¬ ∀ start size calls after into,
    Listed ((onHeap start size).edits calls) after into := by
  intro h
  obtain ⟨into', hprint, -⟩ := h (fun _ => .fresh) 10
    ((List.range 10).map fun i =>
      .add .fresh (List.replicate 18 97 ++ [UInt8.ofNat (97 + i)]) (Int32.ofNat (i + 5)) false)
    (fun _ => []) (fun _ => 0)
  have hnone : (((onHeap (fun _ => .fresh) 10).edits ((List.range 10).map fun i =>
      .add .fresh (List.replicate 18 97 ++ [UInt8.ofNat (97 + i)]) (Int32.ofNat (i + 5))
        false)).printInto (fun _ => []) fun _ => 0).isSome = false := by
    decide +kernel
  rw [hprint] at hnone
  cases hnone

end Directory
end PaldOs
