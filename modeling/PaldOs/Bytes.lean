import Mathlib.Algebra.Ring.Int.Defs
import Mathlib.Algebra.Ring.Nat
import Mathlib.Data.Nat.Basic
import Mathlib.Logic.Function.Basic
import Mathlib.Tactic.Common

/-! # Byte arrays, words and host files

A memory is a function from addresses to bytes.  Every way of changing it, from
`memset` to a transfer from a file, is a `blit`: some consecutive bytes are replaced
and the others stay.  A word is four bytes, the lowest first.  A host file has a length
besides; a read past its end is cut short and a write past its end extends it, with zeros
in a gap.
-/
namespace PaldOs

/-- `mem` with the `n` bytes from `start` on replaced by the first `n` bytes of `src`. -/
def blit (mem : ℕ → UInt8) (start n : ℕ) (src : ℕ → UInt8) : ℕ → UInt8 :=
  fun a => if start ≤ a ∧ a < start + n then src (a - start) else mem a

section Blit
variable {mem src : ℕ → UInt8} {start n a : ℕ}

theorem blit_add {i : ℕ} (h : i < n) : blit mem start n src (start + i) = src i := by
  rw [blit, if_pos ⟨by omega, by omega⟩, Nat.add_sub_cancel_left]

theorem blit_outside (h : a < start ∨ start + n ≤ a) : blit mem start n src a = mem a := by
  rw [blit, if_neg (by omega)]

end Blit

/-- `DivRoundUp`: a quotient, rounded up. -/
def divRoundUp (n s : ℕ) : ℕ := n / s + if 0 < n % s then 1 else 0

theorem divRoundUp_le_iff {n s k : ℕ} (hs : 0 < s) : divRoundUp n s ≤ k ↔ n ≤ k * s := by
  have hdiv := Nat.div_add_mod n s
  have hmod := Nat.mod_lt n hs
  rw [Nat.mul_comm] at hdiv
  unfold divRoundUp
  constructor
  · intro hle
    split at hle
    · have := Nat.mul_le_mul_right s hle
      rw [Nat.add_mul] at this
      omega
    · have := Nat.mul_le_mul_right s hle
      rw [Nat.add_zero] at this
      omega
  · intro hle
    split
    · have : n / s < k := by
        by_contra hge
        have := Nat.mul_le_mul_right s (Nat.le_of_not_lt hge)
        omega
      omega
    · have : n / s ≤ k := Nat.div_le_of_le_mul (by rw [Nat.mul_comm]; exact hle)
      omega

theorem lt_divRoundUp_iff {n s k : ℕ} (hs : 0 < s) : k < divRoundUp n s ↔ k * s < n := by
  rw [← Nat.not_le, divRoundUp_le_iff hs, Nat.not_le]

theorem le_divRoundUp_mul {s : ℕ} (hs : 0 < s) (n : ℕ) : n ≤ divRoundUp n s * s :=
  (divRoundUp_le_iff hs).mp (Nat.le_refl _)

theorem divRoundUp_mono {n m s : ℕ} (hs : 0 < s) (h : n ≤ m) :
    divRoundUp n s ≤ divRoundUp m s :=
  (divRoundUp_le_iff hs).mpr (Nat.le_trans h (le_divRoundUp_mul hs m))

/-- In a bitmap, the first of the first `n` bits that is clear. -/
theorem find_clear_eq_some_iff {b : ℕ → Bool} {n i : ℕ} :
    (List.range n).find? (fun j => !b j) = some i ↔
      i < n ∧ b i = false ∧ ∀ j, j < i → b j = true := by
  rw [List.find?_range_eq_some, List.mem_range, Bool.not_eq_true', and_left_comm]
  simp only [Bool.not_not]

theorem find_clear_eq_none_iff {b : ℕ → Bool} {n : ℕ} :
    (List.range n).find? (fun j => !b j) = none ↔ ∀ j, j < n → b j = true := by
  simp only [List.find?_eq_none, List.mem_range, Bool.not_eq_true', Bool.not_eq_false]

/-- In a bitmap, a bit that gets set is one clear bit fewer. -/
theorem countP_not_update {b : ℕ → Bool} {i : ℕ} {l : List ℕ} (hl : l.Nodup) (hi : i ∈ l)
    (hb : b i = false) :
    l.countP (fun j => !Function.update b i true j) + 1 = l.countP (fun j => !b j) := by
  induction l with
  | nil => cases hi
  | cons j l ih =>
    obtain ⟨hjl, hl⟩ := List.nodup_cons.mp hl
    by_cases hij : j = i
    · subst hij
      have hrest : l.countP (fun x => !Function.update b j true x) = l.countP (fun x => !b x) := by
        refine List.countP_congr fun x hx => ?_
        have hne : x ≠ j := by
          rintro rfl
          exact hjl hx
        simp [hne]
      rw [List.countP_cons, List.countP_cons, hrest]
      simp [hb]
    · have hrest := ih hl ((List.mem_cons.mp hi).resolve_left (Ne.symm hij))
      simp only [List.countP_cons, Function.update_of_ne hij] at hrest ⊢
      omega

/-! ## Words -/

/-- Byte `i` of a number. -/
def byteOf (n i : ℕ) : UInt8 := UInt8.ofNat (n / 256 ^ i % 256)

/-- The word at address `a`. -/
def word (mem : ℕ → UInt8) (a : ℕ) : ℕ :=
  (mem a).toNat + 256 * (mem (a + 1)).toNat + 65536 * (mem (a + 2)).toNat +
    16777216 * (mem (a + 3)).toNat

theorem word_lt (mem : ℕ → UInt8) (a : ℕ) : word mem a < 2 ^ 32 := by
  have h0 := (mem a).toNat_lt
  have h1 := (mem (a + 1)).toNat_lt
  have h2 := (mem (a + 2)).toNat_lt
  have h3 := (mem (a + 3)).toNat_lt
  unfold word
  omega

/-- The word made of the bytes of a number. -/
theorem word_eq {mem : ℕ → UInt8} {a n : ℕ} (h : ∀ i, i < 4 → mem (a + i) = byteOf n i) :
    word mem a = n % 2 ^ 32 := by
  have h0 : mem a = byteOf n 0 := h 0 (by decide)
  have h1 := h 1 (by decide)
  have h2 := h 2 (by decide)
  have h3 := h 3 (by decide)
  unfold word
  rw [h0, h1, h2, h3]
  simp only [byteOf, UInt8.toNat_ofNat', Nat.reducePow]
  omega

/-- A file of the host. -/
structure HostFile where
  length : ℕ
  byte : ℕ → UInt8

namespace HostFile

/-- A file just created. -/
def empty : HostFile := ⟨0, fun _ => 0⟩

/-- The memory `into` after a read of `size` bytes at `position` of the file into
address `start`. -/
def readAt (f : HostFile) (into : ℕ → UInt8) (start size position : ℕ) : ℕ → UInt8 :=
  blit into start (min size (f.length - position)) (fun i => f.byte (position + i))

/-- The file after a write of `size` bytes of `src` at `position`. -/
def writeAt (f : HostFile) (src : ℕ → UInt8) (size position : ℕ) : HostFile where
  length := max f.length (position + size)
  byte := blit (fun a => if a < f.length then f.byte a else 0) position size src

section ReadAt
variable {f : HostFile} {into : ℕ → UInt8} {start size position a : ℕ}

theorem readAt_apply : f.readAt into start size position a =
    if start ≤ a ∧ a < start + size ∧ position + (a - start) < f.length then
      f.byte (position + (a - start))
    else into a := by
  unfold readAt blit
  exact ite_congr (propext (by omega)) (fun _ => rfl) (fun _ => rfl)

/-- A byte read. -/
theorem readAt_add {i : ℕ} (h : i < size) (hf : position + i < f.length) :
    f.readAt into start size position (start + i) = f.byte (position + i) :=
  blit_add (by omega)

/-- A byte past the end of the file, or outside the read. -/
theorem readAt_outside (h : a < start ∨ start + size ≤ a ∨ f.length ≤ position + (a - start)) :
    f.readAt into start size position a = into a :=
  blit_outside (by omega)

end ReadAt

section WriteAt
variable {f : HostFile} {src : ℕ → UInt8} {size position a : ℕ}

theorem writeAt_byte_add {i : ℕ} (h : i < size) :
    (f.writeAt src size position).byte (position + i) = src i := by
  simp only [writeAt]
  exact blit_add h

theorem writeAt_byte_outside (h : a < position ∨ position + size ≤ a) (hf : a < f.length) :
    (f.writeAt src size position).byte a = f.byte a := by
  simp only [writeAt]
  rw [blit_outside h, if_pos hf]

end WriteAt

end HostFile
end PaldOs
