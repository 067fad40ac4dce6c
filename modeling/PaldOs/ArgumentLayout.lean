import PaldOs.Arguments
import Mathlib.Algebra.BigOperators.Group.List.Basic

/-! # The arguments on the stack

What the loops of `WriteArgs` write, on a stack that is large enough: the strings one directly
below the other, and an array of words.  `StringsAt` is the picture of the strings.  The array is
aligned by the remainder of the stack pointer as C takes it, so it may begin below the strings or
reach into the last of them.
-/
namespace PaldOs
namespace Vm

/-! ## The layout of the stack -/

/-- The bytes that strings take, with their zero bytes. -/
def stringsSize (strings : List (List UInt8)) : ℕ := (strings.map fun s => s.length + 1).sum

theorem stringsSize_cons (string : List UInt8) (strings : List (List UInt8)) :
    stringsSize (string :: strings) = string.length + 1 + stringsSize strings := by
  unfold stringsSize
  rw [List.map_cons, List.sum_cons]

/-- **Strings one below the other**, from `top` down to `bottom`, at the addresses of a list. -/
inductive StringsAt (memory : ℕ → UInt8) : ℕ → List ℤ → List (List UInt8) → ℕ → Prop
  | nil (top : ℕ) : StringsAt memory top [] [] top
  | cons {top bottom : ℕ} {p : ℤ} {ps : List ℤ} {string : List UInt8}
      {strings : List (List UInt8)} : Holds memory (toUnsigned p) string →
      toUnsigned p + (string.length + 1) = top →
      StringsAt memory (toUnsigned p) ps strings bottom →
      StringsAt memory top (p :: ps) (string :: strings) bottom

namespace StringsAt
variable {memory memory' : ℕ → UInt8} {top bottom i j : ℕ} {ps : List ℤ} {p q : ℤ}
  {string string' : List UInt8} {strings : List (List UInt8)}

theorem length_eq (h : StringsAt memory top ps strings bottom) : ps.length = strings.length := by
  induction h with
  | nil top => rfl
  | cons _ _ _ ih => rw [List.length_cons, List.length_cons, ih]

theorem size_eq (h : StringsAt memory top ps strings bottom) :
    bottom + stringsSize strings = top := by
  induction h with
  | nil top => rfl
  | cons _ htop _ ih =>
    rw [stringsSize_cons]
    omega

/-- Each is a copy, between `bottom` and `top`. -/
theorem get (h : StringsAt memory top ps strings bottom) (hp : ps[i]? = some p)
    (hs : strings[i]? = some string) : Holds memory (toUnsigned p) string ∧
      bottom ≤ toUnsigned p ∧ toUnsigned p + (string.length + 1) ≤ top := by
  induction h generalizing i with
  | nil top => simp at hs
  | cons hholds htop hrest ih =>
    cases i with
    | zero =>
      simp only [List.getElem?_cons_zero, Option.some.injEq] at hp hs
      subst hp hs
      have hsize := hrest.size_eq
      exact ⟨hholds, by omega, by omega⟩
    | succ i =>
      simp only [List.getElem?_cons_succ] at hp hs
      obtain ⟨hcopy, hlow, hhigh⟩ := ih hp hs
      exact ⟨hcopy, hlow, by omega⟩

/-- A later one is below. -/
theorem beneath (h : StringsAt memory top ps strings bottom) (hij : i < j) (hp : ps[i]? = some p)
    (hq : ps[j]? = some q) (hs : strings[j]? = some string) :
    toUnsigned q + (string.length + 1) ≤ toUnsigned p := by
  induction h generalizing i j with
  | nil top => simp at hs
  | cons hholds htop hrest ih =>
    cases j with
    | zero => cases hij
    | succ j =>
      simp only [List.getElem?_cons_succ] at hq hs
      cases i with
      | zero =>
        simp only [List.getElem?_cons_zero, Option.some.injEq] at hp
        subst hp
        exact (hrest.get hq hs).2.2
      | succ i =>
        simp only [List.getElem?_cons_succ] at hp
        exact ih (Nat.lt_of_succ_lt_succ hij) hp hq hs

/-- The last one is at `bottom`. -/
theorem last (h : StringsAt memory top ps strings bottom) (hne : strings ≠ []) :
    ∃ p string, ps[strings.length - 1]? = some p ∧
      strings[strings.length - 1]? = some string ∧ toUnsigned p = bottom := by
  induction h with
  | nil top => exact absurd rfl hne
  | @cons top bottom p ps string strings hholds htop hrest ih =>
    by_cases hnil : strings = []
    · subst hnil
      cases hrest
      exact ⟨p, string, rfl, rfl, rfl⟩
    · obtain ⟨q, last, hq, hlast, hbottom⟩ := ih hnil
      have hlen : (string :: strings).length - 1 = strings.length - 1 + 1 := by
        have hpos := List.length_pos_of_ne_nil hnil
        rw [List.length_cons]
        omega
      rw [hlen]
      exact ⟨q, last, hq, hlast, hbottom⟩

theorem congr (h : StringsAt memory top ps strings bottom)
    (heq : ∀ x, bottom ≤ x → x < top → memory' x = memory x) :
    StringsAt memory' top ps strings bottom := by
  induction h with
  | nil top => exact .nil top
  | cons hholds htop hrest ih =>
    have hsize := hrest.size_eq
    refine .cons (hholds.congr fun x hlow hhigh => heq x (by omega) (by omega)) htop
      (ih fun x hlow hhigh => heq x hlow (by omega))

end StringsAt

/-- Where the array begins. -/
theorem toUnsigned_arrayPointer (sp : ℤ) (c : ℕ) :
    (toUnsigned (arrayPointer sp c) : ℤ) =
      (toUnsigned sp - Int.tmod sp 4 - 4 * (c + 1)) % 2 ^ 32 := by
  have hinner : toUnsigned (toInt (sp - Int.tmod sp 4) - (c * 4 + 4)) =
      toUnsigned (sp - Int.tmod sp 4 - (c * 4 + 4)) := by
    have h : (toUnsigned (toInt (sp - Int.tmod sp 4)) : ℤ) = toUnsigned (sp - Int.tmod sp 4) := by
      rw [toUnsigned_toInt]
    rw [toUnsigned_cast, toUnsigned_cast] at h
    unfold toUnsigned
    omega
  rw [arrayPointer, toUnsigned_toInt, hinner, toUnsigned_cast, toUnsigned_cast]
  omega

/-- The remainder that is taken off: that of the address below `INT_MAX`, and otherwise one that
goes up. -/
theorem tmod_of_int {sp : ℤ} (hsp : toInt sp = sp) :
    Int.tmod sp 4 = if toUnsigned sp < 2 ^ 31 then ((toUnsigned sp % 4 : ℕ) : ℤ)
      else -(((2 ^ 32 - toUnsigned sp) % 4 : ℕ) : ℤ) := by
  have hlt := toUnsigned_lt sp
  have heq := toInt_eq sp
  rw [hsp] at heq
  split at heq
  · rename_i h
    rw [if_pos h]
    generalize toUnsigned sp = u at heq h
    subst heq
    exact Int.tmod_eq_emod_of_nonneg (Int.natCast_nonneg u)
  · rename_i h
    rw [if_neg h]
    generalize toUnsigned sp = u at heq h hlt
    have hneg : sp = -((2 ^ 32 - u : ℕ) : ℤ) := by omega
    rw [hneg, Int.neg_tmod, Int.tmod_eq_emod_of_nonneg (Int.natCast_nonneg _)]
    rfl

/-! ## What is written -/

/-- Two flat memories that differ at most in the bytes of thread `h` from `low` to `high`. -/
def SameOutside (mem mem' : ℕ → ℕ → UInt8) (h low high : ℕ) : Prop :=
  ∀ t x, (t = h → x < low ∨ high ≤ x) → mem' t x = mem t x

theorem SameOutside.trans {mem mem₁ mem₂ : ℕ → ℕ → UInt8} {h low high low₁ high₁ low₂ high₂ : ℕ}
    (h₁ : SameOutside mem mem₁ h low₁ high₁) (h₂ : SameOutside mem₁ mem₂ h low₂ high₂)
    (hlow₁ : low ≤ low₁) (hhigh₁ : high₁ ≤ high) (hlow₂ : low ≤ low₂) (hhigh₂ : high₂ ≤ high) :
    SameOutside mem mem₂ h low high := by
  intro t x hout
  rw [h₂ t x fun ht => ?_, h₁ t x fun ht => ?_]
  · rcases hout ht with hlt | hge
    · exact Or.inl (by omega)
    · exact Or.inr (by omega)
  · rcases hout ht with hlt | hge
    · exact Or.inl (by omega)
    · exact Or.inr (by omega)

section Written
variable {pick : Vm → Fin numPhysPages} {k : Vm} {mem : ℕ → ℕ → UInt8}
  {C : Vm → (ℕ → ℕ → UInt8) → Prop}

/-- **`WriteStringToUser`.** -/
theorem writeStringToUser_ends [Follows C] {arg : ℕ → UInt8} {string : List UInt8} {p : ℤ}
    (hi : FrameInv k none) (hc : C k mem) (hs : Savable string) (harg : Holds arg 0 string)
    (hp : p ≠ 0) (hr : k.HasRange (toUnsigned p) (string.length + 1)) :
    ∃ k' mem', writeStringToUser pick arg p k = some k' ∧ SameSpaces k k' ∧ FrameInv k' none ∧
      C k' mem' ∧ Holds (mem' k.currentThread) (toUnsigned p) string ∧
      SameOutside mem mem' k.currentThread (toUnsigned p)
        (toUnsigned p + (string.length + 1)) := by
  obtain ⟨k', hloop, hsame, hi', hc'⟩ : ∃ k', writeLoop pick arg (string.length + 1) 0
      (toUnsigned p) k = some k' ∧ _ := writeLoop_ends hi hc hr arg 0
  refine ⟨k', _, ?_, hsame, hi', hc', fun j hj => ?_, fun t x hout => ?_⟩
  · unfold writeStringToUser
    rw [if_pos hp, strlen_of_holds hs harg, Option.bind_eq_bind, Option.bind_some]
    exact hloop
  · have hbytes : ∀ z, z ≤ string.length → arg z = string.getD z 0 := by
      intro z hz
      have h := harg z hz
      rwa [Nat.zero_add] at h
    rw [Function.update_self, copied, Nat.add_sub_cancel_left, if_pos]
    · exact hbytes j hj
    · refine ⟨Nat.le_add_right _ _, by omega, fun z hz => ?_⟩
      have hlt : z < string.length := lt_of_lt_of_le hz hj
      rw [Nat.add_zero, hbytes z (le_of_lt hlt), List.getD_eq_getElem _ _ hlt]
      exact hs.nonzero _ (List.getElem_mem hlt)
  · by_cases ht : t = k.currentThread
    · subst ht
      rw [Function.update_self, copied, if_neg]
      rintro ⟨hlow, hhigh, -⟩
      rcases hout rfl with h | h <;> omega
    · rw [Function.update_of_ne ht]

/-- **The first loop of `WriteArgs`.** -/
theorem writeStrings_ends [Follows C] {args : List (ℕ → UInt8)} {strings : List (List UInt8)}
    {s : ArgsState}
    (hargs : List.Forall₂ (fun arg string => Holds arg 0 string) args strings)
    (hsavable : ∀ string, string ∈ strings → Savable string)
    (hi : FrameInv s.vm none) (hc : C s.vm mem)
    (hroom : stringsSize strings < toUnsigned s.sp)
    (haddr : ∀ x, toUnsigned s.sp ≤ x + stringsSize strings → x < toUnsigned s.sp →
      s.vm.HasAddress s.vm.currentThread x) :
    ∃ s' mem' ps ws, writeStrings pick args s = some s' ∧ SameSpaces s.vm s'.vm ∧
      FrameInv s'.vm none ∧ C s'.vm mem' ∧
      s'.argsAddress = s.argsAddress ++ ps ∧ s'.written = s.written ++ ws ∧
      StringsAt (mem' s.vm.currentThread) (toUnsigned s.sp) ps strings (toUnsigned s'.sp) ∧
      SameOutside mem mem' s.vm.currentThread (toUnsigned s'.sp) (toUnsigned s.sp) ∧
      (∀ p, p ∈ ps → toInt p = p) ∧
      (∀ a n, (a, n) ∈ ws → toUnsigned s'.sp ≤ a ∧ a + n ≤ toUnsigned s.sp) ∧
      ∀ x, toUnsigned s'.sp ≤ x → x < toUnsigned s.sp → ∃ a n, (a, n) ∈ ws ∧ a ≤ x ∧ x < a + n := by
  induction hargs generalizing s mem with
  | nil =>
    refine ⟨s, mem, [], [], rfl, ⟨rfl, fun _ => rfl⟩, hi, hc, by simp, by simp, .nil _,
      fun _ _ _ => rfl, by simp, by simp, ?_⟩
    intro x hlow hhigh
    omega
  | @cons arg string args strings harg hrest ih =>
    rw [stringsSize_cons] at hroom haddr
    have hs : Savable string := hsavable string List.mem_cons_self
    have hu : toUnsigned (toInt (s.sp - ((string.length + 1 : ℕ) : ℤ))) =
        toUnsigned s.sp - (string.length + 1) := by
      rw [toUnsigned_toInt]
      exact toUnsigned_sub (by omega)
    generalize hspdef : toInt (s.sp - ((string.length + 1 : ℕ) : ℤ)) = sp at hu
    have hsp : sp ≠ 0 := by
      rintro rfl
      have hzero : toUnsigned 0 = 0 := rfl
      omega
    have hr : s.vm.HasRange (toUnsigned sp) (string.length + 1) := by
      intro j hj
      exact haddr _ (by omega) (by omega)
    obtain ⟨k₁, mem₁, hwrite, hs₁, hi₁, hc₁, hholds, hout⟩ :
        ∃ k₁ mem₁, writeStringToUser pick arg sp s.vm = some k₁ ∧ _ :=
      writeStringToUser_ends hi hc hs harg hsp hr
    obtain ⟨s', mem', ps, ws, hloop, hs', hi', hc', hps, hws, hat, hout', hint, hin, hcover⟩ :=
      ih (s := ⟨sp, s.argsAddress ++ [sp], s.written ++ [(toUnsigned sp, string.length + 1)], k₁⟩)
        (fun x hx => hsavable x (List.mem_cons_of_mem _ hx)) hi₁ hc₁ (by dsimp only; omega)
        (fun x hlow hhigh => by
          dsimp only at hlow hhigh ⊢
          rw [hs₁.current, hs₁.hasAddress]
          exact haddr x (by omega) (by omega))
    dsimp only at hs' hps hws hat hout' hin hcover
    rw [hs₁.current] at hat hout'
    have hsize := hat.size_eq
    refine ⟨s', mem', sp :: ps, (toUnsigned sp, string.length + 1) :: ws, ?_, hs₁.trans hs', hi',
      hc', by rw [hps]; simp, by rw [hws]; simp, .cons (hholds.congr ?_) (by omega) hat,
      hout.trans hout' (by omega) (by omega) (le_refl _) (by omega), ?_, ?_, ?_⟩
    · rw [writeStrings, strlen_of_holds hs harg, Option.bind_eq_bind, Option.bind_some]
      have hcast : s.sp - ((string.length : ℤ) + 1) =
          s.sp - ((string.length + 1 : ℕ) : ℤ) := by omega
      dsimp only
      rw [hcast, hspdef, hwrite]
      exact hloop
    · intro x hlow hhigh
      exact hout' _ x fun _ => Or.inr hlow
    · intro p hp
      rcases List.mem_cons.mp hp with rfl | hp
      · rw [← hspdef]
        exact toInt_toInt _
      · exact hint p hp
    · intro a n ha
      rcases List.mem_cons.mp ha with heq | ha
      · cases heq
        omega
      · have := hin a n ha
        omega
    · intro x hlow hhigh
      by_cases hx : x < toUnsigned sp
      · obtain ⟨a, n, ha, h⟩ := hcover x hlow hx
        exact ⟨a, n, List.mem_cons_of_mem _ ha, h⟩
      · exact ⟨_, _, List.mem_cons_self, by omega, by omega⟩

/-- **The second loop of `WriteArgs`.** -/
theorem writePointers_ends [Follows C] {pointers : List ℤ} {i : ℕ} {s : ArgsState}
    (hi : FrameInv s.vm none) (hc : C s.vm mem) (haligned : toUnsigned s.sp % 4 = 0)
    (hfits : toUnsigned s.sp + 4 * (i + pointers.length) ≤ 2 ^ 32)
    (haddr : ∀ x, toUnsigned s.sp + 4 * i ≤ x →
      x < toUnsigned s.sp + 4 * (i + pointers.length) →
      s.vm.HasAddress s.vm.currentThread x) :
    ∃ s' mem' ws, writePointers pick pointers i s = some s' ∧ SameSpaces s.vm s'.vm ∧
      FrameInv s'.vm none ∧ C s'.vm mem' ∧ s'.sp = s.sp ∧ s'.written = s.written ++ ws ∧
      SameOutside mem mem' s.vm.currentThread (toUnsigned s.sp + 4 * i)
        (toUnsigned s.sp + 4 * (i + pointers.length)) ∧
      (∀ j p, pointers[j]? = some p → Width.word.load (mem' s.vm.currentThread)
        (toUnsigned s.sp + 4 * (i + j)) = toInt p) ∧
      ∀ a n, (a, n) ∈ ws ↔ n = 4 ∧
        ∃ j, j < pointers.length ∧ a = toUnsigned s.sp + 4 * (i + j) := by
  induction pointers generalizing s mem i with
  | nil =>
    refine ⟨s, mem, [], rfl, ⟨rfl, fun _ => rfl⟩, hi, hc, rfl, by simp, fun _ _ _ => rfl,
      by simp, by simp⟩
  | cons pointer pointers ih =>
    rw [List.length_cons] at hfits haddr
    have hu : toUnsigned (s.sp + 4 * i) = toUnsigned s.sp + 4 * i := by
      have hlt : toUnsigned s.sp + 4 * i < 2 ^ 32 := by omega
      exact toUnsigned_add (n := 4 * i) hlt
    have hr : s.vm.InRange (toUnsigned (s.sp + 4 * i)) .word := by
      rw [hu]
      refine ⟨?_, haddr _ (le_refl _) (by omega)⟩
      have hfour : Width.word.bytes = 4 := rfl
      rw [hfour]
      omega
    obtain ⟨k₁, hwrite, hs₁, hi₁, hc₁⟩ : ∃ k₁, tryWriteWord pick pointer (numberOfTries + 1)
        (toUnsigned (s.sp + 4 * i)) s.vm = some k₁ ∧ _ := tryWriteWord_ends hi hc hr pointer
    obtain ⟨s', mem', ws, hloop, hs', hi', hc', hsp, hws, hout, hword, hin⟩ :=
      ih (s := ⟨s.sp, s.argsAddress, s.written ++ [(toUnsigned (s.sp + 4 * i), 4)], k₁⟩)
        (i := i + 1) hi₁ hc₁ haligned (by dsimp only; omega)
        (fun x hlow hhigh => by
          dsimp only at hlow hhigh ⊢
          rw [hs₁.current, hs₁.hasAddress]
          exact haddr x (by omega) (by omega))
    dsimp only at hs' hsp hws hout hword hin
    rw [hs₁.current] at hout hword
    have hfour : Width.word.bytes = 4 := rfl
    refine ⟨s', mem', (toUnsigned (s.sp + 4 * i), 4) :: ws, ?_, hs₁.trans hs', hi', hc', hsp,
      by rw [hws]; simp, ?_, ?_, ?_⟩
    · rw [writePointers, hwrite]
      exact hloop
    · intro t x hx
      rw [List.length_cons] at hx
      rw [hout t x fun ht => ?_]
      · by_cases ht : t = s.vm.currentThread
        · subst ht
          rw [Function.update_self]
          apply blit_outside
          rw [hu, hfour]
          rcases hx rfl with h | h
          · exact Or.inl h
          · exact Or.inr (by omega)
        · rw [Function.update_of_ne ht]
      · rcases hx ht with h | h
        · exact Or.inl (by omega)
        · exact Or.inr (by omega)
    · intro j p hp
      cases j with
      | zero =>
        simp only [List.getElem?_cons_zero, Option.some.injEq] at hp
        subst hp
        rw [Nat.add_zero, ← word_load_store (mem s.vm.currentThread) (toUnsigned s.sp + 4 * i)
          pointer]
        refine Width.load_congr fun b hb => ?_
        rw [hout _ _ fun _ => Or.inl (by omega), Function.update_self, hu]
      | succ j =>
        simp only [List.getElem?_cons_succ] at hp
        have hidx : i + (j + 1) = i + 1 + j := by omega
        rw [hidx]
        exact hword j p hp
    · intro a n
      rw [List.mem_cons, hin, hu, List.length_cons]
      constructor
      · rintro (heq | ⟨hn, j, hj, ha⟩)
        · cases heq
          exact ⟨rfl, 0, Nat.succ_pos _, rfl⟩
        · exact ⟨hn, j + 1, Nat.succ_lt_succ hj, by omega⟩
      · rintro ⟨rfl, j, hj, rfl⟩
        cases j with
        | zero => exact Or.inl rfl
        | succ j => exact Or.inr ⟨rfl, j, Nat.lt_of_succ_lt_succ hj, by omega⟩

/-- What the loops do to the stack pointer, however they end. -/
theorem writeStrings_sp {args : List (ℕ → UInt8)} {strings : List (List UInt8)} {s s' : ArgsState}
    (hargs : List.Forall₂ (fun arg string => Holds arg 0 string) args strings)
    (hsavable : ∀ string, string ∈ strings → Savable string) (hsp : toInt s.sp = s.sp)
    (h : writeStrings pick args s = some s') :
    s'.sp = toInt (s.sp - stringsSize strings) ∧
      s'.argsAddress.length = s.argsAddress.length + strings.length := by
  induction hargs generalizing s with
  | nil =>
    cases h
    refine ⟨?_, rfl⟩
    have hzero : stringsSize [] = 0 := rfl
    rw [hzero, Nat.cast_zero, sub_zero, hsp]
  | @cons arg string args strings harg hrest ih =>
    rw [writeStrings, strlen_of_holds (hsavable string List.mem_cons_self) harg,
      Option.bind_eq_bind, Option.bind_some] at h
    obtain ⟨vm, -, hloop⟩ := Option.bind_eq_some_iff.mp h
    obtain ⟨hsp', hlen⟩ := ih (fun x hx => hsavable x (List.mem_cons_of_mem _ hx))
      (toInt_toInt _) hloop
    dsimp only at hsp' hlen
    rw [List.length_append, List.length_singleton] at hlen
    refine ⟨?_, by rw [hlen, List.length_cons]; omega⟩
    rw [hsp', stringsSize_cons, toInt_toInt_sub]
    congr 1
    omega

theorem writePointers_sp {pointers : List ℤ} {i : ℕ} {s s' : ArgsState}
    (h : writePointers pick pointers i s = some s') :
    s'.sp = s.sp ∧ (∀ w, w ∈ s.written → w ∈ s'.written) ∧
      ∀ j, j < pointers.length → (toUnsigned (s.sp + 4 * ((i + j : ℕ) : ℤ)), 4) ∈ s'.written := by
  induction pointers generalizing s i with
  | nil =>
    cases h
    exact ⟨rfl, fun _ hw => hw, fun j hj => absurd hj (Nat.not_lt_zero j)⟩
  | cons pointer pointers ih =>
    rw [writePointers] at h
    obtain ⟨vm, -, hloop⟩ := Option.bind_eq_some_iff.mp h
    obtain ⟨hsp, hkeep, hall⟩ := ih hloop
    dsimp only at hsp hkeep hall
    refine ⟨hsp, fun w hw => hkeep w (List.mem_append_left _ hw), fun j hj => ?_⟩
    cases j with
    | zero => exact hkeep _ (List.mem_append_right _ (List.mem_singleton_self _))
    | succ j =>
      have hidx : i + (j + 1) = i + 1 + j := by omega
      rw [hidx]
      exact hall j (Nat.lt_of_succ_lt_succ hj)

/-- **However `WriteArgs` ends**, it leaves the stack pointer below the strings and the array, and
has written the null word. -/
theorem writeArgs_sp {args : List (ℕ → UInt8)} {strings : List (List UInt8)} {sp : ℤ} {c : ℕ}
    {s : ArgsState} (hargs : List.Forall₂ (fun arg string => Holds arg 0 string) args strings)
    (hsavable : ∀ string, string ∈ strings → Savable string) (hsp : toInt sp = sp)
    (h : writeArgs pick args sp k = some (c, s)) :
    c = strings.length ∧
      s.sp = arrayPointer (toInt (sp - stringsSize strings)) strings.length ∧
      (toUnsigned (s.sp + 4 * (strings.length : ℤ)), 4) ∈ s.written := by
  have hlen := hargs.length_eq
  obtain ⟨s₁, hstrings, h⟩ := Option.bind_eq_some_iff.mp h
  obtain ⟨hsp₁, haddrs⟩ := writeStrings_sp hargs hsavable hsp hstrings
  dsimp only at hsp₁ haddrs
  split at h
  · obtain ⟨s₂, hpointers, h⟩ := Option.bind_eq_some_iff.mp h
    obtain ⟨hsp₂, -, hall⟩ := writePointers_sp hpointers
    cases h
    dsimp only at hsp₂ hall
    rw [hsp₁, hlen] at hsp₂
    refine ⟨hlen, hsp₂, ?_⟩
    have hlast := hall strings.length (by simp [haddrs])
    rw [hsp₁, hlen, Nat.zero_add] at hlast
    rw [hsp₂]
    exact hlast
  · cases h

/-- What a call of `WriteArgs` leaves: the strings from `top` down to `bottom`, the array at
`array`, and the flat memories after the strings and at the end. -/
structure Pushed (C : Vm → (ℕ → ℕ → UInt8) → Prop) (k : Vm) (mem mem₁ mem' : ℕ → ℕ → UInt8)
    (strings : List (List UInt8))
    (ps : List ℤ) (top bottom array : ℕ) (s : ArgsState) : Prop where
  same : SameSpaces k s.vm
  frames : FrameInv s.vm none
  content : C s.vm mem'
  sp : toUnsigned s.sp = array
  stringsAt : StringsAt (mem₁ k.currentThread) top ps strings bottom
  first : SameOutside mem mem₁ k.currentThread bottom top
  second : SameOutside mem₁ mem' k.currentThread array (array + 4 * (strings.length + 1))
  pointer : ∀ i p, ps[i]? = some p →
    Width.word.load (mem' k.currentThread) (array + 4 * i) = p
  null : Width.word.load (mem' k.currentThread) (array + 4 * strings.length) = 0
  within : ∀ a n, (a, n) ∈ s.written →
    bottom ≤ a ∧ a + n ≤ top ∨ array ≤ a ∧ a + n ≤ array + 4 * (strings.length + 1)
  covered : ∀ x, bottom ≤ x ∧ x < top ∨ array ≤ x ∧ x < array + 4 * (strings.length + 1) →
    ∃ a n, (a, n) ∈ s.written ∧ a ≤ x ∧ x < a + n

/-- What the remainder does to an address. -/
theorem tmod_cases {sp : ℤ} (hsp : toInt sp = sp) :
    (toUnsigned sp < 2 ^ 31 ∧ Int.tmod sp 4 = (toUnsigned sp % 4 : ℕ)) ∨
      (2 ^ 31 ≤ toUnsigned sp ∧
        Int.tmod sp 4 = -(((2 ^ 32 - toUnsigned sp) % 4 : ℕ) : ℤ)) := by
  have h := tmod_of_int hsp
  split at h
  · exact Or.inl ⟨by assumption, h⟩
  · exact Or.inr ⟨by omega, h⟩

/-- **`WriteArgs` on a stack that is large enough.** -/
theorem writeArgs_ends [Follows C] {args : List (ℕ → UInt8)} {strings : List (List UInt8)}
    {sp : ℤ} {bottom array : ℕ}
    (hargs : List.Forall₂ (fun arg string => Holds arg 0 string) args strings)
    (hsavable : ∀ string, string ∈ strings → Savable string)
    (hcount : strings.length < SystemCalls.maxArgCount) (hsp : toInt sp = sp)
    (hi : FrameInv k none) (hc : C k mem)
    (hbottom : bottom + stringsSize strings = toUnsigned sp)
    (harray : (array : ℤ) =
      bottom - Int.tmod (toInt (sp - stringsSize strings)) 4 - 4 * (strings.length + 1))
    (hbelow : array + 4 * (strings.length + 1) ≤ toUnsigned sp)
    (haddr : ∀ x, array ≤ x → x < toUnsigned sp → k.HasAddress k.currentThread x) :
    ∃ s mem₁ mem' ps, writeArgs pick args sp k = some (strings.length, s) ∧
      Pushed C k mem mem₁ mem' strings ps (toUnsigned sp) bottom array s := by
  have hlt := toUnsigned_lt sp
  have hint : toInt (toInt (sp - stringsSize strings)) = toInt (sp - stringsSize strings) :=
    toInt_toInt _
  have hu : toUnsigned (toInt (sp - stringsSize strings)) = bottom := by
    rw [toUnsigned_toInt, toUnsigned_sub (by omega)]
    omega
  have hmod := tmod_cases hint
  rw [hu] at hmod
  obtain ⟨s₁, mem₁, ps, ws₁, hstrings, hs₁, hi₁, hc₁, hps, hws₁, hat, hfirst, hints, hin₁,
      hcover₁⟩ : ∃ s₁ mem₁ ps ws₁, writeStrings pick args ⟨sp, [], [], k⟩ = some s₁ ∧ _ :=
    writeStrings_ends hargs hsavable hi hc (by dsimp only; omega)
      (fun x hlow hhigh => haddr x (by dsimp only at hlow; omega) hhigh)
  obtain ⟨hsp₁, -⟩ := writeStrings_sp hargs hsavable hsp hstrings
  dsimp only at hsp₁ hs₁ hps hws₁ hat hfirst hin₁ hcover₁
  rw [List.nil_append] at hps hws₁
  subst hps
  rw [hsp₁, hu] at hat hfirst hin₁ hcover₁
  have hlen := hargs.length_eq
  have hpointers : (s₁.argsAddress ++ [0]).length = strings.length + 1 := by
    rw [List.length_append, List.length_singleton, hat.length_eq]
  have hua : toUnsigned (arrayPointer s₁.sp args.length) = array := by
    have h := toUnsigned_arrayPointer s₁.sp args.length
    rw [hsp₁, hu, hlen] at h
    rw [hsp₁, hlen]
    omega
  obtain ⟨s₂, mem', ws₂, hloop, hs₂, hi₂, hc₂, hsp₂, hws₂, hsecond, hword, hin₂⟩ :
      ∃ s₂ mem' ws₂, writePointers pick (s₁.argsAddress ++ [0]) 0
        { s₁ with sp := arrayPointer s₁.sp args.length } = some s₂ ∧ _ := by
    refine writePointers_ends hi₁ hc₁ ?_ ?_ ?_
    · dsimp only
      rw [hua]
      omega
    · dsimp only
      rw [hua, hpointers]
      omega
    · intro x hlow hhigh
      dsimp only at hlow hhigh ⊢
      rw [hua] at hlow hhigh
      rw [hpointers] at hhigh
      rw [hs₁.current, hs₁.hasAddress]
      exact haddr x (by omega) (by omega)
  dsimp only at hs₂ hsp₂ hws₂ hsecond hword hin₂
  rw [hua, hs₁.current] at hsecond hword
  rw [hua] at hin₂
  rw [hpointers] at hsecond hin₂
  refine ⟨s₂, mem₁, mem', s₁.argsAddress, ?_, hs₁.trans hs₂, hi₂, hc₂, ?_, hat, hfirst, ?_, ?_, ?_,
    ?_, ?_⟩
  · unfold writeArgs
    rw [hstrings, Option.bind_eq_bind, Option.bind_some, if_pos (by rw [hlen]; exact hcount),
      hloop, hlen]
    rfl
  · rw [hsp₂, hua]
  · simpa using hsecond
  · intro i p hp
    obtain ⟨hi, -⟩ := List.getElem?_eq_some_iff.mp hp
    have h := hword i p (by rw [List.getElem?_append_left hi, hp])
    rw [Nat.zero_add, hints p (List.mem_of_getElem? hp)] at h
    exact h
  · have h := hword strings.length 0 (by
      rw [← hat.length_eq, List.getElem?_append_right (le_refl _), Nat.sub_self]
      rfl)
    rw [Nat.zero_add] at h
    exact h
  · intro a n ha
    rw [hws₂, hws₁] at ha
    rcases List.mem_append.mp ha with ha | ha
    · exact Or.inl (hin₁ a n ha)
    · obtain ⟨rfl, j, hj, rfl⟩ := (hin₂ a n).mp ha
      right
      omega
  · intro x hx
    rw [hws₂, hws₁]
    rcases hx with ⟨hlow, hhigh⟩ | ⟨hlow, hhigh⟩
    · obtain ⟨a, n, ha, h⟩ := hcover₁ x hlow hhigh
      exact ⟨a, n, List.mem_append_left _ ha, h⟩
    · refine ⟨array + 4 * ((x - array) / 4), 4, List.mem_append_right _ ?_, by omega, by omega⟩
      rw [hin₂]
      exact ⟨rfl, (x - array) / 4, by omega, by omega⟩

end Written

end Vm
end PaldOs
