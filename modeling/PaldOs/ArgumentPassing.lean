import PaldOs.ArgumentLayout
import PaldOs.ReadCall

/-! # Arguments passed to a program

What `SaveArgs` copied arrives in the new process as it was if and only if the array of pointers
does not reach into the strings.  And it stays on the stack if and only if it is small enough:
`MAX_ARG_COUNT` and `MAX_ARG_LENGTH` allow more than `USER_STACK_SIZE`.
-/
namespace PaldOs
namespace Vm

/-! ## Arguments that arrive -/

/-- Two ranges of bytes have none in common. -/
def Apart (a n b m : ℕ) : Prop := a + n ≤ b ∨ b + m ≤ a

/-- The `i`th pointer of the array that `STACK_REG` points to. -/
def ArgsState.pointer (s : ArgsState) (i : ℕ) : ℕ :=
  toUnsigned (s.vm.userWord (toUnsigned s.sp + 4 * i))

/-- **The arguments have arrived**: `WriteArgs` returned their number `c`; the array at the aligned
address in `STACK_REG` points to copies of all of them and ends with a null word; nothing overlaps;
all that was written is below `top`; and no other byte of any process has changed. -/
structure Passed (k : Vm) (strings : List (List UInt8)) (top c : ℕ) (s : ArgsState) : Prop where
  count : c = strings.length
  aligned : toUnsigned s.sp % 4 = 0
  array : s.vm.HasRange (toUnsigned s.sp) (4 * (strings.length + 1))
  null : s.vm.userWord (toUnsigned s.sp + 4 * strings.length) = 0
  copies : ∀ (i : ℕ) (string : List UInt8), strings[i]? = some string →
    s.vm.HasRange (s.pointer i) (string.length + 1) ∧
      Holds (s.vm.userByte s.vm.currentThread) (s.pointer i) string
  apart : ∀ (i j : ℕ) (string string' : List UInt8), i ≠ j → strings[i]? = some string →
    strings[j]? = some string' →
    Apart (s.pointer i) (string.length + 1) (s.pointer j) (string'.length + 1)
  off : ∀ (i : ℕ) (string : List UInt8), strings[i]? = some string →
    Apart (s.pointer i) (string.length + 1) (toUnsigned s.sp) (4 * (strings.length + 1))
  below : ∀ a n, (a, n) ∈ s.written → a + n ≤ top
  kept : ∀ h x, k.HasAddress h x →
    (h = k.currentThread → ∀ a n, (a, n) ∈ s.written → x < a ∨ a + n ≤ x) →
    s.vm.userByte h x = k.userByte h x

/-- What the arguments take below `top`: the strings, up to 3 bytes to align, and the array. -/
def argsSize (strings : List (List UInt8)) (top : ℕ) : ℕ :=
  stringsSize strings + (top - stringsSize strings) % 4 + 4 * (strings.length + 1)

/-- The memory below `top` is large enough. -/
def LargeEnough (k : Vm) (strings : List (List UInt8)) (top : ℕ) : Prop :=
  argsSize strings top ≤ top ∧
    ∀ x, top ≤ x + argsSize strings top → x < top → k.HasAddress k.currentThread x

section Arrive
variable {pick : Vm → Fin numPhysPages} {k : Vm} {mem mem₁ mem' : ℕ → ℕ → UInt8}
  {strings : List (List UInt8)} {ps : List ℤ} {top bottom array : ℕ} {s : ArgsState}

/-- The words of the array are the addresses of the strings. -/
theorem Pushed.pointer_eq (h : Pushed Content k mem mem₁ mem' strings ps top bottom array s)
    (haligned : array % 4 = 0) (haddr : ∀ x, array ≤ x → x < top → k.HasAddress k.currentThread x)
    (hbelow : array + 4 * (strings.length + 1) ≤ top) {i : ℕ} {p : ℤ} (hp : ps[i]? = some p) :
    s.pointer i = toUnsigned p := by
  obtain ⟨hlt, -⟩ := List.getElem?_eq_some_iff.mp hp
  rw [h.stringsAt.length_eq] at hlt
  have hr : s.vm.InRange (array + 4 * i) .word := by
    refine ⟨?_, ?_⟩
    · have hfour : Width.word.bytes = 4 := rfl
      rw [hfour]
      omega
    · exact (h.same.hasAddress.mpr (h.same.current ▸ haddr _ (by omega) (by omega)))
  unfold ArgsState.pointer
  rw [h.sp, h.content.userWord_eq h.frames hr, h.same.current, h.pointer i p hp]

/-- **Strings and array do not overlap if the array ends below the strings.** -/
theorem Pushed.passed (h : Pushed Content k mem mem₁ mem' strings ps top bottom array s)
    (hi : FrameInv k none) (hc : Content k mem) (haligned : array % 4 = 0)
    (haddr : ∀ x, array ≤ x → x < top → k.HasAddress k.currentThread x)
    (hapart : array + 4 * (strings.length + 1) ≤ bottom) :
    Passed k strings top strings.length s := by
  have hsize := h.stringsAt.size_eq
  have hptr := fun {i : ℕ} {p : ℤ} => h.pointer_eq haligned haddr (by omega) (i := i) (p := p)
  have hat : StringsAt (mem' k.currentThread) top ps strings bottom :=
    h.stringsAt.congr fun x hlow _ => h.second _ x fun _ => Or.inr (by omega)
  have hhas : ∀ x, array ≤ x → x < top → s.vm.HasAddress s.vm.currentThread x := by
    intro x hlow hhigh
    rw [h.same.current, h.same.hasAddress]
    exact haddr x hlow hhigh
  have hget : ∀ (i : ℕ) (string : List UInt8), strings[i]? = some string →
      ∃ p, ps[i]? = some p ∧ s.pointer i = toUnsigned p := by
    intro i string hstring
    obtain ⟨hlt, -⟩ := List.getElem?_eq_some_iff.mp hstring
    rw [← hat.length_eq] at hlt
    exact ⟨ps[i], List.getElem?_eq_getElem hlt, hptr (List.getElem?_eq_getElem hlt)⟩
  refine ⟨rfl, by rw [h.sp]; exact haligned, ?_, ?_, ?_, ?_, ?_, ?_, ?_⟩
  · intro j hj
    rw [h.sp]
    exact hhas _ (by omega) (by omega)
  · have hr : s.vm.InRange (array + 4 * strings.length) .word := by
      refine ⟨?_, hhas _ (by omega) (by omega)⟩
      have hfour : Width.word.bytes = 4 := rfl
      rw [hfour]
      omega
    rw [h.sp, h.content.userWord_eq h.frames hr, h.same.current, h.null]
  · intro i string hstring
    obtain ⟨p, hp, heq⟩ := hget i string hstring
    obtain ⟨hholds, hlow, hhigh⟩ := hat.get hp hstring
    have hr : s.vm.HasRange (toUnsigned p) (string.length + 1) :=
      fun j hj => hhas _ (by omega) (by omega)
    rw [heq, h.content.holds_iff h.frames hr, h.same.current]
    exact ⟨hr, hholds⟩
  · intro i j string string' hne hi' hj'
    obtain ⟨p, hp, heqp⟩ := hget i string hi'
    obtain ⟨q, hq, heqq⟩ := hget j string' hj'
    rw [heqp, heqq]
    rcases Nat.lt_or_gt_of_ne hne with hlt | hgt
    · exact Or.inr (hat.beneath hlt hp hq hj')
    · exact Or.inl (hat.beneath hgt hq hp hi')
  · intro i string hstring
    obtain ⟨p, hp, heq⟩ := hget i string hstring
    obtain ⟨-, hlow, -⟩ := hat.get hp hstring
    rw [heq, h.sp]
    exact Or.inr (by omega)
  · intro a n ha
    rcases h.within a n ha with hin | hin <;> omega
  · intro t x hx hout
    rw [h.content.userByte_eq h.frames (h.same.hasAddress.mpr hx), hc.userByte_eq hi hx]
    have hnot : t = k.currentThread → ¬ (bottom ≤ x ∧ x < top ∨
        array ≤ x ∧ x < array + 4 * (strings.length + 1)) := by
      intro ht hin
      obtain ⟨a, n, ha, hle, hlt⟩ := h.covered x hin
      have := hout ht a n ha
      omega
    rw [h.second t x fun ht => ?_, h.first t x fun ht => ?_]
    · have := hnot ht
      omega
    · have := hnot ht
      omega

/-- **When the arguments arrive**: where the address below the strings is at most `INT_MAX`, or
aligned already. -/
theorem passed_iff {args : List (ℕ → UInt8)} {sp : ℤ}
    (hargs : List.Forall₂ (fun arg string => Holds arg 0 string) args strings)
    (hsavable : ∀ string, string ∈ strings → Savable string)
    (hcount : strings.length < SystemCalls.maxArgCount) (hsp : toInt sp = sp)
    (hi : FrameInv k none) (hc : Content k mem) (hroom : k.LargeEnough strings (toUnsigned sp)) :
    (∃ c s, writeArgs pick args sp k = some (c, s) ∧
        Passed k strings (toUnsigned sp) c s) ↔
      toUnsigned sp - stringsSize strings < 2 ^ 31 ∨
        (toUnsigned sp - stringsSize strings) % 4 = 0 := by
  obtain ⟨hsize, haddr⟩ := hroom
  have hlt := toUnsigned_lt sp
  unfold argsSize at hsize haddr
  obtain ⟨bottom, hbottom⟩ : ∃ bottom, bottom + stringsSize strings = toUnsigned sp :=
    ⟨toUnsigned sp - stringsSize strings, by omega⟩
  have hu : toUnsigned (toInt (sp - stringsSize strings)) = bottom := by
    rw [toUnsigned_toInt, toUnsigned_sub (by omega)]
    omega
  have hmod := tmod_cases (toInt_toInt (sp - stringsSize strings))
  rw [hu] at hmod
  have hsub : toUnsigned sp - stringsSize strings = bottom := by omega
  rw [hsub] at hsize haddr ⊢
  constructor
  · rintro ⟨c, s, hrun, hpassed⟩
    by_contra hnot
    have hneg : Int.tmod (toInt (sp - stringsSize strings)) 4 =
        -(((2 ^ 32 - bottom) % 4 : ℕ) : ℤ) := by
      rcases hmod with ⟨hsmall, -⟩ | ⟨-, h⟩
      · exact absurd (Or.inl hsmall) hnot
      · exact h
    obtain ⟨array, harray⟩ : ∃ array : ℕ, (array : ℤ) =
        bottom - Int.tmod (toInt (sp - stringsSize strings)) 4 - 4 * (strings.length + 1) :=
      ⟨bottom + (2 ^ 32 - bottom) % 4 - 4 * (strings.length + 1), by omega⟩
    by_cases hbelow : array + 4 * (strings.length + 1) ≤ toUnsigned sp
    · -- the array reaches into the last string
      obtain ⟨s', mem₁, mem', ps, hrun', hpushed⟩ : ∃ s' mem₁ mem' ps,
          writeArgs pick args sp k = some (strings.length, s') ∧ _ :=
        writeArgs_ends hargs hsavable hcount hsp hi hc hbottom harray hbelow
          fun x hlow hhigh => haddr x (by omega) hhigh
      obtain ⟨-, rfl⟩ := Prod.mk.inj (Option.some.inj (hrun.symm.trans hrun'))
      have hne : strings ≠ [] := by
        rintro rfl
        have hzero : stringsSize [] = 0 := rfl
        simp only [List.length_nil] at hbelow harray
        omega
      obtain ⟨p, string, hp, hstring, hlast⟩ := hpushed.stringsAt.last hne
      have hptr := hpushed.pointer_eq (by omega)
        (fun x hlow hhigh => haddr x (by omega) hhigh) hbelow hp
      have hoff := hpassed.off _ _ hstring
      unfold Apart at hoff
      rw [hptr, hlast, hpushed.sp] at hoff
      omega
    · -- the null word is written above
      obtain ⟨-, hsp', hnull⟩ := writeArgs_sp hargs hsavable hsp hrun
      have hin := hpassed.below _ _ hnull
      have hua : toUnsigned s.sp = array := by
        have h := toUnsigned_arrayPointer (toInt (sp - stringsSize strings)) strings.length
        rw [← hsp', hu] at h
        omega
      have hlast : toUnsigned (s.sp + 4 * (strings.length : ℤ)) = array + 4 * strings.length := by
        have h := toUnsigned_add (x := s.sp) (n := 4 * strings.length)
        rw [hua] at h
        exact h (by omega)
      rw [hlast] at hin
      omega
  · intro hcond
    obtain ⟨array, harray⟩ : ∃ array : ℕ, (array : ℤ) =
        bottom - Int.tmod (toInt (sp - stringsSize strings)) 4 - 4 * (strings.length + 1) :=
      ⟨bottom - bottom % 4 - 4 * (strings.length + 1), by omega⟩
    obtain ⟨s, mem₁, mem', ps, hrun, hpushed⟩ : ∃ s mem₁ mem' ps,
        writeArgs pick args sp k = some (strings.length, s) ∧ _ :=
      writeArgs_ends hargs hsavable hcount hsp hi hc hbottom harray (by omega)
        fun x hlow hhigh => haddr x (by omega) hhigh
    exact ⟨_, s, hrun, hpushed.passed hi hc (by omega)
      (fun x hlow hhigh => haddr x (by omega) hhigh) (by omega)⟩

end Arrive

/-! ## Arguments on the stack -/

/-- `InitRegisters`, about `STACK_REG`. -/
def initRegisters (s : AddressSpace) : ℤ := toInt ((s.numPages * pageSize : ℕ) - 16)

/-- The state in which the program begins: registers 4, 5 and `STACK_REG`, and what was written. -/
structure Started where
  r4 : ℕ
  r5 : ℤ
  stackReg : ℤ
  written : List (ℕ × ℕ)
  vm : Vm

/-- `StartProcess`, up to the jump to the program. -/
def startProcess (pick : Vm → Fin numPhysPages) (argv : Option (List (ℕ → UInt8))) (k : Vm) :
    Option Started := do
  let s ← k.space k.currentThread
  let stackReg := initRegisters s
  let k := k.restoreState
  match argv with
  | none => return ⟨0, 0, stackReg, [], k⟩
  | some args =>
      let (argc, a) ← writeArgs pick args stackReg k
      if argc ≠ 0 then return ⟨argc, a.sp, toInt (a.sp - 24), a.written, a.vm⟩
      else return ⟨argc, 0, a.sp, a.written, a.vm⟩

/-- **All that was written, and the stack pointer, are in the last `USER_STACK_SIZE` bytes** of an
address space that ends at `top`. -/
def OnStack (top : ℕ) (r : Started) : Prop :=
  (∀ a n, (a, n) ∈ r.written → top ≤ a + userStackSize ∧ a + n ≤ top) ∧
    top ≤ toUnsigned r.stackReg + userStackSize ∧ toUnsigned r.stackReg < top

/-- The bytes of the arguments, with their zero bytes. -/
def argsBytes (args : List (ℕ → UInt8)) : ℕ :=
  (args.map fun arg => (strlen arg).getD 0 + 1).sum

/-- **The stack that is used**: 16 bytes that `InitRegisters` leaves free, the strings, what is
taken off to align, the array, and 24 bytes if there is an argument. -/
def stackUse (args : List (ℕ → UInt8)) (top : ℕ) : ℤ :=
  16 + argsBytes args + Int.tmod (toInt ((top : ℤ) - 16 - argsBytes args)) 4 +
    4 * (args.length + 1) + if args = [] then 0 else 24

section Saves
variable {pick : Vm → Fin numPhysPages} {k k' : Vm}

/-- At most 31 arguments are saved. -/
theorem countLoop_lt {address : ℤ} {left c n : ℕ} {val : ℤ}
    (h : countLoop pick address left c val k = some (some n, k')) : n < c + left := by
  induction left generalizing c val k with
  | zero => cases h
  | succ left ih =>
    rw [countLoop] at h
    obtain ⟨r, -, h⟩ := Option.bind_eq_some_iff.mp h
    dsimp only at h
    split at h
    · have := ih h
      omega
    · cases h
      omega

theorem saveLoop_length {strAddr temp address : ℤ} {heap : ℕ → ℕ → UInt8} {left i : ℕ}
    {args : List (ℕ → UInt8)}
    (h : saveLoop pick strAddr temp heap address left i k = some (args, k')) :
    args.length = left := by
  induction left generalizing strAddr i k args k' with
  | zero =>
    cases h
    rfl
  | succ left ih =>
    rw [saveLoop] at h
    obtain ⟨r, -, h⟩ := Option.bind_eq_some_iff.mp h
    obtain ⟨r', -, h⟩ := Option.bind_eq_some_iff.mp h
    obtain ⟨r'', hloop, h⟩ := Option.bind_eq_some_iff.mp h
    cases h
    rw [List.length_cons, ih hloop]

theorem saveArgs_length {junk address : ℤ} {heap : ℕ → ℕ → UInt8} {args : List (ℕ → UInt8)}
    (h : saveArgs pick junk heap address k = some (some args, k')) :
    args.length < SystemCalls.maxArgCount := by
  obtain ⟨⟨count, k₁⟩, hcount, h⟩ := Option.bind_eq_some_iff.mp h
  cases count with
  | none => cases h
  | some count =>
    obtain ⟨r, hloop, h⟩ := Option.bind_eq_some_iff.mp h
    cases h
    unfold countArgsToSave at hcount
    split at hcount
    · have hlt := countLoop_lt hcount
      rw [saveLoop_length hloop]
      omega
    · cases hcount

/-- Buffers that were read in full hold strings. -/
theorem strings_of_args {args : List (ℕ → UInt8)} (hfull : ∀ arg, arg ∈ args → strlen arg ≠ none) :
    ∃ strings, List.Forall₂ (fun arg string => Holds arg 0 string) args strings ∧
      (∀ string, string ∈ strings → Savable string) ∧ stringsSize strings = argsBytes args := by
  induction args with
  | nil => exact ⟨[], .nil, by simp, rfl⟩
  | cons arg args ih =>
    obtain ⟨strings, hargs, hsavable, hsize⟩ :=
      ih fun x hx => hfull x (List.mem_cons_of_mem arg hx)
    obtain ⟨length, hlength⟩ := Option.ne_none_iff_exists'.mp (hfull arg List.mem_cons_self)
    obtain ⟨string, hlen, hs, hholds⟩ := holds_of_strlen hlength
    refine ⟨string :: strings, .cons hholds hargs, ?_, ?_⟩
    · intro x hx
      rcases List.mem_cons.mp hx with rfl | hx
      · exact hs
      · exact hsavable x hx
    · rw [stringsSize_cons, hsize, hlen]
      unfold argsBytes
      rw [List.map_cons, List.sum_cons, hlength]
      rfl

/-- The strings that buffers hold say how many bytes there are. -/
theorem argsBytes_eq {args : List (ℕ → UInt8)} {strings : List (List UInt8)}
    (hargs : List.Forall₂ (fun arg string => Holds arg 0 string) args strings)
    (hsavable : ∀ string, string ∈ strings → Savable string) :
    argsBytes args = stringsSize strings ∧ ∀ arg, arg ∈ args → strlen arg ≠ none := by
  induction hargs with
  | nil => exact ⟨rfl, by simp⟩
  | @cons arg string args strings harg hrest ih =>
    have hlen := strlen_of_holds (hsavable string List.mem_cons_self) harg
    obtain ⟨hbytes, hfull⟩ := ih fun x hx => hsavable x (List.mem_cons_of_mem string hx)
    refine ⟨?_, ?_⟩
    · rw [stringsSize_cons, ← hbytes]
      unfold argsBytes
      rw [List.map_cons, List.sum_cons, hlen]
      rfl
    · intro x hx
      rcases List.mem_cons.mp hx with rfl | hx
      · rw [hlen]
        simp
      · exact hfull x hx

/-- Where an address space ends. -/
theorem numPages_make (exe : Executable) (id : ℤ) :
    (AddressSpace.make exe id).numPages * pageSize ≤ 2 ^ 32 ∧
      (AddressSpace.make exe id).numPages * pageSize % 16 = 0 := by
  have hsize : pageSize = 128 := rfl
  have hpages : (AddressSpace.make exe id).numPages =
      divRoundUp ((exe.getSize + userStackSize) % 2 ^ 32) pageSize := rfl
  have hlt := Nat.mod_lt (exe.getSize + userStackSize) (show 0 < 2 ^ 32 by decide)
  rw [hpages, hsize]
  generalize (exe.getSize + userStackSize) % 2 ^ 32 = size at hlt
  unfold divRoundUp
  split <;> omega

/-- The TLB is empty already. -/
theorem restoreState_self (h : ∀ i, i < tlbSize → (k.tlb i).valid = false) :
    k.restoreState = k := by
  have htlb : (fun i => if i < tlbSize then { k.tlb i with valid := false } else k.tlb i) =
      k.tlb := by
    funext i
    split
    · rename_i hlt
      rw [← h i hlt]
    · rfl
  unfold restoreState
  rw [htlb]

/-- A thread with an address space finds the TLB empty. -/
theorem switch_empty {next : ℕ} (h : k.switch next = some k') (hs : (k'.space next).isSome) :
    k'.currentThread = next ∧ ∀ i, i < tlbSize → (k'.tlb i).valid = false := by
  simp only [Vm.switch, Option.bind_eq_bind, Option.bind_eq_some_iff, Option.pure_def,
    Option.some.injEq] at h
  obtain ⟨t, -, rfl⟩ := h
  generalize (if (k.space k.currentThread).isSome then k.saveState else k : Vm) = k₁ at hs ⊢
  split
  · refine ⟨rfl, fun i hi => ?_⟩
    simp only [restoreState, if_pos hi]
  · rename_i hnone
    rw [if_neg hnone] at hs
    exact absurd hs hnone

theorem stringsSize_le {strings : List (List UInt8)}
    (hsavable : ∀ string, string ∈ strings → Savable string) :
    stringsSize strings ≤ 128 * strings.length := by
  induction strings with
  | nil => exact le_refl _
  | cons string strings ih =>
    have hshort : string.length < 128 := (hsavable string List.mem_cons_self).short
    have hrest := ih fun x hx => hsavable x (List.mem_cons_of_mem string hx)
    rw [stringsSize_cons, List.length_cons]
    omega

theorem length_le_stringsSize (strings : List (List UInt8)) :
    strings.length ≤ stringsSize strings := by
  induction strings with
  | nil => exact le_refl _
  | cons string strings ih =>
    rw [stringsSize_cons, List.length_cons]
    omega

/-- How much stack there is at most, and at least. -/
theorem stackUse_bounds {args : List (ℕ → UInt8)} (hcount : args.length < SystemCalls.maxArgCount)
    (hsize : argsBytes args ≤ 128 * args.length) (top : ℕ) :
    16 < stackUse args top ∧ stackUse args top < 5000 := by
  have hmax : SystemCalls.maxArgCount = 32 := rfl
  have hmod := tmod_cases (toInt_toInt ((top : ℤ) - 16 - argsBytes args))
  unfold stackUse
  split <;> omega

/-- Where the stack pointer is when the program begins. -/
theorem startProcess_sp {args : List (ℕ → UInt8)} {s : AddressSpace}
    {r : Started} (hfull : ∀ arg, arg ∈ args → strlen arg ≠ none)
    (hs : k.space k.currentThread = some s) (h : startProcess pick (some args) k = some r) :
    (toUnsigned r.stackReg : ℤ) =
      ((s.numPages * pageSize : ℕ) - stackUse args (s.numPages * pageSize)) % 2 ^ 32 := by
  obtain ⟨strings, hargs, hsavable, hsize⟩ := strings_of_args hfull
  have hlen := hargs.length_eq
  unfold startProcess at h
  rw [hs, Option.bind_eq_bind, Option.bind_some] at h
  obtain ⟨⟨argc, a⟩, hwrite, h⟩ := Option.bind_eq_some_iff.mp h
  have hregs : toInt (initRegisters s) = initRegisters s := toInt_toInt _
  obtain ⟨hargc, hsp, -⟩ := writeArgs_sp hargs hsavable hregs hwrite
  have hbottom : toInt (initRegisters s - stringsSize strings) =
      toInt ((s.numPages * pageSize : ℕ) - 16 - argsBytes args) := by
    rw [initRegisters, toInt_toInt_sub, hsize]
  have hua := toUnsigned_arrayPointer
    (toInt ((s.numPages * pageSize : ℕ) - 16 - argsBytes args)) strings.length
  rw [hbottom] at hsp
  rw [← hsp, toUnsigned_toInt, toUnsigned_cast (_ - _)] at hua
  rw [← hlen] at hua hargc
  unfold stackUse
  dsimp only at h
  split at h
  · rename_i hne
    cases h
    have hnil : args ≠ [] := by
      rintro rfl
      exact hne hargc
    rw [if_neg hnil]
    dsimp only
    rw [toUnsigned_toInt, toUnsigned_cast]
    rw [toUnsigned_cast] at hua
    omega
  · rename_i heq
    cases h
    have hnil : args = [] := List.eq_nil_of_length_eq_zero (by omega)
    rw [if_pos hnil]
    dsimp only
    omega

/-- **`WriteArgs` on a stack that the arguments fit on.** -/
theorem writeArgs_of_use {args : List (ℕ → UInt8)} {s : AddressSpace}
    {top : ℕ} (hcount : args.length < SystemCalls.maxArgCount)
    (hfull : ∀ arg, arg ∈ args → strlen arg ≠ none) (hi : FrameInv k none)
    (hs : k.space k.currentThread = some s) (htop : s.numPages * pageSize = top)
    (hmax : top ≤ 2 ^ 32) (haligned : top % 16 = 0)
    (huse : stackUse args top ≤ min userStackSize top) :
    ∃ a, writeArgs pick args (initRegisters s) k = some (args.length, a) ∧
      (∀ x n, (x, n) ∈ a.written → top ≤ x + userStackSize ∧ x + n ≤ top) ∧
      (toUnsigned a.sp : ℤ) = top - stackUse args top + if args = [] then 0 else 24 := by
  obtain ⟨strings, hargs, hsavable, hsize⟩ := strings_of_args hfull
  have hlen := hargs.length_eq
  have hbytes := stringsSize_le hsavable
  have hleast := length_le_stringsSize strings
  rw [hsize, ← hlen] at hbytes hleast
  obtain ⟨hlow, -⟩ := stackUse_bounds hcount hbytes top
  have hmod := tmod_cases (toInt_toInt ((top : ℤ) - 16 - argsBytes args))
  have hstack : userStackSize = 2048 := rfl
  have hregs : initRegisters s = toInt ((top : ℤ) - 16) := by
    rw [initRegisters, htop]
  have hu : toUnsigned (initRegisters s) = top - 16 := by
    rw [hregs, toUnsigned_toInt]
    unfold toUnsigned
    omega
  have hfix : toInt (initRegisters s) = initRegisters s := by rw [hregs, toInt_toInt]
  have hbelow : toInt (initRegisters s - stringsSize strings) =
      toInt ((top : ℤ) - 16 - argsBytes args) := by
    rw [hregs, toInt_toInt_sub, hsize]
  have hbottom : (toUnsigned (toInt ((top : ℤ) - 16 - argsBytes args)) : ℤ) =
      (top - 16 - argsBytes args) % 2 ^ 32 := by
    rw [toUnsigned_toInt, toUnsigned_cast]
  -- what is used, but for the 24 bytes
  obtain ⟨use, huse'⟩ : ∃ use : ℤ, 16 + (argsBytes args : ℤ) +
      Int.tmod (toInt ((top : ℤ) - 16 - argsBytes args)) 4 + 4 * (args.length + 1) = use :=
    ⟨_, rfl⟩
  have hle : use ≤ min userStackSize top ∧
      (top : ℤ) - stackUse args top + (if args = [] then 0 else 24) = top - use := by
    unfold stackUse at huse ⊢
    rw [huse'] at huse ⊢
    split at huse <;> constructor <;> omega
  obtain ⟨array, harray⟩ : ∃ array : ℕ, (array : ℤ) = top - use := ⟨(top - use).toNat, by omega⟩
  rw [hle.2]
  obtain ⟨a, mem₁, mem', ps, hrun, hpushed⟩ : ∃ a mem₁ mem' ps,
      writeArgs pick args (initRegisters s) k = some (strings.length, a) ∧
        Pushed Blind k (fun _ _ => 0) mem₁ mem' strings ps (toUnsigned (initRegisters s))
          (top - 16 - argsBytes args) array a := by
    refine writeArgs_ends hargs hsavable (hlen ▸ hcount) hfix hi trivial ?_ ?_ ?_ ?_
    · omega
    · rw [hbelow]
      omega
    · rw [hu]
      omega
    · intro x _ hx
      exact ⟨s, hs, by omega⟩
  rw [hlen]
  refine ⟨a, hrun, fun x n hx => ?_, ?_⟩
  · have hin := hpushed.within x n hx
    rw [hu] at hin
    rcases hin with hin | hin <;> constructor <;> omega
  · rw [hpushed.sp]
    exact harray

/-- **When the arguments stay on the stack.** -/
theorem onStack_iff {args : List (ℕ → UInt8)} {exe : Executable} {id : ℤ}
    (hcount : args.length < SystemCalls.maxArgCount)
    (hfull : ∀ arg, arg ∈ args → strlen arg ≠ none) (hi : FrameInv k none)
    (hempty : ∀ i, i < tlbSize → (k.tlb i).valid = false)
    (hs : k.space k.currentThread = some (AddressSpace.make exe id)) :
    (∃ r, startProcess pick (some args) k = some r ∧
        OnStack ((AddressSpace.make exe id).numPages * pageSize) r) ↔
      stackUse args ((AddressSpace.make exe id).numPages * pageSize) ≤
        min userStackSize ((AddressSpace.make exe id).numPages * pageSize : ℕ) := by
  obtain ⟨hmax, haligned⟩ := numPages_make exe id
  obtain ⟨strings, hargs, hsavable, hsize⟩ := strings_of_args hfull
  have hbytes := stringsSize_le hsavable
  rw [hsize, ← hargs.length_eq] at hbytes
  obtain ⟨hlow, hhigh⟩ :=
    stackUse_bounds hcount hbytes ((AddressSpace.make exe id).numPages * pageSize)
  have hstack : userStackSize = 2048 := rfl
  constructor
  · rintro ⟨r, hrun, -, hin, hlt⟩
    have hsp := startProcess_sp hfull hs hrun
    omega
  · intro huse
    obtain ⟨a, hrun, hwritten, hsp⟩ : ∃ a, writeArgs pick args
        (initRegisters (AddressSpace.make exe id)) k = some (args.length, a) ∧ _ :=
      writeArgs_of_use hcount hfull hi hs rfl hmax haligned huse
    have hstart : startProcess pick (some args) k =
        if args.length ≠ 0 then
          some ⟨args.length, a.sp, toInt (a.sp - 24), a.written, a.vm⟩
        else some ⟨args.length, 0, a.sp, a.written, a.vm⟩ := by
      unfold startProcess
      rw [hs, Option.bind_eq_bind, Option.bind_some]
      dsimp only
      rw [restoreState_self hempty, hrun, Option.bind_eq_bind, Option.bind_some]
      dsimp only
      split <;> rfl
    rw [hstart]
    by_cases hnil : args = []
    · rw [if_pos hnil] at hsp
      rw [if_neg (by simp [hnil])]
      refine ⟨_, rfl, hwritten, ?_, ?_⟩
      · dsimp only
        omega
      · dsimp only
        omega
    · rw [if_neg hnil] at hsp
      rw [if_pos (by simpa using hnil)]
      have hstackReg : toUnsigned (toInt (a.sp - 24)) = toUnsigned a.sp - 24 := by
        rw [toUnsigned_toInt]
        exact toUnsigned_sub (n := 24) (by omega)
      refine ⟨_, rfl, hwritten, ?_, ?_⟩
      · dsimp only
        omega
      · dsimp only
        omega

end Saves

/-! ## Every memory is reached -/

section Fill
variable {data : ℤ → ℕ} {pageTable : ℕ → ℕ → TranslationEntry} {tlb : ℕ → TranslationEntry}
  {coreMap : ℕ → CoreMapEntry} {tr : List Event} {k : Vm}

/-- A byte is set by a write, which is made again after a page fault. -/
theorem Runs.write_byte (hrun : Runs (fun _ k a => k.Allowed a ∧ a.Toolchain)
      (initial data pageTable tlb coreMap) tr k) {a : ℕ} (ha : k.HasAddress k.currentThread a)
    (b : UInt8) :
    ∃ tr' k', Runs (fun _ k a => k.Allowed a ∧ a.Toolchain)
        (initial data pageTable tlb coreMap) tr' k' ∧ SameSpaces k k' ∧
      ∀ h x, k.HasAddress h x → k'.userByte h x =
        if h = k.currentThread ∧ x = a then b else k.userByte h x := by
  obtain ⟨hi, hc, -⟩ := hrun.simulates
  have hzero : 0 < numPhysPages := by decide
  have hbyte : ∀ k', Content k' (Function.update (flat tr) k.currentThread
        (blit (flat tr k.currentThread) a Width.byte.bytes (storeByte b.toNat))) →
      FrameInv k' none → SameSpaces k k' → ∀ h x, k.HasAddress h x → k'.userByte h x =
        if h = k.currentThread ∧ x = a then b else k.userByte h x := by
    intro k' hc' hi' hs h x hx
    have hone : Width.byte.bytes = 1 := rfl
    rw [hc'.userByte_eq hi' (hs.hasAddress.mpr hx), hc.userByte_eq hi hx, hone]
    by_cases hh : h = k.currentThread
    · subst hh
      rw [Function.update_self, blit]
      by_cases hxa : x = a
      · subst hxa
        rw [if_pos (by omega), if_pos ⟨rfl, rfl⟩, Nat.sub_self]
        apply storeByte_of_emod
        have hlt := b.toNat_lt
        omega
      · rw [if_neg (by omega), if_neg fun h => hxa h.2]
    · rw [Function.update_of_ne hh, if_neg fun h => hh h.1]
  rcases hc.writeMem_cases hi ha.inRange b.toNat with ⟨k', hok, -, hi', hc'⟩ | ⟨hfault, hmiss⟩
  · have hs := writeMem_sameSpaces hok
    have hstep : k.step (.write a .byte b.toNat 0) = some k' := by
      rw [Vm.step, hok]
      rfl
    have hguard : k.Allowed (.write a .byte b.toNat 0) ∧
        Action.Toolchain (.write a .byte b.toNat 0) := ⟨⟨ha.inRange, hzero⟩, trivial⟩
    exact ⟨_, k', hrun.next _ hguard hstep, hs, hbyte k' hc' hi' hs⟩
  · obtain ⟨k₁, hhandler, hcur, hi₁, hc₁, hr₁, hhit⟩ := hi.handled hc ha.inRange hzero hmiss
    have hs₁ := hi.handled_sameSpaces ha.inRange hzero hmiss hhandler
    have hstep₁ : k.step (.write a .byte b.toNat 0) = some k₁ := by
      rw [Vm.step, hfault]
      exact hhandler
    obtain ⟨k', hok, -, hi', hc'⟩ :=
      (hc₁.writeMem_cases hi₁ hr₁ b.toNat).resolve_right fun h => hhit h.2
    have hstep : k₁.step (.write a .byte b.toNat 0) = some k' := by
      rw [Vm.step, hok]
      rfl
    rw [hcur] at hc'
    have hs := hs₁.trans (writeMem_sameSpaces hok)
    have hguard : k.Allowed (.write a .byte b.toNat 0) ∧
        Action.Toolchain (.write a .byte b.toNat 0) := ⟨⟨ha.inRange, hzero⟩, trivial⟩
    have hguard₁ : k₁.Allowed (.write a .byte b.toNat 0) ∧
        Action.Toolchain (.write a .byte b.toNat 0) := ⟨⟨hr₁, hzero⟩, trivial⟩
    have hrun₁ := hrun.next _ hguard hstep₁
    exact ⟨_, k', hrun₁.next _ hguard₁ hstep, hs, hbyte k' hc' hi' hs⟩

/-- **A program can set any of its bytes as it likes.** -/
theorem Runs.fill (hrun : Runs (fun _ k a => k.Allowed a ∧ a.Toolchain)
      (initial data pageTable tlb coreMap) tr k) {a n : ℕ} (hr : k.HasRange a n) (f : ℕ → UInt8) :
    ∃ tr' k', Runs (fun _ k a => k.Allowed a ∧ a.Toolchain)
        (initial data pageTable tlb coreMap) tr' k' ∧ SameSpaces k k' ∧
      ∀ x, a ≤ x → x < a + n → k'.userByte k.currentThread x = f x := by
  induction n with
  | zero => exact ⟨tr, k, hrun, ⟨rfl, fun _ => rfl⟩, fun x hlow hhigh => by omega⟩
  | succ n ih =>
    obtain ⟨tr₁, k₁, hrun₁, hs₁, hbytes₁⟩ := ih fun i hi => hr i (by omega)
    have hlast : k₁.HasAddress k₁.currentThread (a + n) := by
      rw [hs₁.current, hs₁.hasAddress]
      exact hr n (Nat.lt_succ_self n)
    obtain ⟨tr', k', hrun', hs', hbytes'⟩ := hrun₁.write_byte hlast (f (a + n))
    refine ⟨tr', k', hrun', hs₁.trans hs', fun x hlow hhigh => ?_⟩
    have hx : k₁.HasAddress k.currentThread x := by
      obtain ⟨i, rfl⟩ := Nat.exists_eq_add_of_le hlow
      exact hs₁.hasAddress.mpr (hr i (by omega))
    rw [hbytes' _ x hx, hs₁.current]
    by_cases hxl : x = a + n
    · rw [if_pos ⟨rfl, hxl⟩, hxl]
    · rw [if_neg fun h => hxl h.2]
      exact hbytes₁ x hlow (by omega)

end Fill

/-! ## Two processes -/

section Exec
variable {data data' : ℤ → ℕ} {pageTable pageTable' : ℕ → ℕ → TranslationEntry}
  {tlb tlb' : ℕ → TranslationEntry} {coreMap coreMap' : ℕ → CoreMapEntry} {tr tr' : List Event}
  {k k' k₁ : Vm} {pick : Vm → Fin numPhysPages}

/-- **When argument vectors survive `Exec`.**  `SaveArgs` copies every array of at most 31 pointers
to strings shorter than `MAX_ARG_LENGTH`, in any state of memory that is reached.  `WriteArgs`, in
any state that is reached with enough memory below the stack pointer, passes them on if and
only if the address below the strings is less than 2^31, or a multiple of four. -/
theorem exec_passes_iff (hparent : Runs (fun _ k a => k.Allowed a ∧ a.Toolchain)
      (initial data pageTable tlb coreMap) tr k)
    {address : ℤ} {strings : List (List UInt8)} (hargv : k.UserArgv address strings)
    (hchild : Runs (fun _ k a => k.Allowed a ∧ a.Toolchain)
      (initial data' pageTable' tlb' coreMap') tr' k')
    {stackReg : ℤ} (hreg : toInt stackReg = stackReg)
    (hroom : k'.LargeEnough strings (toUnsigned stackReg)) (junk : ℤ) (heap : ℕ → ℕ → UInt8) :
    ∃ args k₁, saveArgs pick junk heap address k = some (some args, k₁) ∧
      ((∃ c s, writeArgs pick args stackReg k' = some (c, s) ∧
          Passed k' strings (toUnsigned stackReg) c s) ↔
        toUnsigned stackReg - stringsSize strings < 2 ^ 31 ∨
          (toUnsigned stackReg - stringsSize strings) % 4 = 0) := by
  obtain ⟨hi, hc, -⟩ := hparent.simulates
  obtain ⟨hi', hc', -⟩ := hchild.simulates
  obtain ⟨args, k₁, hsave, hargs⟩ := saveArgs_ends hi hc hargv junk heap
  refine ⟨args, k₁, hsave, passed_iff hargs ?_ hargv.count hreg hi' hc' hroom⟩
  intro string hstring
  obtain ⟨i, hget⟩ := List.mem_iff_getElem?.mp hstring
  exact (hargv.pointer i string hget).1

/-- **When arguments stay on the stack.**  For all that `SaveArgs` returns, if it has read the
strings in full, and every process that is given the processor for the first time: all that
`WriteArgs` writes and the stack pointer of the program are in the last
`USER_STACK_SIZE` bytes of the address space if and only if what is used is not more than that. -/
theorem args_onStack_iff {junk address : ℤ} {heap : ℕ → ℕ → UInt8} {args : List (ℕ → UInt8)}
    (hsave : saveArgs pick junk heap address k = some (some args, k₁))
    (hfull : ∀ arg, arg ∈ args → strlen arg ≠ none)
    (hrun : Runs (fun _ k a => k.Allowed a) (initial data pageTable tlb coreMap) tr k')
    {next : ℕ} {child : Vm} (hswitch : k'.switch next = some child) {exe : Executable} {id : ℤ}
    (hs : child.space next = some (AddressSpace.make exe id)) :
    (∃ r, startProcess pick (some args) child = some r ∧
        OnStack ((AddressSpace.make exe id).numPages * pageSize) r) ↔
      stackUse args ((AddressSpace.make exe id).numPages * pageSize) ≤
        min userStackSize ((AddressSpace.make exe id).numPages * pageSize : ℕ) := by
  have hi := hrun.frameInv
  obtain ⟨hcur, hempty⟩ := switch_empty hswitch (by rw [hs]; rfl)
  rw [← hcur] at hs
  exact onStack_iff (saveArgs_length hsave) hfull (hi.switch hswitch) hempty hs

end Exec

/-! ### Processes with arguments -/

/-- A process is made of any executable. -/
theorem oneProcess_reached {exe : Executable} (hl : Layout exe) : ∃ tr k,
    Runs (fun _ k a => k.Allowed a ∧ a.Toolchain) started tr k ∧ k.currentThread = 0 ∧
      k.space 0 = some (AddressSpace.make exe 0) := by
  obtain ⟨k, hk, hcur, hspace⟩ : ∃ k, step started (.newSpace 0 exe) = some k ∧
      k.currentThread = 0 ∧ k.space 0 = some (AddressSpace.make exe 0) :=
    ⟨_, rfl, rfl, rfl⟩
  have hallowed : started.Allowed (.newSpace 0 exe) := by
    intro t ht
    cases ht
    decide
  have hguard : started.Allowed (.newSpace 0 exe) ∧ Action.Toolchain (.newSpace 0 exe) :=
    ⟨hallowed, hl⟩
  have hstart : Runs (fun _ k a => k.Allowed a ∧ a.Toolchain) started [] started := .start
  exact ⟨_, k, hstart.next _ hguard hk, hcur, hspace⟩

/-- An array of pointers at 400, to places in a string at 600. -/
def argvMemory (starts : List ℕ) (string : List UInt8) (x : ℕ) : UInt8 :=
  if x < 400 + 4 * starts.length then
    if x % 4 = 0 then UInt8.ofNat (88 + starts.getD ((x - 400) / 4) 0)
    else if x % 4 = 1 then 2 else 0
  else if x < 600 then 0 else string.getD (x - 600) 0

/-- A process with such an array. -/
theorem argv_reached {exe : Executable} (hl : Layout exe) (starts : List ℕ) (string : List UInt8)
    (hpages : 728 ≤ (AddressSpace.make exe 0).numPages * pageSize) (hn : starts.length < 32)
    (hstarts : ∀ start ∈ starts, start ≤ string.length) (hs : Savable string) : ∃ tr k,
    Runs (fun _ k a => k.Allowed a ∧ a.Toolchain) started tr k ∧ k.currentThread = 0 ∧
      k.space 0 = some (AddressSpace.make exe 0) ∧
      k.UserArgv 400 (starts.map fun start => string.drop start) := by
  obtain ⟨tr₀, k₀, hrun₀, hcur₀, hspace₀⟩ := oneProcess_reached hl
  have hshort : string.length < 128 := hs.short
  have hr : k₀.HasRange 400 328 := by
    intro i hi
    rw [hcur₀]
    exact ⟨_, hspace₀, by omega⟩
  obtain ⟨tr, k, hrun, hsame, hbytes⟩ := hrun₀.fill hr (argvMemory starts string)
  have hcur : k.currentThread = 0 := hsame.current.trans hcur₀
  have hspace : k.space 0 = some (AddressSpace.make exe 0) := (hsame.space 0).trans hspace₀
  have haddr : ∀ i : ℕ, i ≤ starts.length → toUnsigned (400 + 4 * i) = 400 + 4 * i := by
    intro i hi
    unfold toUnsigned
    omega
  rw [← hsame.current] at hbytes
  have hword : ∀ i : ℕ, i ≤ starts.length → k.userWord (toUnsigned (400 + 4 * i)) =
      Width.word.load (argvMemory starts string) (400 + 4 * i) := by
    intro i hi
    rw [haddr i hi]
    have hfour : Width.word.bytes = 4 := rfl
    refine Width.load_congr fun j hj => hbytes _ (by omega) (by omega)
  have hpointer : ∀ i (hi : i < starts.length),
      k.userWord (toUnsigned (400 + 4 * i)) = ((600 + starts[i] : ℕ) : ℤ) := by
    intro i hi
    have hstart := hstarts _ (List.getElem_mem hi)
    have hat : ∀ j, j < 4 → argvMemory starts string (400 + 4 * i + j) =
        if j = 0 then UInt8.ofNat (88 + starts[i]) else if j = 1 then 2 else 0 := by
      intro j hj
      have hmod : (400 + 4 * i + j) % 4 = j := by omega
      have hdiv : (400 + 4 * i + j - 400) / 4 = i := by omega
      rw [argvMemory, if_pos (by omega), hmod, hdiv, List.getD_eq_getElem _ _ hi]
    rw [hword i (le_of_lt hi)]
    have h0 := hat 0 (by decide)
    rw [Nat.add_zero, if_pos rfl] at h0
    have htwo : (2 : UInt8).toNat = 2 := rfl
    have hzero : (0 : UInt8).toNat = 0 := rfl
    unfold Width.load
    dsimp only
    rw [h0, hat 1 (by decide), hat 2 (by decide), hat 3 (by decide), if_neg (by decide),
      if_pos rfl, if_neg (by decide), if_neg (by decide), if_neg (by decide), if_neg (by decide),
      UInt8.toNat_ofNat', htwo, hzero, Int.bmod]
    omega
  refine ⟨tr, k, hrun, hcur, hspace, ⟨by decide, ?_, ?_, ?_, ?_⟩⟩
  · rw [List.length_map]
    exact hn
  · intro i hi
    rw [List.length_map] at hi
    rw [haddr i hi]
    refine ⟨?_, ?_⟩
    · have hfour : Width.word.bytes = 4 := rfl
      rw [hfour]
      omega
    · rw [hcur]
      exact ⟨_, hspace, by omega⟩
  · rw [List.length_map, hword _ (le_refl _)]
    have hat : ∀ j, j < 4 → argvMemory starts string (400 + 4 * starts.length + j) = 0 := by
      intro j hj
      rw [argvMemory, if_neg (by omega), if_pos (by omega)]
    have h0 := hat 0 (by decide)
    rw [Nat.add_zero] at h0
    unfold Width.load
    dsimp only
    rw [h0, hat 1 (by decide), hat 2 (by decide), hat 3 (by decide)]
    decide
  · intro i s hi
    obtain ⟨hlt, rfl⟩ := List.getElem?_eq_some_iff.mp hi
    rw [List.length_map] at hlt
    have hstart := hstarts _ (List.getElem_mem hlt)
    rw [List.getElem_map, hpointer i hlt]
    generalize starts[i] = start at hstart
    have hat : toUnsigned ((600 + start : ℕ) : ℤ) = 600 + start := by
      unfold toUnsigned
      omega
    refine ⟨⟨fun b hb => hs.nonzero b (List.mem_of_mem_drop hb), ?_⟩, by omega, ?_, fun j hj => ?_⟩
    · rw [List.length_drop]
      exact Nat.lt_of_le_of_lt (Nat.sub_le _ _) hs.short
    · rw [hat]
      intro j hj
      rw [List.length_drop] at hj
      rw [hcur]
      exact ⟨_, hspace, by omega⟩
    · rw [List.length_drop] at hj
      rw [hat, hbytes _ (by omega) (by omega), argvMemory, if_neg (by omega), if_neg (by omega),
        Nat.add_assoc, Nat.add_sub_cancel_left]
      simp only [List.getD_eq_getElem?_getD, List.getElem?_drop]

/-- The letter `A`. -/
def letter : List UInt8 := [65]

theorem savable_letter : Savable letter := by
  refine ⟨fun b hb => ?_, by decide⟩
  rw [List.mem_singleton.mp hb]
  decide

/-- The arguments `cp` and `p`. -/
def words : List (List UInt8) := [[99, 112], [112]]

theorem savable_words : Savable [99, 112] := by
  refine ⟨fun b hb => ?_, by decide⟩
  rcases List.mem_cons.mp hb with rfl | hb
  · decide
  · rw [List.mem_singleton.mp hb]
    decide

/-- A process with these arguments for another. -/
theorem words_reached : ∃ tr k, Runs (fun _ k a => k.Allowed a ∧ a.Toolchain) started tr k ∧
    k.currentThread = 0 ∧ k.space 0 = some (AddressSpace.make seventeenPages 0) ∧
    k.UserArgv 400 words := by
  have hl : Layout seventeenPages := by decide
  exact argv_reached hl [0, 1] [99, 112] (by decide) (by decide) (by decide) savable_words

/-- Two arguments arrive. -/
theorem exec_passes_iff_words : ∃ tr k args k₁ c s,
    Runs (fun _ k a => k.Allowed a ∧ a.Toolchain) started tr k ∧ k.UserArgv 400 words ∧
      k.LargeEnough words (toUnsigned 2160) ∧
      saveArgs firstFrame 0 (fun _ _ => 0) 400 k = some (some args, k₁) ∧
      writeArgs firstFrame args 2160 k = some (c, s) ∧
      Passed k words (toUnsigned 2160) c s := by
  obtain ⟨tr, k, hrun, hcur, hspace, hargv⟩ := words_reached
  have hroom : k.LargeEnough words (toUnsigned 2160) := by
    refine ⟨by decide, fun x _ hx => ?_⟩
    have hpages : (AddressSpace.make seventeenPages 0).numPages * pageSize = 2176 := by decide
    have hsp : toUnsigned 2160 = 2160 := by decide
    rw [hcur]
    exact ⟨_, hspace, by omega⟩
  obtain ⟨args, k₁, hsave, hiff⟩ : ∃ args k₁, saveArgs firstFrame 0 (fun _ _ => 0) 400 k =
      some (some args, k₁) ∧ _ :=
    exec_passes_iff hrun hargv hrun (by decide) hroom 0 fun _ _ => 0
  obtain ⟨c, s, hwrite, hpassed⟩ := hiff.mpr (Or.inl (by decide))
  exact ⟨tr, k, args, k₁, c, s, hrun, hargv, hroom, hsave, hwrite, hpassed⟩

/-- The program of `seventeenPages` with 2^31 bytes of uninitialised data. -/
def bigProgram : Executable := { seventeenPages with uninitData := ⟨6, 0, 2147483648⟩ }

/-- **The array reaches into the string.**  The stack of a large process begins above `INT_MAX`; the
argument `A` takes two bytes of it, and the array is moved up by two bytes to be aligned. -/
theorem exec_corrupts : ∃ tr k args k₁,
    Runs (fun _ k a => k.Allowed a ∧ a.Toolchain) started tr k ∧
      k.space k.currentThread = some (AddressSpace.make bigProgram 0) ∧
      k.UserArgv 400 [letter] ∧
      k.LargeEnough [letter] (toUnsigned (initRegisters (AddressSpace.make bigProgram 0))) ∧
      saveArgs firstFrame 0 (fun _ _ => 0) 400 k = some (some args, k₁) ∧
      ¬ ∃ c s, writeArgs firstFrame args (initRegisters (AddressSpace.make bigProgram 0)) k =
          some (c, s) ∧
        Passed k [letter] (toUnsigned (initRegisters (AddressSpace.make bigProgram 0))) c s := by
  have hl : Layout bigProgram := by decide
  have hpages : (AddressSpace.make bigProgram 0).numPages * pageSize = 2147485824 := by decide
  obtain ⟨tr, k, hrun, hcur, hspace, hargv⟩ :=
    argv_reached hl [0] letter (by rw [hpages]; decide) (by decide) (by decide) savable_letter
  have hsp : toUnsigned (initRegisters (AddressSpace.make bigProgram 0)) = 2147485808 := by
    rw [initRegisters, hpages]
    decide
  have hroom : k.LargeEnough [letter]
      (toUnsigned (initRegisters (AddressSpace.make bigProgram 0))) := by
    rw [hsp]
    refine ⟨by decide, fun x _ hx => ?_⟩
    rw [hcur]
    exact ⟨_, hspace, by omega⟩
  obtain ⟨hi, hc, -⟩ := hrun.simulates
  obtain ⟨args, k₁, hsave, hargs⟩ : ∃ args k₁, saveArgs firstFrame 0 (fun _ _ => 0) 400 k =
      some (some args, k₁) ∧ _ := saveArgs_ends hi hc hargv 0 fun _ _ => 0
  refine ⟨tr, k, args, k₁, hrun, by rw [hcur]; exact hspace, hargv, hroom, hsave, ?_⟩
  have hargs : List.Forall₂ (fun arg string => Holds arg 0 string) args [letter] := hargs
  have hregs : toInt (initRegisters (AddressSpace.make bigProgram 0)) =
      initRegisters (AddressSpace.make bigProgram 0) := toInt_toInt _
  rw [passed_iff hargs (by simpa using savable_letter) (by decide) hregs hi hc hroom, hsp]
  decide

/-- The thread of a process is given the processor. -/
theorem switch_reached {k : Vm} {h : ℕ} {s : AddressSpace} (hs : k.space h = some s) :
    ∃ k', k.switch h = some k' ∧ k'.space h = some s := by
  obtain ⟨t, ht, -⟩ := space_eq_some.mp hs
  obtain ⟨pt, tlb, hsave⟩ : ∃ pt tlb, k.saveState = { k with pageTable := pt, tlb := tlb } :=
    saveSlots_eq
  refine ⟨_, by rw [Vm.switch, ht]; rfl, ?_⟩
  rw [hsave]
  split <;> split <;> exact hs

/-- Two arguments stay on the stack. -/
theorem args_onStack_iff_words : ∃ tr k args k₁ child r,
    Runs (fun _ k a => k.Allowed a ∧ a.Toolchain) started tr k ∧ k.UserArgv 400 words ∧
      saveArgs firstFrame 0 (fun _ _ => 0) 400 k = some (some args, k₁) ∧
      (∀ arg, arg ∈ args → strlen arg ≠ none) ∧ k.switch 0 = some child ∧
      child.space 0 = some (AddressSpace.make seventeenPages 0) ∧
      startProcess firstFrame (some args) child = some r ∧
      OnStack ((AddressSpace.make seventeenPages 0).numPages * pageSize) r := by
  have hpages : (AddressSpace.make seventeenPages 0).numPages * pageSize = 2176 := by decide
  obtain ⟨tr, k, hrun, hcur, hspace, hargv⟩ := words_reached
  obtain ⟨hi, hc, -⟩ := hrun.simulates
  obtain ⟨args, k₁, hsave, hargs⟩ : ∃ args k₁, saveArgs firstFrame 0 (fun _ _ => 0) 400 k =
      some (some args, k₁) ∧ _ := saveArgs_ends hi hc hargv 0 fun _ _ => 0
  obtain ⟨child, hswitch, hspace'⟩ := switch_reached hspace
  obtain ⟨hbytes, hfull⟩ := argsBytes_eq hargs fun string hstring => by
    obtain ⟨i, hget⟩ := List.mem_iff_getElem?.mp hstring
    exact (hargv.pointer i string hget).1
  have hrun' : Runs (fun _ k a => k.Allowed a) started tr k := hrun.mono fun _ _ _ h => h.1
  obtain ⟨r, hr, hon⟩ := (args_onStack_iff hsave hfull hrun' hswitch hspace').mpr (by
    have hmod := tmod_cases (toInt_toInt (((2176 : ℕ) : ℤ) - 16 - argsBytes args))
    have hlen := hargs.length_eq
    have hstack : userStackSize = 2048 := rfl
    rw [hbytes] at hmod
    have hfive : stringsSize words = 5 := rfl
    have htwo : words.length = 2 := rfl
    rw [hpages]
    unfold stackUse
    rw [hbytes, hlen, hfive, htwo]
    rw [hfive] at hmod
    split <;> omega)
  exact ⟨tr, k, args, k₁, child, r, hrun, hargv, hsave, hfull, hswitch, hspace', hr, hon⟩

/-- A string of 127 letters. -/
def longString : List UInt8 := List.replicate 127 65

theorem savable_longString : Savable longString := by
  refine ⟨fun b hb => ?_, ?_⟩
  · rw [List.eq_of_mem_replicate hb]
    decide
  · rw [longString, List.length_replicate]
    decide

/-- **Twenty such arguments do not fit on the stack**, and are accepted all the same. -/
theorem args_leave_stack : ∃ tr k args k₁ child,
    Runs (fun _ k a => k.Allowed a ∧ a.Toolchain) started tr k ∧
      saveArgs firstFrame 0 (fun _ _ => 0) 400 k = some (some args, k₁) ∧
      (∀ arg, arg ∈ args → strlen arg ≠ none) ∧ k.switch 0 = some child ∧
      child.space 0 = some (AddressSpace.make seventeenPages 0) ∧
      ¬ ∃ r, startProcess firstFrame (some args) child = some r ∧
        OnStack ((AddressSpace.make seventeenPages 0).numPages * pageSize) r := by
  have hl : Layout seventeenPages := by decide
  obtain ⟨tr, k, hrun, hcur, hspace, hargv⟩ :=
    argv_reached hl (List.replicate 20 0) longString (by decide) (by decide)
      (fun start h => (List.eq_of_mem_replicate h).trans_le (Nat.zero_le _)) savable_longString
  rw [List.map_replicate, List.drop_zero] at hargv
  obtain ⟨hi, hc, -⟩ := hrun.simulates
  obtain ⟨args, k₁, hsave, hargs⟩ : ∃ args k₁, saveArgs firstFrame 0 (fun _ _ => 0) 400 k =
      some (some args, k₁) ∧ _ := saveArgs_ends hi hc hargv 0 fun _ _ => 0
  obtain ⟨child, hswitch, hspace'⟩ := switch_reached hspace
  obtain ⟨hbytes, hfull⟩ := argsBytes_eq hargs fun string hstring => by
    rw [List.eq_of_mem_replicate hstring]
    exact savable_longString
  obtain ⟨hcur', hempty⟩ := switch_empty hswitch (by rw [hspace']; rfl)
  refine ⟨tr, k, args, k₁, child, hrun, hsave, hfull, hswitch, hspace', ?_⟩
  rw [onStack_iff (saveArgs_length hsave) hfull (hi.switch hswitch) hempty
    (by rw [hcur']; exact hspace'), not_le]
  have hsize : stringsSize (List.replicate 20 longString) = 2560 := by
    simp [stringsSize, longString]
  have hmod := tmod_cases (toInt_toInt
    (((AddressSpace.make seventeenPages 0).numPages * pageSize : ℕ) - 16 - argsBytes args))
  have hstack : userStackSize = 2048 := rfl
  unfold stackUse
  rw [hbytes] at hmod ⊢
  rw [hsize] at hmod ⊢
  split <;> omega

end Vm
end PaldOs
