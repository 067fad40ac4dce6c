import Mathlib.Order.Basic
import PaldOs.Paging

/-! # From COFF to NOFF

`coff2noff` copies the sections of a COFF file, in the order of their headers, into a NOFF file:
`.text` into the segment of the code, `.data` or `.rdata` into that of the initialised data, and of
`.bss` and `.sbss` it only notes where they are.  In the end the header goes to the beginning of
the file.  What the host may refuse, memory and space, is a parameter, and so is what the header
held before anything was stored in it.

A run is that of its parts (`translateFrom_eq`): each section that is copied has its place in the
file, the segments of code and data are those of the last such section (`lastSegment`), and the
uninitialised segment is made of the other sections one by one (`addUninit`).
-/
namespace PaldOs

/-- The characters of a constant. -/
def chars (s : String) : List UInt8 := s.toList.map fun c => c.toNat.toUInt8

/-- `coffSectionHeader`, what is used of it. -/
structure CoffSection where
  name : List UInt8
  physAddr : ℕ
  size : ℕ
  sectionPtr : ℕ
  length_name : name.length = 8
  physAddr_lt : physAddr < 2 ^ 32
  size_lt : size < 2 ^ 32
  sectionPtr_lt : sectionPtr < 2 ^ 32

/-- `noffHeader`. -/
structure NoffHeader where
  noffMagic : ℕ
  code : NoffSegment
  initData : NoffSegment
  uninitData : NoffSegment

/-- `NOFF_MAGIC`. -/
def noffMagic : ℕ := 0xBADFAD

/-- `sizeof noffHeader`. -/
def sizeofNoffHeader : ℕ := 40

/-- The words of the header, in their order. -/
def NoffHeader.word (h : NoffHeader) : ℕ → ℕ
  | 0 => h.noffMagic
  | 1 => h.code.virtualAddr
  | 2 => h.code.inFileAddr
  | 3 => h.code.size
  | 4 => h.initData.virtualAddr
  | 5 => h.initData.inFileAddr
  | 6 => h.initData.size
  | 7 => h.uninitData.virtualAddr
  | 8 => h.uninitData.inFileAddr
  | 9 => h.uninitData.size
  | _ => 0

/-- `(const char *) &noffH`. -/
def NoffHeader.toBytes (h : NoffHeader) : ℕ → UInt8 := fun a => byteOf (h.word (a / 4)) (a % 4)

/-- The constructor of `Executable`, and `CheckMagic`. -/
def Executable.ofFile (file : HostFile) : Option Executable :=
  let header := file.readAt (fun _ => 0) 0 sizeofNoffHeader 0
  if word header 0 = noffMagic then
    some
      { code := ⟨word header 4, word header 8, word header 12⟩
        initData := ⟨word header 16, word header 20, word header 24⟩
        uninitData := ⟨word header 28, word header 32, word header 36⟩
        file := file }
  else none

/-- What the host has: memory for the bytes of the section at an index, and space for them in the
output, and for the header. -/
structure HostSystem where
  memory : ℕ → Bool
  space : ℕ → Bool
  headerSpace : Bool

/-! ## The translation -/

namespace CoffSection

/-- `CoffSectionName`, up to its first null character. -/
def cName (s : CoffSection) : List UInt8 := s.name.takeWhile (· ≠ 0)

/-- `CoffSectionRead`. -/
def read (s : CoffSection) (input : HostFile) (memory : Bool) : Except String (ℕ → UInt8) :=
  if memory = false then .error "Could not allocate memory"
  else if input.length < s.sectionPtr + s.size then .error "File is too short"
  else .ok fun a => input.byte (s.sectionPtr + a)

end CoffSection

/-- The variables of the loop: `noffH`, `inNoffFile`, and `out` with its position. -/
structure Translation where
  noffH : NoffHeader
  inNoffFile : ℕ
  out : HostFile
  position : ℕ

namespace Translation

/-- `WriteOrDie`. -/
def writeOrDie (t : Translation) (space : Bool) (buffer : ℕ → UInt8) (numBytes : ℕ) :
    Except String Translation :=
  if space = false then .error "Unable to write file"
  else .ok { t with
    out := t.out.writeAt buffer numBytes t.position
    position := t.position + numBytes }

/-- A section with bytes is copied. -/
def copySection (t : Translation) (host : HostSystem) (input : HostFile) (i : ℕ) (s : CoffSection) :
    Except String Translation := do
  let buffer ← s.read input (host.memory i)
  let t ← t.writeOrDie (host.space i) buffer s.size
  return { t with inNoffFile := (t.inNoffFile + s.size) % 2 ^ 32 }

end Translation

/-- One more section is noted in the uninitialised segment. -/
def addUninit (uninitData : NoffSegment) (s : CoffSection) : Except String NoffSegment :=
  if uninitData.size ≠ 0 then
    -- the comment of the source wants the sections to be contiguous
    if s.physAddr = (uninitData.virtualAddr + uninitData.size) % 2 ^ 32 then
      .error "Cannot handle both bss and sbss"
    else .ok { uninitData with size := (uninitData.size + s.size) % 2 ^ 32 }
  else .ok { uninitData with virtualAddr := s.physAddr, size := s.size }

/-- The body of the loop, for the section at index `i`. -/
def translateSection (host : HostSystem) (input : HostFile) (i : ℕ) (t : Translation)
    (s : CoffSection) : Except String Translation :=
  if s.size = 0 then .ok t
  else if s.cName = chars ".text" then
    Translation.copySection
      { t with noffH := { t.noffH with code := ⟨s.physAddr, t.inNoffFile, s.size⟩ } } host input i s
  else if s.cName = chars ".data" ∨ s.cName = chars ".rdata" then
    if t.noffH.initData.size ≠ 0 then .error "Cannot handle both data and rdata"
    else Translation.copySection
      { t with noffH := { t.noffH with initData := ⟨s.physAddr, t.inNoffFile, s.size⟩ } }
      host input i s
  else if s.cName = chars ".bss" ∨ s.cName = chars ".sbss" then do
    let uninitData ← addUninit t.noffH.uninitData s
    return { t with noffH := { t.noffH with uninitData := uninitData } }
  else
    -- `.comment`, `.pdr` and `.reginfo`, and any other name, with a warning
    .ok t

/-- The loop, from index `i` on. -/
def translateFrom (host : HostSystem) (input : HostFile) (i : ℕ) (t : Translation) :
    List CoffSection → Except String Translation
  | [] => .ok t
  | s :: sections => do
      let t ← translateSection host input i t s
      translateFrom host input (i + 1) t sections

/-- The variables before the loop.  `noffH` is a local variable, and of its fields only these
are set. -/
def Translation.initial (noffH : NoffHeader) : Translation where
  noffH :=
    { noffMagic := noffMagic
      code := { noffH.code with size := 0 }
      initData := { noffH.initData with size := 0 }
      uninitData := { noffH.uninitData with size := 0 } }
  inNoffFile := sizeofNoffHeader
  out := HostFile.empty
  position := sizeofNoffHeader

/-- `main`, from the loop on: the output, or the message of `Die`, which removes it. -/
def coff2noff (host : HostSystem) (noffH : NoffHeader) (input : HostFile)
    (sections : List CoffSection) : Except String HostFile := do
  let t ← translateFrom host input 0 (.initial noffH) sections
  let t ← Translation.writeOrDie { t with position := 0 } host.headerSpace t.noffH.toBytes
    sizeofNoffHeader
  return t.out

/-! ## The kinds of sections -/

/-- The segments. -/
inductive SegmentKind where
  | code
  | initData
  | uninitData
deriving DecidableEq

namespace CoffSection

/-- The segment that a section belongs to.  An empty one belongs to none. -/
def segment (s : CoffSection) : Option SegmentKind :=
  if s.size = 0 then none
  else if s.cName = chars ".text" then some .code
  else if s.cName = chars ".data" ∨ s.cName = chars ".rdata" then some .initData
  else if s.cName = chars ".bss" ∨ s.cName = chars ".sbss" then some .uninitData
  else none

/-- Its bytes go to the output. -/
def Copied (s : CoffSection) : Prop := s.segment = some .code ∨ s.segment = some .initData

instance (s : CoffSection) : Decidable s.Copied := inferInstanceAs (Decidable (_ ∨ _))

theorem size_pos {s : CoffSection} {k : SegmentKind} (h : s.segment = some k) : 0 < s.size := by
  apply Nat.pos_of_ne_zero
  intro hzero
  rw [segment, if_pos hzero] at h
  cases h

end CoffSection

/-- The sections of a segment, in their order. -/
def ofSegment (k : SegmentKind) (sections : List CoffSection) : List CoffSection :=
  sections.filter fun s => s.segment = some k

/-! ## One section -/

/-- A computation that goes through has gone through its first part. -/
theorem bind_eq_ok {ε α β : Type} {x : Except ε α} {f : α → Except ε β} {b : β} :
    x >>= f = .ok b ↔ ∃ a, x = .ok a ∧ f a = .ok b := by
  cases x with
  | error e => exact iff_of_false (fun h => nomatch h) fun h => nomatch h.choose_spec.1
  | ok a =>
    constructor
    · intro h
      exact ⟨a, rfl, h⟩
    · intro h
      obtain ⟨a', ha, hf⟩ := h
      cases ha
      exact hf

section Step
variable {host : HostSystem} {input : HostFile} {i : ℕ} {t t' : Translation} {s : CoffSection}

/-- The body of the loop, by the segment of the section. -/
theorem translateSection_eq : translateSection host input i t s =
    match s.segment with
    | none => .ok t
    | some .code => Translation.copySection
        { t with noffH := { t.noffH with code := ⟨s.physAddr, t.inNoffFile, s.size⟩ } }
        host input i s
    | some .initData =>
        if t.noffH.initData.size ≠ 0 then .error "Cannot handle both data and rdata"
        else Translation.copySection
          { t with noffH := { t.noffH with initData := ⟨s.physAddr, t.inNoffFile, s.size⟩ } }
          host input i s
    | some .uninitData => do
        let uninitData ← addUninit t.noffH.uninitData s
        return { t with noffH := { t.noffH with uninitData := uninitData } } := by
  rw [translateSection, CoffSection.segment]
  by_cases hempty : s.size = 0
  · rw [if_pos hempty, if_pos hempty]
  rw [if_neg hempty, if_neg hempty]
  by_cases htext : s.cName = chars ".text"
  · rw [if_pos htext, if_pos htext]
  rw [if_neg htext, if_neg htext]
  by_cases hdata : s.cName = chars ".data" ∨ s.cName = chars ".rdata"
  · rw [if_pos hdata, if_pos hdata]
  rw [if_neg hdata, if_neg hdata]
  by_cases hbss : s.cName = chars ".bss" ∨ s.cName = chars ".sbss"
  · rw [if_pos hbss, if_pos hbss]
  rw [if_neg hbss, if_neg hbss]

/-- The host does not refuse the section at index `i`, and the input holds its bytes. -/
structure Available (host : HostSystem) (input : HostFile) (i : ℕ) (s : CoffSection) : Prop where
  memory : host.memory i = true
  le_length : s.sectionPtr + s.size ≤ input.length
  space : host.space i = true

/-- The bytes of a section have gone to the output. -/
def Translation.copied (t : Translation) (input : HostFile) (s : CoffSection) : Translation where
  noffH := t.noffH
  inNoffFile := (t.inNoffFile + s.size) % 2 ^ 32
  out := t.out.writeAt (fun a => input.byte (s.sectionPtr + a)) s.size t.position
  position := t.position + s.size

theorem copySection_eq_ok : t.copySection host input i s = .ok t' ↔
    Available host input i s ∧ t' = t.copied input s := by
  rw [Translation.copySection, CoffSection.read]
  cases hmemory : host.memory i with
  | false =>
    refine iff_of_false (fun h => nomatch h) fun h => ?_
    exact Bool.false_ne_true (hmemory.symm.trans h.1.memory)
  | true =>
    rw [if_neg (by decide)]
    by_cases hlength : input.length < s.sectionPtr + s.size
    · rw [if_pos hlength]
      exact iff_of_false (fun h => nomatch h) fun h => Nat.not_lt.mpr h.1.le_length hlength
    · rw [if_neg hlength]
      dsimp only [bind, Except.bind]
      rw [Translation.writeOrDie]
      cases hspace : host.space i with
      | false =>
        refine iff_of_false (fun h => nomatch h) fun h => ?_
        exact Bool.false_ne_true (hspace.symm.trans h.1.space)
      | true =>
        rw [if_neg (by decide)]
        constructor
        · intro h
          exact ⟨⟨hmemory, Nat.not_lt.mp hlength, hspace⟩, (Except.ok.inj h).symm⟩
        · intro h
          rw [h.2]
          rfl

end Step

/-! ## A run -/

/-- The sections that are copied, and their places in the output from position `p` on. -/
def placedFrom (p : ℕ) : List CoffSection → List (CoffSection × ℕ)
  | [] => []
  | s :: sections =>
      if s.Copied then (s, p) :: placedFrom (p + s.size) sections else placedFrom p sections

/-- The segment `k` after sections with those places; `seg` is what it was before. -/
def lastSegment (k : SegmentKind) (seg : NoffSegment) : List (CoffSection × ℕ) → NoffSegment
  | [] => seg
  | (s, p) :: placed =>
      lastSegment k (if s.segment = some k then ⟨s.physAddr, p % 2 ^ 32, s.size⟩ else seg) placed

/-- The bytes of a section are in a file, at position `p`. -/
def HoldsAt (file input : HostFile) (s : CoffSection) (p : ℕ) : Prop :=
  p + s.size ≤ file.length ∧ ∀ a < s.size, file.byte (p + a) = input.byte (s.sectionPtr + a)

/-- What the loop makes of `t`. -/
structure Translated (input : HostFile) (sections : List CoffSection) (t t' : Translation) :
    Prop where
  magic_eq : t'.noffH.noffMagic = t.noffH.noffMagic
  code_eq : t'.noffH.code =
    lastSegment .code t.noffH.code (placedFrom t.position sections)
  initData_eq : t'.noffH.initData =
    lastSegment .initData t.noffH.initData (placedFrom t.position sections)
  no_initData : t.noffH.initData.size ≠ 0 → ofSegment .initData sections = []
  one_initData : (ofSegment .initData sections).length ≤ 1
  uninitData_eq : (ofSegment .uninitData sections).foldlM addUninit t.noffH.uninitData =
    .ok t'.noffH.uninitData
  length_le : t.out.length ≤ t'.out.length
  le_length : ∀ m, t.out.length ≤ m →
    (∀ x ∈ placedFrom t.position sections, x.2 + x.1.size ≤ m) → t'.out.length ≤ m
  kept : ∀ a < t.position, a < t.out.length → t'.out.byte a = t.out.byte a
  holds : ∀ x ∈ placedFrom t.position sections, HoldsAt t'.out input x.1 x.2

section Run
variable {host : HostSystem} {input : HostFile} {i : ℕ} {t t' : Translation} {s : CoffSection}
  {sections : List CoffSection} {k : SegmentKind}

theorem ofSegment_cons_self (h : s.segment = some k) :
    ofSegment k (s :: sections) = s :: ofSegment k sections :=
  List.filter_cons_of_pos (decide_eq_true h)

theorem ofSegment_cons_other (h : s.segment ≠ some k) :
    ofSegment k (s :: sections) = ofSegment k sections :=
  List.filter_cons_of_neg (mt of_decide_eq_true h)

theorem placedFrom_cons_copied {p : ℕ} (h : s.Copied) :
    placedFrom p (s :: sections) = (s, p) :: placedFrom (p + s.size) sections := if_pos h

theorem placedFrom_cons_other {p : ℕ} (h : ¬s.Copied) :
    placedFrom p (s :: sections) = placedFrom p sections := if_neg h

/-- A section that is not in any segment. -/
theorem Translated.skip (hs : s.segment = none) (h : Translated input sections t t') :
    Translated input (s :: sections) t t' := by
  have hplaced : placedFrom t.position (s :: sections) = placedFrom t.position sections := by
    apply placedFrom_cons_other
    rw [CoffSection.Copied, hs]
    decide
  have hother : ∀ k, ofSegment k (s :: sections) = ofSegment k sections := by
    intro k
    apply ofSegment_cons_other
    rw [hs]
    exact fun h => nomatch h
  exact
    { magic_eq := h.magic_eq
      code_eq := hplaced ▸ h.code_eq
      initData_eq := hplaced ▸ h.initData_eq
      no_initData := hother .initData ▸ h.no_initData
      one_initData := hother .initData ▸ h.one_initData
      uninitData_eq := hother .uninitData ▸ h.uninitData_eq
      length_le := h.length_le
      le_length := hplaced ▸ h.le_length
      kept := h.kept
      holds := hplaced ▸ h.holds }

/-- What is written for a section stays. -/
theorem holds_of_copied (h : Translated input sections (t.copied input s) t') :
    HoldsAt t'.out input s t.position := by
  have hlength : t.position + s.size ≤ (t.copied input s).out.length := Nat.le_max_right ..
  refine ⟨hlength.trans h.length_le, fun a ha => ?_⟩
  have hlt : t.position + a < t.position + s.size := Nat.add_lt_add_left ha _
  rw [h.kept (t.position + a) hlt (hlt.trans_le hlength)]
  exact HostFile.writeAt_byte_add ha

/-- And what was there before. -/
theorem kept_of_copied (h : Translated input sections (t.copied input s) t') :
    t.out.length ≤ t'.out.length ∧
      ∀ a < t.position, a < t.out.length → t'.out.byte a = t.out.byte a := by
  have hlength : t.out.length ≤ (t.copied input s).out.length := Nat.le_max_left ..
  refine ⟨hlength.trans h.length_le, fun a ha hlt => ?_⟩
  rw [h.kept a (ha.trans_le (Nat.le_add_right ..)) (hlt.trans_le hlength)]
  exact HostFile.writeAt_byte_outside (Or.inl ha) hlt

/-- The output is no longer than its parts. -/
theorem le_length_of_copied (h : Translated input sections (t.copied input s) t') (m : ℕ)
    (hm : t.out.length ≤ m)
    (hplaced : ∀ x ∈ (s, t.position) :: placedFrom (t.position + s.size) sections,
      x.2 + x.1.size ≤ m) : t'.out.length ≤ m := by
  apply h.le_length m
  · exact Nat.max_le.mpr ⟨hm, hplaced _ List.mem_cons_self⟩
  · intro x hx
    exact hplaced x (List.mem_cons_of_mem _ hx)

/-- A section of code. -/
theorem Translated.code (hs : s.segment = some .code)
    (h : Translated input sections
      (Translation.copied
        { t with noffH := { t.noffH with code := ⟨s.physAddr, t.inNoffFile, s.size⟩ } } input s) t')
    (hinFile : t.inNoffFile = t.position % 2 ^ 32) : Translated input (s :: sections) t t' := by
  have hplaced : placedFrom t.position (s :: sections) =
      (s, t.position) :: placedFrom (t.position + s.size) sections :=
    placedFrom_cons_copied (Or.inl hs)
  have hholds := holds_of_copied h
  have hdata : s.segment ≠ some .initData := by
    rw [hs]
    decide
  have huninit : s.segment ≠ some .uninitData := by
    rw [hs]
    decide
  have hlength := le_length_of_copied h
  refine ⟨h.magic_eq, ?_, ?_, ?_, ?_, ?_, (kept_of_copied h).1, hplaced ▸ hlength,
    (kept_of_copied h).2, ?_⟩
  · rw [hplaced, lastSegment, if_pos hs, ← hinFile]
    exact h.code_eq
  · rw [hplaced, lastSegment, if_neg hdata]
    exact h.initData_eq
  · rw [ofSegment_cons_other hdata]
    exact h.no_initData
  · rw [ofSegment_cons_other hdata]
    exact h.one_initData
  · rw [ofSegment_cons_other huninit]
    exact h.uninitData_eq
  · rw [hplaced]
    exact List.forall_mem_cons.mpr ⟨hholds, h.holds⟩

/-- A section of initialised data, the first of its kind. -/
theorem Translated.initData (hs : s.segment = some .initData) (hnone : t.noffH.initData.size = 0)
    (h : Translated input sections
      (Translation.copied
        { t with noffH := { t.noffH with initData := ⟨s.physAddr, t.inNoffFile, s.size⟩ } } input s)
      t')
    (hinFile : t.inNoffFile = t.position % 2 ^ 32) : Translated input (s :: sections) t t' := by
  have hplaced : placedFrom t.position (s :: sections) =
      (s, t.position) :: placedFrom (t.position + s.size) sections :=
    placedFrom_cons_copied (Or.inr hs)
  have hholds := holds_of_copied h
  have hcode : s.segment ≠ some .code := by
    rw [hs]
    decide
  have huninit : s.segment ≠ some .uninitData := by
    rw [hs]
    decide
  have hrest : ofSegment .initData sections = [] :=
    h.no_initData (CoffSection.size_pos hs).ne'
  have hlength := le_length_of_copied h
  refine ⟨h.magic_eq, ?_, ?_, fun hsome => absurd hnone hsome, ?_, ?_, (kept_of_copied h).1,
    hplaced ▸ hlength, (kept_of_copied h).2, ?_⟩
  · rw [hplaced, lastSegment, if_neg hcode]
    exact h.code_eq
  · rw [hplaced, lastSegment, if_pos hs, ← hinFile]
    exact h.initData_eq
  · rw [ofSegment_cons_self hs, hrest]
    exact le_rfl
  · rw [ofSegment_cons_other huninit]
    exact h.uninitData_eq
  · rw [hplaced]
    exact List.forall_mem_cons.mpr ⟨hholds, h.holds⟩

/-- A section of uninitialised data. -/
theorem Translated.uninitData {uninitData : NoffSegment} (hs : s.segment = some .uninitData)
    (hadd : addUninit t.noffH.uninitData s = .ok uninitData)
    (h : Translated input sections
      { t with noffH := { t.noffH with uninitData := uninitData } } t') :
    Translated input (s :: sections) t t' := by
  have hplaced : placedFrom t.position (s :: sections) = placedFrom t.position sections := by
    apply placedFrom_cons_other
    rw [CoffSection.Copied, hs]
    decide
  have hdata : ofSegment .initData (s :: sections) = ofSegment .initData sections := by
    apply ofSegment_cons_other
    rw [hs]
    decide
  refine ⟨h.magic_eq, hplaced ▸ h.code_eq, hplaced ▸ h.initData_eq, hdata ▸ h.no_initData,
    hdata ▸ h.one_initData, ?_, h.length_le, hplaced ▸ h.le_length, h.kept, hplaced ▸ h.holds⟩
  rw [ofSegment_cons_self hs, List.foldlM_cons, hadd]
  exact h.uninitData_eq

/-- **A run of the loop.** -/
theorem translateFrom_eq (hrun : translateFrom host input i t sections = .ok t')
    (hinFile : t.inNoffFile = t.position % 2 ^ 32) : Translated input sections t t' := by
  induction sections generalizing i t with
  | nil =>
    cases hrun
    exact ⟨rfl, rfl, rfl, fun _ => rfl, Nat.zero_le 1, rfl, le_rfl, fun _ hm _ => hm,
      fun _ _ _ => rfl, fun _ hx => absurd hx List.not_mem_nil⟩
  | cons s sections ih =>
    rw [translateFrom, translateSection_eq] at hrun
    -- what is copied moves the position and the index alike
    have hnext : ∀ t : Translation, t.inNoffFile = t.position % 2 ^ 32 →
        (t.copied input s).inNoffFile = (t.copied input s).position % 2 ^ 32 := by
      intro t h
      show (t.inNoffFile + s.size) % 2 ^ 32 = (t.position + s.size) % 2 ^ 32
      rw [h, Nat.mod_add_mod]
    cases hs : s.segment with
    | none =>
      rw [hs] at hrun
      exact (ih hrun hinFile).skip hs
    | some k =>
      rw [hs] at hrun
      cases k with
      | code =>
        obtain ⟨t₁, hcopy, hrest⟩ := bind_eq_ok.mp hrun
        obtain ⟨-, rfl⟩ := copySection_eq_ok.mp hcopy
        exact (ih hrest (hnext _ hinFile)).code hs hinFile
      | initData =>
        by_cases hsome : t.noffH.initData.size ≠ 0
        · rw [if_pos hsome] at hrun
          cases hrun
        · rw [if_neg hsome] at hrun
          obtain ⟨t₁, hcopy, hrest⟩ := bind_eq_ok.mp hrun
          obtain ⟨-, rfl⟩ := copySection_eq_ok.mp hcopy
          exact (ih hrest (hnext _ hinFile)).initData hs (not_not.mp hsome) hinFile
      | uninitData =>
        obtain ⟨t₁, hsection, hrest⟩ := bind_eq_ok.mp hrun
        obtain ⟨uninitData, hadd, heq⟩ := bind_eq_ok.mp hsection
        cases heq
        exact (ih hrest hinFile).uninitData hs hadd

/-- **When the loop comes to its end**: the sections that are copied can be read and written, at
most one of them is of initialised data, and no other is refused. -/
theorem exists_translateFrom {uninitData : NoffSegment}
    (havailable : ∀ j s, sections[j]? = some s → s.Copied → Available host input (i + j) s)
    (hone : (ofSegment .initData sections).length ≤ 1)
    (hnone : t.noffH.initData.size ≠ 0 → ofSegment .initData sections = [])
    (hadd : (ofSegment .uninitData sections).foldlM addUninit t.noffH.uninitData =
      .ok uninitData) :
    ∃ t', translateFrom host input i t sections = .ok t' := by
  induction sections generalizing i t with
  | nil => exact ⟨t, rfl⟩
  | cons s sections ih =>
    have hhead : s.Copied → Available host input i s := havailable 0 s rfl
    have htail : ∀ j s, sections[j]? = some s → s.Copied → Available host input (i + 1 + j) s := by
      intro j s hj
      rw [Nat.add_right_comm]
      exact havailable (j + 1) s hj
    rw [translateFrom, translateSection_eq]
    cases hs : s.segment with
    | none =>
      have hother : ∀ k, s.segment ≠ some k := by
        intro k
        rw [hs]
        exact fun h => nomatch h
      rw [ofSegment_cons_other (hother _)] at hone hnone hadd
      exact ih htail hone hnone hadd
    | some k =>
      cases k with
      | code =>
        have hother : ∀ k, k ≠ .code → s.segment ≠ some k := by
          intro k hk
          rw [hs]
          exact fun h => hk (Option.some.inj h).symm
        rw [ofSegment_cons_other (hother _ (by decide))] at hone hnone hadd
        have hcopy := copySection_eq_ok (t := { t with noffH := { t.noffH with
          code := ⟨s.physAddr, t.inNoffFile, s.size⟩ } }).mpr ⟨hhead (Or.inl hs), rfl⟩
        obtain ⟨t', ht'⟩ := ih (t := Translation.copied { t with noffH := { t.noffH with
          code := ⟨s.physAddr, t.inNoffFile, s.size⟩ } } input s) htail hone hnone hadd
        exact ⟨t', bind_eq_ok.mpr ⟨_, hcopy, ht'⟩⟩
      | initData =>
        have hother : s.segment ≠ some .uninitData := by
          rw [hs]
          decide
        have hzero : ¬t.noffH.initData.size ≠ 0 := by
          intro hsome
          have hnil := hnone hsome
          rw [ofSegment_cons_self hs] at hnil
          cases hnil
        rw [ofSegment_cons_self hs, List.length_cons] at hone
        have hrest : ofSegment .initData sections = [] := by
          apply List.eq_nil_of_length_eq_zero
          omega
        rw [ofSegment_cons_other hother] at hadd
        have hcopy := copySection_eq_ok (t := { t with noffH := { t.noffH with
          initData := ⟨s.physAddr, t.inNoffFile, s.size⟩ } }).mpr ⟨hhead (Or.inr hs), rfl⟩
        obtain ⟨t', ht'⟩ := ih (t := Translation.copied { t with noffH := { t.noffH with
          initData := ⟨s.physAddr, t.inNoffFile, s.size⟩ } } input s) htail (by omega)
          (fun _ => hrest) hadd
        dsimp only
        rw [if_neg hzero]
        exact ⟨t', bind_eq_ok.mpr ⟨_, hcopy, ht'⟩⟩
      | uninitData =>
        have hother : s.segment ≠ some .initData := by
          rw [hs]
          decide
        rw [ofSegment_cons_other hother] at hone hnone
        rw [ofSegment_cons_self hs, List.foldlM_cons] at hadd
        obtain ⟨uninitData₁, hfirst, hadd⟩ := bind_eq_ok.mp hadd
        obtain ⟨t', ht'⟩ := ih (t := { t with noffH := { t.noffH with
          uninitData := uninitData₁ } }) htail hone hnone hadd
        exact ⟨t', bind_eq_ok.mpr ⟨_, bind_eq_ok.mpr ⟨_, hfirst, rfl⟩, ht'⟩⟩

end Run

/-! ## The file -/

/-- A segment as the words of a header hold it. -/
def NoffSegment.stored (seg : NoffSegment) : NoffSegment where
  virtualAddr := seg.virtualAddr % 2 ^ 32
  inFileAddr := seg.inFileAddr % 2 ^ 32
  size := seg.size % 2 ^ 32

/-- **The header is read back.** -/
theorem ofFile_writeAt (out : HostFile) (h : NoffHeader) (hmagic : h.noffMagic = noffMagic) :
    Executable.ofFile (out.writeAt h.toBytes sizeofNoffHeader 0) =
      some
        { code := h.code.stored
          initData := h.initData.stored
          uninitData := h.uninitData.stored
          file := out.writeAt h.toBytes sizeofNoffHeader 0 } := by
  have hlength : sizeofNoffHeader ≤ (out.writeAt h.toBytes sizeofNoffHeader 0).length := by
    show sizeofNoffHeader ≤ max out.length (0 + sizeofNoffHeader)
    rw [Nat.zero_add]
    exact Nat.le_max_right ..
  have hword : ∀ k < 10, word ((out.writeAt h.toBytes sizeofNoffHeader 0).readAt (fun _ => 0) 0
      sizeofNoffHeader 0) (4 * k) = h.word k % 2 ^ 32 := by
    intro k hk
    apply word_eq
    intro i hi
    have hlt : 4 * k + i < sizeofNoffHeader := by
      rw [show sizeofNoffHeader = 40 from rfl]
      omega
    have hread : (out.writeAt h.toBytes sizeofNoffHeader 0).readAt (fun _ => 0) 0
        sizeofNoffHeader 0 (0 + (4 * k + i)) =
          (out.writeAt h.toBytes sizeofNoffHeader 0).byte (0 + (4 * k + i)) := by
      apply HostFile.readAt_add hlt
      rw [Nat.zero_add]
      exact hlt.trans_le hlength
    have hwrite : (out.writeAt h.toBytes sizeofNoffHeader 0).byte (0 + (4 * k + i)) =
        h.toBytes (4 * k + i) := HostFile.writeAt_byte_add hlt
    rw [Nat.zero_add] at hread hwrite
    rw [hread, hwrite, NoffHeader.toBytes]
    congr 2
    · omega
    · omega
  have hmagic' : h.word 0 % 2 ^ 32 = noffMagic := by
    rw [NoffHeader.word, hmagic]
    rfl
  rw [Executable.ofFile, if_pos ((hword 0 (by decide)).trans hmagic'), hword 1 (by decide),
    hword 2 (by decide), hword 3 (by decide), hword 4 (by decide), hword 5 (by decide),
    hword 6 (by decide), hword 7 (by decide), hword 8 (by decide), hword 9 (by decide)]
  rfl

/-- **The output of a translation**, if there is one. -/
theorem coff2noff_eq_ok {host : HostSystem} {noffH : NoffHeader} {input out : HostFile}
    {sections : List CoffSection} : coff2noff host noffH input sections = .ok out ↔
      host.headerSpace = true ∧ ∃ t, translateFrom host input 0 (.initial noffH) sections = .ok t ∧
        out = t.out.writeAt t.noffH.toBytes sizeofNoffHeader 0 := by
  rw [coff2noff, bind_eq_ok]
  cases hspace : host.headerSpace with
  | false =>
    refine iff_of_false (fun h => ?_) fun h => Bool.false_ne_true h.1
    obtain ⟨t, -, h⟩ := h
    cases h
  | true =>
    rw [and_iff_right rfl]
    apply exists_congr
    intro t
    rw [Translation.writeOrDie, if_neg (by decide)]
    apply and_congr_right
    intro _
    exact ⟨fun h => (Except.ok.inj h).symm, fun h => congrArg Except.ok h.symm⟩

end PaldOs
