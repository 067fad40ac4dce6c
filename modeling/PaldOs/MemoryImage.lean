import PaldOs.Coff2Noff
import PaldOs.Stretches

/-! # The memory image of a program

What the sections of a COFF file say about the memory of the program, and what the NOFF file says
that `coff2noff` makes of them, as `Executable` reads it.  The sections of code and data do not
overlap and are packed from address 0 on.

There is one segment for all `.bss` and `.sbss` sections together.  It begins where the first of
them begins and is as long as all of them.  So it is right if they are contiguous and the first
comes first; but this is what the test in `addUninit` refuses, where it should refuse the opposite.
-/
namespace PaldOs

open Stretch

/-- The sections with a place in memory. -/
def mapped (sections : List CoffSection) : List CoffSection :=
  sections.filter fun s => s.segment.isSome

/-- The sections with a place in the output. -/
def copies (sections : List CoffSection) : List CoffSection := sections.filter fun s => s.Copied

namespace CoffSection

/-- The section covers address `a`. -/
abbrev Covers (s : CoffSection) (a : ℕ) : Prop := Stretch.Covers physAddr size s a

/-- One section ends where the other begins. -/
def Adjacent (s s' : CoffSection) : Prop :=
  s.physAddr + s.size = s'.physAddr ∨ s'.physAddr + s'.size = s.physAddr

end CoffSection

/-- The sections do not overlap, and they are packed from address 0 to `n`. -/
structure Packed (sections : List CoffSection) (n : ℕ) : Prop where
  apart : (mapped sections).Pairwise (Apart CoffSection.physAddr CoffSection.size)
  covers : ∀ a, a < n ↔ ∃ s ∈ mapped sections, s.Covers a

/-- The segment carries the bytes and the addresses of the section.  Its bytes are behind the header
of the file. -/
structure Carries (exe : Executable) (seg : NoffSegment) (input : HostFile) (s : CoffSection) :
    Prop where
  virtualAddr_eq : seg.virtualAddr = s.physAddr
  size_eq : seg.size = s.size
  behind : sizeofNoffHeader ≤ seg.inFileAddr
  holds : HoldsAt exe.file input s seg.inFileAddr

/-- **The same image**, up to address `n`. -/
structure SameImage (input : HostFile) (sections : List CoffSection) (n : ℕ) (exe : Executable) :
    Prop where
  code : ∀ s ∈ ofSegment .code sections, Carries exe exe.code input s
  no_code : ofSegment .code sections = [] → exe.code.size = 0
  initData : ∀ s ∈ ofSegment .initData sections, Carries exe exe.initData input s
  no_initData : ofSegment .initData sections = [] → exe.initData.size = 0
  uninitData : ∀ a, exe.uninitData.virtualAddr ≤ a ∧
    a < exe.uninitData.virtualAddr + exe.uninitData.size ↔
      ∃ s ∈ ofSegment .uninitData sections, s.Covers a
  getSize_eq : exe.getSize = n

/-- All lie in the stretch that begins where the first one does and is as long as all of them. -/
def Fills (l : List CoffSection) : Prop :=
  ∀ b ∈ l.head?, ∀ s ∈ l, b.physAddr ≤ s.physAddr ∧
    s.physAddr + s.size ≤ b.physAddr + extent CoffSection.size l

/-- What one segment of each kind can say: one section of code; an image, and an output, of less
than 4 GiB; and one section of uninitialised data, or more than two that fill the addresses from the
first one on. -/
structure Mergeable (sections : List CoffSection) (n : ℕ) : Prop where
  one_code : (ofSegment .code sections).length ≤ 1
  end_lt : n < 2 ^ 32
  inFile : (copies sections).Pairwise fun s _ => sizeofNoffHeader + s.size < 2 ^ 32
  uninitData : (ofSegment .uninitData sections).length ≤ 1 ∨
    2 < (ofSegment .uninitData sections).length ∧ Fills (ofSegment .uninitData sections)

/-- Nothing but the test of the uninitialised data can stop the translation. -/
structure Unhindered (host : HostSystem) (input : HostFile) (sections : List CoffSection) :
    Prop where
  available : ∀ j s, sections[j]? = some s → s.Copied → Available host input j s
  headerSpace : host.headerSpace = true
  one_initData : (ofSegment .initData sections).length ≤ 1

/-! ## The sections by segment -/

section Sections
variable {sections : List CoffSection} {s : CoffSection} {k : SegmentKind} {n p : ℕ}

theorem mem_ofSegment : s ∈ ofSegment k sections ↔ s ∈ sections ∧ s.segment = some k := by
  rw [ofSegment, List.mem_filter, decide_eq_true_iff]

/-- The sections of one segment are among those in memory. -/
theorem ofSegment_mapped : ofSegment k (mapped sections) = ofSegment k sections := by
  rw [ofSegment, mapped, List.filter_filter]
  apply List.filter_congr
  intro s _
  by_cases hs : s.segment = some k
  · rw [hs, Option.isSome_some, Bool.and_true]
  · rw [decide_eq_false hs, Bool.false_and]

theorem Packed.apart_ofSegment (h : Packed sections n) :
    (ofSegment k sections).Pairwise (Apart CoffSection.physAddr CoffSection.size) := by
  rw [← ofSegment_mapped]
  exact h.apart.filter _

/-- The sections in memory are those of the three segments. -/
theorem extent_mapped : extent CoffSection.size (mapped sections) =
    extent CoffSection.size (ofSegment .code sections) +
      extent CoffSection.size (ofSegment .initData sections) +
      extent CoffSection.size (ofSegment .uninitData sections) := by
  induction sections with
  | nil => rfl
  | cons s sections ih =>
    have hmapped : ∀ b, s.segment.isSome = b → mapped (s :: sections) =
        if b = true then s :: mapped sections else mapped sections := by
      intro b hb
      rw [mapped, List.filter_cons, hb]
      rfl
    have hself : ∀ k, s.segment = some k →
        ofSegment k (s :: sections) = s :: ofSegment k sections := fun _ => ofSegment_cons_self
    have hother : ∀ k, s.segment ≠ some k →
        ofSegment k (s :: sections) = ofSegment k sections := fun _ => ofSegment_cons_other
    cases hs : s.segment with
    | none =>
      rw [hs] at hother
      rw [hmapped false (by rw [hs]; rfl), if_neg Bool.false_ne_true, hother _ (by decide),
        hother _ (by decide), hother _ (by decide), ih]
    | some k =>
      rw [hs] at hself hother
      rw [hmapped true (by rw [hs]; rfl), if_pos rfl, extent_cons, ih]
      cases k with
      | code =>
        rw [hself _ rfl, hother _ (by decide), hother _ (by decide), extent_cons]
        omega
      | initData =>
        rw [hself _ rfl, hother _ (by decide), hother _ (by decide), extent_cons]
        omega
      | uninitData =>
        rw [hself _ rfl, hother _ (by decide), hother _ (by decide), extent_cons]
        omega

/-- **The sections are as long as the image.** -/
theorem Packed.extent_eq (h : Packed sections n) :
    extent CoffSection.size (ofSegment .code sections) +
      extent CoffSection.size (ofSegment .initData sections) +
      extent CoffSection.size (ofSegment .uninitData sections) = n := by
  rw [← extent_mapped]
  exact Stretch.extent_eq h.apart h.covers

theorem copies_cons_copied (h : s.Copied) : copies (s :: sections) = s :: copies sections :=
  List.filter_cons_of_pos (decide_eq_true h)

theorem copies_cons_other (h : ¬s.Copied) : copies (s :: sections) = copies sections :=
  List.filter_cons_of_neg (mt of_decide_eq_true h)

/-- Sections one after the other are packed. -/
theorem packed_of_endToEnd
    (h : EndToEnd CoffSection.physAddr CoffSection.size 0 (mapped sections)) :
    Packed sections (extent CoffSection.size (mapped sections)) := by
  refine ⟨h.apart, fun a => ?_⟩
  rw [← h.covers_iff, Nat.zero_add]
  exact (and_iff_right (Nat.zero_le a)).symm

/-- Only the sections that are copied get a place. -/
theorem placedFrom_copies : placedFrom p (copies sections) = placedFrom p sections := by
  induction sections generalizing p with
  | nil => rfl
  | cons s sections ih =>
    by_cases hs : s.Copied
    · rw [copies_cons_copied hs, placedFrom_cons_copied hs, placedFrom_cons_copied hs, ih]
    · rw [copies_cons_other hs, placedFrom_cons_other hs, ih]

/-- **The sections that are copied have places.** -/
theorem map_placedFrom : (placedFrom p sections).map Prod.fst = copies sections := by
  induction sections generalizing p with
  | nil => rfl
  | cons s sections ih =>
    by_cases hs : s.Copied
    · rw [copies_cons_copied hs, placedFrom_cons_copied hs, List.map_cons, ih]
    · rw [copies_cons_other hs, placedFrom_cons_other hs, ih]

theorem mem_copies : s ∈ copies sections ↔ s ∈ sections ∧ s.Copied := by
  rw [copies, List.mem_filter, decide_eq_true_iff]

theorem copied_of_placed {x : CoffSection × ℕ} (hx : x ∈ placedFrom p sections) :
    x.1 ∈ sections ∧ x.1.Copied := by
  apply mem_copies.mp
  rw [← map_placedFrom (p := p)]
  exact List.mem_map_of_mem hx

theorem exists_placed (hs : s ∈ sections) (hcopied : s.Copied) (p : ℕ) :
    ∃ q, (s, q) ∈ placedFrom p sections := by
  have hmem := mem_copies.mpr ⟨hs, hcopied⟩
  rw [← map_placedFrom (p := p)] at hmem
  obtain ⟨x, hx, heq⟩ := List.mem_map.mp hmem
  exact ⟨x.2, heq ▸ hx⟩

theorem length_copies : (copies sections).length =
    (ofSegment .code sections).length + (ofSegment .initData sections).length := by
  induction sections with
  | nil => rfl
  | cons s sections ih =>
    by_cases hcode : s.segment = some .code
    · have hdata : s.segment ≠ some .initData := by
        rw [hcode]
        decide
      rw [copies_cons_copied (Or.inl hcode), ofSegment_cons_self hcode, ofSegment_cons_other hdata,
        List.length_cons, List.length_cons, ih]
      omega
    · by_cases hdata : s.segment = some .initData
      · rw [copies_cons_copied (Or.inr hdata), ofSegment_cons_self hdata,
          ofSegment_cons_other hcode, List.length_cons, List.length_cons, ih]
        omega
      · rw [copies_cons_other (not_or.mpr ⟨hcode, hdata⟩), ofSegment_cons_other hcode,
          ofSegment_cons_other hdata, ih]

/-- The places of two sections at the most. -/
theorem placedFrom_two (hlength : (copies sections).length ≤ 2) :
    placedFrom p sections = [] ∨ (∃ s, copies sections = [s] ∧ placedFrom p sections = [(s, p)]) ∨
      ∃ s s', copies sections = [s, s'] ∧
        placedFrom p sections = [(s, p), (s', p + s.size)] := by
  have hcopied : ∀ s ∈ copies sections, s.Copied := fun s hs => (mem_copies.mp hs).2
  rw [← placedFrom_copies]
  match hcopies : copies sections with
  | [] => exact Or.inl rfl
  | [s] =>
    rw [hcopies] at hcopied
    refine Or.inr (Or.inl ⟨s, rfl, ?_⟩)
    rw [placedFrom_cons_copied (hcopied s List.mem_cons_self)]
    rfl
  | [s, s'] =>
    rw [hcopies] at hcopied
    refine Or.inr (Or.inr ⟨s, s', rfl, ?_⟩)
    rw [placedFrom_cons_copied (hcopied s List.mem_cons_self),
      placedFrom_cons_copied (hcopied s' (List.mem_cons_of_mem _ List.mem_cons_self))]
    rfl
  | _ :: _ :: _ :: _ =>
    rw [hcopies] at hlength
    simp at hlength

/-- They are behind the header, as far as 32 bits tell it. -/
theorem placed_bounds (hlength : (copies sections).length ≤ 2) {x : CoffSection × ℕ}
    (hx : x ∈ placedFrom sizeofNoffHeader sections) :
    sizeofNoffHeader ≤ x.2 ∧ x.2 < sizeofNoffHeader + 2 ^ 32 := by
  have hsize : sizeofNoffHeader = 40 := rfl
  obtain hnil | hrest := placedFrom_two (p := sizeofNoffHeader) hlength
  · rw [hnil] at hx
    exact absurd hx List.not_mem_nil
  obtain ⟨s, -, hone⟩ | ⟨s, s', -, htwo⟩ := hrest
  · rw [hone] at hx
    rw [List.mem_singleton.mp hx]
    exact ⟨le_rfl, by omega⟩
  · have hlt := s.size_lt
    rw [htwo] at hx
    obtain rfl | hx := List.mem_cons.mp hx
    · exact ⟨le_rfl, by omega⟩
    · rw [List.mem_singleton.mp hx]
      exact ⟨Nat.le_add_right .., Nat.add_lt_add_left hlt _⟩

/-- When the 32 bits do. -/
theorem pairwise_copies_iff (hlength : (copies sections).length ≤ 2) :
    ((copies sections).Pairwise fun s _ => sizeofNoffHeader + s.size < 2 ^ 32) ↔
      ∀ x ∈ placedFrom sizeofNoffHeader sections, x.2 < 2 ^ 32 := by
  have hheader : sizeofNoffHeader < 2 ^ 32 := by decide
  obtain hnil | hrest := placedFrom_two (p := sizeofNoffHeader) hlength
  · have hcopies : copies sections = [] := by
      rw [← map_placedFrom (p := sizeofNoffHeader), hnil]
      rfl
    rw [hnil, hcopies]
    exact iff_of_true List.Pairwise.nil fun x hx => absurd hx List.not_mem_nil
  obtain ⟨s, hcopies, hone⟩ | ⟨s, s', hcopies, htwo⟩ := hrest
  · rw [hcopies, hone, List.forall_mem_singleton]
    exact iff_of_true (List.pairwise_singleton ..) hheader
  · rw [hcopies, htwo, List.pairwise_pair, List.forall_mem_cons, List.forall_mem_singleton]
    exact (and_iff_right hheader).symm

end Sections

/-! ## The segments of the code and of the initialised data -/

section Copied
variable {input file : HostFile} {sections : List CoffSection} {k : SegmentKind} {seg : NoffSegment}
  {exe : Executable} {p : ℕ}

theorem lastSegment_none (hnone : ofSegment k sections = []) :
    lastSegment k seg (placedFrom p sections) = seg := by
  induction sections generalizing p with
  | nil => rfl
  | cons s sections ih =>
    have hs : s.segment ≠ some k := by
      intro hs
      rw [ofSegment_cons_self hs] at hnone
      cases hnone
    rw [ofSegment_cons_other hs] at hnone
    by_cases hcopied : s.Copied
    · rw [placedFrom_cons_copied hcopied, lastSegment, if_neg hs]
      exact ih hnone
    · rw [placedFrom_cons_other hcopied]
      exact ih hnone

/-- **The only section of its kind** is the last one. -/
theorem lastSegment_of_mem {x : CoffSection × ℕ} (hx : x ∈ placedFrom p sections)
    (hk : x.1.segment = some k) (hone : (ofSegment k sections).length ≤ 1) :
    lastSegment k seg (placedFrom p sections) =
      ⟨x.1.physAddr, x.2 % 2 ^ 32, x.1.size⟩ := by
  induction sections generalizing p seg with
  | nil => exact absurd hx List.not_mem_nil
  | cons s sections ih =>
    by_cases hcopied : s.Copied
    · rw [placedFrom_cons_copied hcopied] at hx ⊢
      rw [lastSegment]
      by_cases hs : s.segment = some k
      · rw [ofSegment_cons_self hs, List.length_cons] at hone
        have hnone : ofSegment k sections = [] := List.eq_nil_of_length_eq_zero (by omega)
        rw [if_pos hs, lastSegment_none hnone]
        cases List.mem_cons.mp hx with
        | inl heq => rw [heq]
        | inr hmem =>
          have hin : x.1 ∈ ofSegment k sections :=
            mem_ofSegment.mpr ⟨(copied_of_placed hmem).1, hk⟩
          rw [hnone] at hin
          exact absurd hin List.not_mem_nil
      · rw [if_neg hs]
        rw [ofSegment_cons_other hs] at hone
        cases List.mem_cons.mp hx with
        | inl heq =>
          rw [heq] at hk
          exact absurd hk hs
        | inr hmem => exact ih hmem hone
    · rw [placedFrom_cons_other hcopied] at hx ⊢
      have hs : s.segment ≠ some k := by
        intro hs
        have hcopied' : x.1.Copied := (copied_of_placed hx).2
        rw [CoffSection.Copied, hk, ← hs] at hcopied'
        exact hcopied hcopied'
      rw [ofSegment_cons_other hs] at hone
      exact ih hx hone

/-- The segment of the only section of its kind says where it is, if 32 bits do. -/
theorem carries_iff {x : CoffSection × ℕ} (hseg : seg = ⟨x.1.physAddr, x.2 % 2 ^ 32, x.1.size⟩)
    (hbehind : sizeofNoffHeader ≤ x.2) (hlt : x.2 < sizeofNoffHeader + 2 ^ 32)
    (hholds : HoldsAt exe.file input x.1 x.2) :
    Carries exe seg.stored input x.1 ↔ x.2 < 2 ^ 32 := by
  have hheader : sizeofNoffHeader = 40 := rfl
  constructor
  · intro h
    have hinFile : sizeofNoffHeader ≤ seg.inFileAddr % 2 ^ 32 := h.behind
    rw [hseg, Nat.mod_mod, hheader] at hinFile
    rw [hheader] at hlt
    omega
  · intro h
    have hinFile : seg.stored.inFileAddr = x.2 := by
      rw [hseg]
      show x.2 % 2 ^ 32 % 2 ^ 32 = x.2
      rw [Nat.mod_mod, Nat.mod_eq_of_lt h]
    refine ⟨?_, ?_, hinFile.symm ▸ hbehind, hinFile.symm ▸ hholds⟩
    · rw [hseg]
      exact Nat.mod_eq_of_lt x.1.physAddr_lt
    · rw [hseg]
      exact Nat.mod_eq_of_lt x.1.size_lt

/-- The sections that overlap with no other cannot all be in one segment, unless it is one. -/
theorem one_of_carries
    (hapart : (ofSegment k sections).Pairwise (Apart CoffSection.physAddr CoffSection.size))
    (h : ∀ s ∈ ofSegment k sections, Carries exe seg input s) :
    (ofSegment k sections).length ≤ 1 := by
  match hsections : ofSegment k sections with
  | [] => exact Nat.zero_le 1
  | [_] => exact le_rfl
  | s :: s' :: rest =>
    rw [hsections] at hapart h
    have hmem : s' ∈ s :: s' :: rest := List.mem_cons_of_mem _ List.mem_cons_self
    have hfirst := h s List.mem_cons_self
    have hsecond := h s' hmem
    have haddr := hfirst.virtualAddr_eq.symm.trans hsecond.virtualAddr_eq
    have hpos : 0 < s.size := by
      apply CoffSection.size_pos (k := k)
      exact (mem_ofSegment.mp (hsections ▸ List.mem_cons_self)).2
    have hpos' : 0 < s'.size := by
      apply CoffSection.size_pos (k := k)
      exact (mem_ofSegment.mp (hsections ▸ hmem)).2
    cases (List.pairwise_cons.mp hapart).1 s' List.mem_cons_self with
    | inl hle => omega
    | inr hle => omega

/-- The size of the segment is that of the sections. -/
theorem size_eq_extent (hone : (ofSegment k sections).length ≤ 1)
    (h : ∀ s ∈ ofSegment k sections, Carries exe seg input s)
    (hnone : ofSegment k sections = [] → seg.size = 0) :
    seg.size = extent CoffSection.size (ofSegment k sections) := by
  match hsections : ofSegment k sections with
  | [] => exact hnone hsections
  | [s] => exact (h s (hsections ▸ List.mem_cons_self)).size_eq
  | _ :: _ :: _ =>
    rw [hsections] at hone
    simp at hone

end Copied

/-! ## The uninitialised segment -/

section Uninit
variable {seg seg' : NoffSegment} {l : List CoffSection} {b b' : CoffSection}

/-- More sections after the first one. -/
theorem foldlM_addUninit (h : l.foldlM addUninit seg = .ok seg') (hsize : seg.size ≠ 0)
    (hlt : seg.size + extent CoffSection.size l < 2 ^ 32) :
    seg'.virtualAddr = seg.virtualAddr ∧ seg'.size = seg.size + extent CoffSection.size l := by
  induction l generalizing seg with
  | nil =>
    cases h
    exact ⟨rfl, rfl⟩
  | cons s l ih =>
    rw [List.foldlM_cons, addUninit, if_pos hsize] at h
    rw [extent_cons] at hlt
    obtain ⟨seg₁, hadd, hrest⟩ := bind_eq_ok.mp h
    split at hadd
    · cases hadd
    · cases hadd
      have hwrap : (seg.size + s.size) % 2 ^ 32 = seg.size + s.size :=
        Nat.mod_eq_of_lt (by omega)
      rw [hwrap] at hrest
      obtain ⟨haddr, hsum⟩ := ih hrest (by show seg.size + s.size ≠ 0; omega)
        (by show seg.size + s.size + _ < _; omega)
      refine ⟨haddr, hsum.trans ?_⟩
      rw [extent_cons]
      exact Nat.add_assoc ..

/-- The segment begins where the first section does, and is as long as all of them. -/
theorem addUninit_spec (h : l.foldlM addUninit seg = .ok seg') (hsize : seg.size = 0)
    (hpos : ∀ s ∈ l, 0 < s.size) (hlt : extent CoffSection.size l < 2 ^ 32) :
    seg'.size = extent CoffSection.size l ∧ ∀ b ∈ l.head?, seg'.virtualAddr = b.physAddr := by
  cases l with
  | nil =>
    cases h
    exact ⟨hsize, fun b hb => nomatch hb⟩
  | cons s l =>
    rw [List.foldlM_cons, addUninit, if_neg (not_not.mpr hsize)] at h
    rw [extent_cons] at hlt
    have hrest : l.foldlM addUninit { seg with virtualAddr := s.physAddr, size := s.size } =
        .ok seg' := h
    obtain ⟨haddr, hsum⟩ := foldlM_addUninit hrest (hpos s List.mem_cons_self).ne' hlt
    refine ⟨hsum, fun b hb => ?_⟩
    rw [haddr, Option.some.inj hb]

/-- **The test of two sections.** -/
theorem foldlM_addUninit_pair (hsize : seg.size = 0) (hpos : 0 < b.size) :
    (∃ seg', [b, b'].foldlM addUninit seg = .ok seg') ↔
      b'.physAddr ≠ (b.physAddr + b.size) % 2 ^ 32 := by
  rw [List.foldlM_cons, addUninit, if_neg (not_not.mpr hsize)]
  show (∃ seg', addUninit { seg with virtualAddr := b.physAddr, size := b.size } b' >>= pure =
    .ok seg') ↔ _
  rw [addUninit, if_pos hpos.ne', bind_pure]
  by_cases heq : b'.physAddr = (b.physAddr + b.size) % 2 ^ 32
  · rw [if_pos heq]
    exact iff_of_false (fun h => nomatch h.choose_spec) (not_not.mpr heq)
  · rw [if_neg heq]
    exact iff_of_true ⟨_, rfl⟩ heq

end Uninit

section UninitData
variable {sections : List CoffSection} {noffH : NoffHeader} {t : Translation} {seg : NoffSegment}
  {n : ℕ}

theorem uninitData_pos : ∀ s ∈ ofSegment .uninitData sections, 0 < s.size :=
  fun _ hs => CoffSection.size_pos (mem_ofSegment.mp hs).2

/-- **The uninitialised segment covers the sections** exactly if they fill the addresses from the
first one on. -/
theorem uninitData_iff (hpacked : Packed sections n) (hend : n < 2 ^ 32) (hzero : seg.size = 0)
    {seg' : NoffSegment} (hadd : (ofSegment .uninitData sections).foldlM addUninit seg = .ok seg') :
    (∀ a, seg'.stored.virtualAddr ≤ a ∧ a < seg'.stored.virtualAddr + seg'.stored.size ↔
      ∃ s ∈ ofSegment .uninitData sections, s.Covers a) ↔
    Fills (ofSegment .uninitData sections) := by
  have hextent := hpacked.extent_eq
  have hapart := hpacked.apart_ofSegment (k := .uninitData)
  have hpos : ∀ s ∈ ofSegment .uninitData sections, 0 < s.size := uninitData_pos
  obtain ⟨hsize, haddr⟩ := addUninit_spec hadd hzero hpos (by omega)
  have hsize' : seg'.stored.size = extent CoffSection.size (ofSegment .uninitData sections) := by
    show seg'.size % 2 ^ 32 = _
    rw [hsize]
    exact Nat.mod_eq_of_lt (by omega)
  rw [hsize']
  match hl : ofSegment .uninitData sections with
  | [] =>
    refine iff_of_true (fun a => iff_of_false ?_ ?_) fun b hb => nomatch hb
    · intro ha
      exact absurd ha.2 (Nat.not_lt.mpr ha.1)
    · intro ha
      exact List.not_mem_nil ha.choose_spec.1
  | b :: rest =>
    have haddr' : seg'.stored.virtualAddr = b.physAddr := by
      show seg'.virtualAddr % 2 ^ 32 = _
      rw [haddr b (by rw [hl]; rfl)]
      exact Nat.mod_eq_of_lt b.physAddr_lt
    rw [hl] at hapart hpos
    rw [haddr']
    constructor
    · intro h b' hb' s hs
      rw [← Option.some.inj hb']
      exact within_of_covers_iff hs (hpos s hs) h
    · intro h a
      exact Stretch.covers_iff hapart (h b rfl)

/-- Two sections that passed the test do not fill them. -/
theorem not_two (hpacked : Packed sections n) (hzero : seg.size = 0) {seg' : NoffSegment}
    (hadd : (ofSegment .uninitData sections).foldlM addUninit seg = .ok seg')
    (hfill : Fills (ofSegment .uninitData sections)) :
    (ofSegment .uninitData sections).length ≠ 2 := by
  intro htwo
  obtain ⟨b, b', hl⟩ := List.length_eq_two.mp htwo
  have hapart := hpacked.apart_ofSegment (k := .uninitData)
  have hpos : ∀ s ∈ ofSegment .uninitData sections, 0 < s.size := uninitData_pos
  rw [hl] at hadd hfill hapart hpos
  have hb := hpos b List.mem_cons_self
  have hb' := hpos b' (List.mem_cons_of_mem _ List.mem_cons_self)
  have hin := hfill b rfl b' (List.mem_cons_of_mem _ List.mem_cons_self)
  have hlt := b'.physAddr_lt
  rw [extent_cons, extent_cons, extent_nil] at hin
  -- the second one begins where the first one ends
  have heq : b'.physAddr = b.physAddr + b.size := by
    cases List.pairwise_pair.mp hapart with
    | inl hle => omega
    | inr hle => omega
  apply (foldlM_addUninit_pair hzero hb).mp ⟨seg', hadd⟩
  rw [heq, Nat.mod_eq_of_lt (heq ▸ hlt)]

theorem fills_iff (hpacked : Packed sections n) (hzero : seg.size = 0) {seg' : NoffSegment}
    (hadd : (ofSegment .uninitData sections).foldlM addUninit seg = .ok seg') :
    Fills (ofSegment .uninitData sections) ↔ (ofSegment .uninitData sections).length ≤ 1 ∨
      2 < (ofSegment .uninitData sections).length ∧ Fills (ofSegment .uninitData sections) := by
  constructor
  · intro hfill
    by_cases hone : (ofSegment .uninitData sections).length ≤ 1
    · exact Or.inl hone
    · have htwo := not_two hpacked hzero hadd hfill
      exact Or.inr ⟨by omega, hfill⟩
  · intro h
    cases h with
    | inl hone =>
      intro b hb s hs
      match hl : ofSegment .uninitData sections with
      | [] =>
        rw [hl] at hs
        exact absurd hs List.not_mem_nil
      | [b₀] =>
        rw [hl] at hb hs
        rw [List.mem_singleton.mp hs, ← Option.some.inj hb]
        exact ⟨le_rfl, le_rfl⟩
      | _ :: _ :: _ =>
        rw [hl] at hone
        simp at hone
    | inr hfill => exact hfill.2

end UninitData

/-! ## The translation -/

section Main
variable {host : HostSystem} {noffH : NoffHeader} {input out : HostFile}
  {sections : List CoffSection} {n : ℕ}

/-- The header does not touch the bytes behind it. -/
theorem HoldsAt.writeAt_header {s : CoffSection} {q : ℕ} (h : HoldsAt out input s q)
    (hq : sizeofNoffHeader ≤ q) (src : ℕ → UInt8) :
    HoldsAt (out.writeAt src sizeofNoffHeader 0) input s q := by
  refine ⟨h.1.trans (Nat.le_max_left ..), fun a ha => ?_⟩
  rw [HostFile.writeAt_byte_outside (Or.inr (by omega)) (by have := h.1; omega)]
  exact h.2 a ha

/-- The executable with the header and the bytes of a translation. -/
def Translation.executable (t : Translation) : Executable where
  code := t.noffH.code.stored
  initData := t.noffH.initData.stored
  uninitData := t.noffH.uninitData.stored
  file := t.out.writeAt t.noffH.toBytes sizeofNoffHeader 0

/-- What an accepted list becomes. -/
theorem exists_executable (h : coff2noff host noffH input sections = .ok out) :
    ∃ t, Translated input sections (.initial noffH) t ∧
      Executable.ofFile out = some t.executable := by
  obtain ⟨-, t, hrun, hout⟩ := coff2noff_eq_ok.mp h
  have ht := translateFrom_eq hrun rfl
  refine ⟨t, ht, ?_⟩
  rw [hout]
  exact ofFile_writeAt t.out t.noffH ht.magic_eq

/-- A segment carries the sections of its kind exactly if the places of these have 32 bits. -/
theorem carries_segment_iff {exe : Executable} {k : SegmentKind}
    {seg seg₀ : NoffSegment} (hlength : (copies sections).length ≤ 2)
    (hholds : ∀ x ∈ placedFrom sizeofNoffHeader sections, HoldsAt exe.file input x.1 x.2)
    (hk : ∀ s : CoffSection, s.segment = some k → s.Copied)
    (hone : (ofSegment k sections).length ≤ 1)
    (hseg : seg = lastSegment k seg₀ (placedFrom sizeofNoffHeader sections)) :
    (∀ s ∈ ofSegment k sections, Carries exe seg.stored input s) ↔
      ∀ x ∈ placedFrom sizeofNoffHeader sections, x.1.segment = some k → x.2 < 2 ^ 32 := by
  have hcarries : ∀ x ∈ placedFrom sizeofNoffHeader sections, x.1.segment = some k →
      (Carries exe seg.stored input x.1 ↔ x.2 < 2 ^ 32) := by
    intro x hx hxk
    obtain ⟨hbehind, hlt⟩ := placed_bounds hlength hx
    exact carries_iff (hseg.trans (lastSegment_of_mem hx hxk hone)) hbehind hlt (hholds x hx)
  constructor
  · intro h x hx hxk
    apply (hcarries x hx hxk).mp
    exact h x.1 (mem_ofSegment.mpr ⟨(copied_of_placed hx).1, hxk⟩)
  · intro h s hs
    obtain ⟨hmem, hsk⟩ := mem_ofSegment.mp hs
    obtain ⟨q, hq⟩ := exists_placed hmem (hk s hsk) sizeofNoffHeader
    exact (hcarries (s, q) hq hsk).mpr (h (s, q) hq hsk)

/-- **The segments of code and data** carry their sections exactly if the first section in the
output is not too long. -/
theorem carries_all_iff {t : Translation} (ht : Translated input sections (.initial noffH) t)
    (hone : (ofSegment .code sections).length ≤ 1) :
    ((∀ s ∈ ofSegment .code sections, Carries t.executable t.noffH.code.stored input s) ∧
      ∀ s ∈ ofSegment .initData sections,
        Carries t.executable t.noffH.initData.stored input s) ↔
    (copies sections).Pairwise fun s _ => sizeofNoffHeader + s.size < 2 ^ 32 := by
  have hlength : (copies sections).length ≤ 2 := by
    rw [length_copies]
    exact Nat.add_le_add hone ht.one_initData
  have hholds : ∀ x ∈ placedFrom sizeofNoffHeader sections,
      HoldsAt t.executable.file input x.1 x.2 := by
    intro x hx
    exact (ht.holds x hx).writeAt_header (placed_bounds hlength hx).1 _
  rw [carries_segment_iff hlength hholds (fun _ => Or.inl) hone ht.code_eq,
    carries_segment_iff hlength hholds (fun _ => Or.inr) ht.one_initData ht.initData_eq,
    pairwise_copies_iff hlength]
  constructor
  · intro h x hx
    cases (copied_of_placed hx).2 with
    | inl hk => exact h.1 x hx hk
    | inr hk => exact h.2 x hx hk
  · intro h
    exact ⟨fun x hx _ => h x hx, fun x hx _ => h x hx⟩

/-- **What the segments of an accepted list say** is right exactly if one of each kind can say
it. -/
theorem sameImage_iff (hpacked : Packed sections n)
    (h : coff2noff host noffH input sections = .ok out) :
    ∃ exe, Executable.ofFile out = some exe ∧
      (SameImage input sections n exe ↔ Mergeable sections n) := by
  obtain ⟨t, ht, hexe⟩ := exists_executable h
  refine ⟨t.executable, hexe, ?_⟩
  have hadd : (ofSegment .uninitData sections).foldlM addUninit _ = .ok t.noffH.uninitData :=
    ht.uninitData_eq
  constructor
  · intro himage
    have hend : n < 2 ^ 32 := by
      rw [← himage.getSize_eq]
      exact Nat.mod_lt _ (by decide)
    have hone : (ofSegment .code sections).length ≤ 1 :=
      one_of_carries hpacked.apart_ofSegment himage.code
    refine ⟨hone, hend, (carries_all_iff ht hone).mp ⟨himage.code, himage.initData⟩, ?_⟩
    apply (fills_iff hpacked rfl hadd).mp
    exact (uninitData_iff hpacked hend rfl hadd).mp himage.uninitData
  · intro hmerge
    obtain ⟨hcode, hdata⟩ := (carries_all_iff ht hmerge.one_code).mpr hmerge.inFile
    have hnocode : ofSegment .code sections = [] → t.noffH.code.stored.size = 0 := by
      intro hnone
      rw [ht.code_eq, lastSegment_none hnone]
      rfl
    have hnodata : ofSegment .initData sections = [] → t.noffH.initData.stored.size = 0 := by
      intro hnone
      rw [ht.initData_eq, lastSegment_none hnone]
      rfl
    refine ⟨hcode, hnocode, hdata, hnodata, ?_, ?_⟩
    · apply (uninitData_iff hpacked hmerge.end_lt rfl hadd).mpr
      exact (fills_iff hpacked rfl hadd).mpr hmerge.uninitData
    · have hextent := hpacked.extent_eq
      have hlt := hmerge.end_lt
      obtain ⟨hsize, -⟩ := addUninit_spec hadd rfl uninitData_pos (by omega)
      show (t.noffH.code.stored.size + t.noffH.initData.stored.size +
        t.noffH.uninitData.size % 2 ^ 32) % 2 ^ 32 = n
      rw [size_eq_extent hmerge.one_code hcode hnocode,
        size_eq_extent ht.one_initData hdata hnodata, hsize, Nat.add_mod_mod, hextent,
        Nat.mod_eq_of_lt hlt]

/-- **The memory image of what is accepted, and which pairs are.**  The segments of an accepted list
describe the same image exactly if one segment of each kind can; with two sections of uninitialised
data they never do.  Two such sections that are contiguous are refused, unless the one that
ends where the other begins is listed last (and the sum of the test does not wrap around to it). -/
theorem coff2noff_sameImage (host : HostSystem) (noffH : NoffHeader) (input : HostFile)
    (sections : List CoffSection) (n : ℕ) (hpacked : Packed sections n) :
    (∀ out, coff2noff host noffH input sections = .ok out →
      ∃ exe, Executable.ofFile out = some exe ∧
        (SameImage input sections n exe ↔ Mergeable sections n)) ∧
    ∀ b b', ofSegment .uninitData sections = [b, b'] → b.Adjacent b' →
      Unhindered host input sections →
      ((∃ out, coff2noff host noffH input sections = .ok out) ↔
        b'.physAddr + b'.size = b.physAddr ∧ b.physAddr + b.size ≠ b'.physAddr + 2 ^ 32) := by
  refine ⟨fun out h => sameImage_iff hpacked h, fun b b' hpair hadjacent hunhindered => ?_⟩
  have hb : 0 < b.size := uninitData_pos b (hpair ▸ List.mem_cons_self)
  have hb' : 0 < b'.size :=
    uninitData_pos b' (hpair ▸ List.mem_cons_of_mem _ List.mem_cons_self)
  have hlt := b.physAddr_lt
  have hlt' := b'.physAddr_lt
  have hsize := b.size_lt
  have htest : (∃ out, coff2noff host noffH input sections = .ok out) ↔
      b'.physAddr ≠ (b.physAddr + b.size) % 2 ^ 32 := by
    constructor
    · intro h
      obtain ⟨out, hout⟩ := h
      obtain ⟨t, ht, -⟩ := exists_executable hout
      have hadd := ht.uninitData_eq
      rw [hpair] at hadd
      exact (foldlM_addUninit_pair rfl hb).mp ⟨_, hadd⟩
    · intro h
      have hzero : (Translation.initial noffH).noffH.uninitData.size = 0 := rfl
      obtain ⟨seg', hadd⟩ := (foldlM_addUninit_pair hzero hb).mpr h
      rw [← hpair] at hadd
      obtain ⟨t, hrun⟩ := exists_translateFrom (i := 0)
        (fun j s hj hs => (Nat.zero_add j).symm ▸ hunhindered.available j s hj hs)
        hunhindered.one_initData (fun hsome => absurd rfl hsome) hadd
      exact ⟨_, coff2noff_eq_ok.mpr ⟨hunhindered.headerSpace, t, hrun, rfl⟩⟩
  rw [htest]
  cases hadjacent with
  | inl hup =>
    -- the lower one is listed first
    rw [hup, Nat.mod_eq_of_lt hlt']
    exact iff_of_false (fun h => h rfl) fun h => by omega
  | inr hdown =>
    rw [and_iff_right hdown]
    apply not_congr
    omega

/-- A section with bytes from position 196 of the file on. -/
def sectionAt (name : {name : List UInt8 // name.length = 8}) (physAddr size : UInt32) :
    CoffSection where
  name := name.1
  physAddr := physAddr.toNat
  size := size.toNat
  sectionPtr := 196
  length_name := name.2
  physAddr_lt := physAddr.toNat_lt
  size_lt := size.toNat_lt
  sectionPtr_lt := by decide

/-- Code, initialised data and `.bss`, one after the other, and a section that is ignored. -/
def plainProgram : List CoffSection :=
  [sectionAt ⟨chars ".text" ++ [0, 0, 0], by decide⟩ 0 16,
    sectionAt ⟨chars ".comment", by decide⟩ 0 8,
    sectionAt ⟨chars ".data" ++ [0, 0, 0], by decide⟩ 16 4,
    sectionAt ⟨chars ".bss" ++ [0, 0, 0, 0], by decide⟩ 20 4]

/-- Code, `.sbss` and `.bss`, one after the other, as the linker script of the repository lays them
out. -/
def linkedProgram : List CoffSection :=
  [sectionAt ⟨chars ".text" ++ [0, 0, 0], by decide⟩ 0 16,
    sectionAt ⟨chars ".sbss" ++ [0, 0, 0], by decide⟩ 16 4,
    sectionAt ⟨chars ".bss" ++ [0, 0, 0, 0], by decide⟩ 20 4]

/-- A host that refuses nothing. -/
def freeHost : HostSystem := ⟨fun _ => true, fun _ => true, true⟩

/-- A header that nothing was stored in. -/
def unsetHeader : NoffHeader := ⟨7, ⟨7, 7, 7⟩, ⟨7, 7, 7⟩, ⟨7, 7, 7⟩⟩

/-- A file of 1000 bytes. -/
def someInput : HostFile := ⟨1000, fun a => UInt8.ofNat a⟩

/-- The program with one section of each kind has the same image. -/
theorem coff2noff_sameImage_plain : ∃ out exe,
    coff2noff freeHost unsetHeader someInput plainProgram = .ok out ∧
      Executable.ofFile out = some exe ∧ SameImage someInput plainProgram 24 exe := by
  have hpacked : Packed plainProgram 24 := packed_of_endToEnd ⟨rfl, rfl, rfl, trivial⟩
  obtain ⟨exe, hexe, himage⟩ :=
    (coff2noff_sameImage freeHost unsetHeader someInput plainProgram 24 hpacked).1 _ rfl
  refine ⟨_, exe, rfl, hexe, himage.mpr ⟨by decide, by decide, ?_, Or.inl (by decide)⟩⟩
  apply List.pairwise_pair.mpr
  decide

/-- **A contiguous pair is refused.** -/
theorem coff2noff_refuses : ∃ b b', Packed linkedProgram 24 ∧
    ofSegment .uninitData linkedProgram = [b, b'] ∧ b.Adjacent b' ∧
    Unhindered freeHost someInput linkedProgram ∧
    ∀ noffH, coff2noff freeHost noffH someInput linkedProgram =
      .error "Cannot handle both bss and sbss" := by
  refine ⟨_, _, packed_of_endToEnd ⟨rfl, rfl, rfl, trivial⟩, rfl, Or.inl rfl,
    ⟨fun j s hj _ => ⟨rfl, ?_, rfl⟩, rfl, by decide⟩, fun _ => rfl⟩
  have hlength : ∀ s ∈ linkedProgram, s.sectionPtr + s.size ≤ someInput.length := by decide
  exact hlength s (List.mem_of_getElem? hj)

end Main

end PaldOs
