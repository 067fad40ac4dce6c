import PaldOs.LinkedPrograms

/-! # Reading a COFF file

`CoffReaderLoad` checks the two magic numbers at the beginning of the file and reads the headers of
the sections, and `CoffReaderNextSection` gives them out one after the other.  The host has the
bytes of numbers the other way round or not, and converts them, so that a number is that of its
bytes, the lowest first.

What the loop of `coff2noff` sees are the sections of the file, in the order of their headers
(`translateSections_eq`), and a file without sections is refused (`coffReaderLoad_eq_ok`).  Of a
linked program, what the kernel takes the output for is the image that the COFF file describes.
-/
namespace PaldOs

open Stretch

/-! ## The headers -/

/-- The short word at address `a`. -/
def shortWord (mem : ℕ → UInt8) (a : ℕ) : ℕ := (mem a).toNat + 256 * (mem (a + 1)).toNat

/-- `COFF_MIPSELMAGIC`. -/
def coffMipselMagic : ℕ := 0x0162

/-- `COFF_OMAGIC`, which is octal. -/
def coffOMagic : ℕ := 0o407

/-- `sizeof coffFileHeader`. -/
def sizeofCoffFileHeader : ℕ := 20

/-- `sizeof coffOptHeader`. -/
def sizeofCoffOptHeader : ℕ := 56

/-- `sizeof coffSectionHeader`. -/
def sizeofCoffSectionHeader : ℕ := 40

/-- Where the header of section `i` is. -/
def sectionHeaderAt (i : ℕ) : ℕ :=
  sizeofCoffFileHeader + sizeofCoffOptHeader + i * sizeofCoffSectionHeader

/-- The header of a section, from its bytes. -/
def sectionHeader (f : HostFile) (i : ℕ) : CoffSection where
  name := (List.range 8).map fun j => f.byte (sectionHeaderAt i + j)
  physAddr := word f.byte (sectionHeaderAt i + 8)
  size := word f.byte (sectionHeaderAt i + 16)
  sectionPtr := word f.byte (sectionHeaderAt i + 20)
  length_name := by rw [List.length_map, List.length_range]
  physAddr_lt := word_lt _ _
  size_lt := word_lt _ _
  sectionPtr_lt := word_lt _ _

/-- `fh->magic`. -/
def coffMagic (f : HostFile) : ℕ := shortWord f.byte 0

/-- `fh->nSections`. -/
def coffNumSections (f : HostFile) : ℕ := shortWord f.byte 2

/-- `oh->magic`. -/
def coffOptMagic (f : HostFile) : ℕ := shortWord f.byte sizeofCoffFileHeader

/-- The sections, as the headers say. -/
def coffSections (f : HostFile) : List CoffSection :=
  (List.range (coffNumSections f)).map (sectionHeader f)

/-! ## The reader -/

/-- `coffReaderData`, what is used of it after loading. -/
structure CoffReader where
  sections : List CoffSection
  current : ℕ
  current_le : current ≤ sections.length

/-- `CoffReaderLoad`, with whether `malloc` gives memory. -/
def coffReaderLoad (memory : Bool) (f : HostFile) : Except String CoffReader :=
  if f.length < sizeofCoffFileHeader then .error "File is too short"
  else if coffMagic f ≠ coffMipselMagic then .error "File is not a MIPSEL COFF file"
  else if f.length < sizeofCoffFileHeader + sizeofCoffOptHeader then .error "File is too short"
  else if coffOptMagic f ≠ coffOMagic then .error "File is not an OMAGIC file"
  else if memory = false then .error "Could not allocate memory"
  -- an item of no bytes is never read
  else if coffNumSections f = 0 ∨ f.length < sectionHeaderAt (coffNumSections f) then
    .error "File is too short"
  else .ok ⟨coffSections f, 0, Nat.zero_le _⟩

namespace CoffReader

/-- `CoffReaderNextSection`. -/
def nextSection (d : CoffReader) : Option CoffSection × CoffReader :=
  if h : d.current = d.sections.length then
    (none, { d with current := 0, current_le := Nat.zero_le _ })
  else (d.sections[d.current]?,
    { d with current := d.current + 1, current_le := lt_of_le_of_ne d.current_le h })

variable {d : CoffReader}

/-- The next one is given out. -/
theorem nextSection_next (h : d.current ≠ d.sections.length) :
    ∃ (hlt : d.current < d.sections.length), d.nextSection.1 = some d.sections[d.current] ∧
      d.nextSection.2.sections = d.sections ∧ d.nextSection.2.current = d.current + 1 := by
  have hlt : d.current < d.sections.length := lt_of_le_of_ne d.current_le h
  refine ⟨hlt, ?_, ?_, ?_⟩
  · rw [nextSection, dif_neg h]
    exact List.getElem?_eq_getElem hlt
  · rw [nextSection, dif_neg h]
  · rw [nextSection, dif_neg h]

end CoffReader

/-- **What is loaded.** -/
theorem coffReaderLoad_eq_ok {memory : Bool} {f : HostFile} {d : CoffReader} :
    coffReaderLoad memory f = .ok d ↔
      (coffMagic f = coffMipselMagic ∧ coffOptMagic f = coffOMagic ∧ memory = true ∧
        0 < coffNumSections f ∧ sectionHeaderAt (coffNumSections f) ≤ f.length) ∧
      d.sections = coffSections f ∧ d.current = 0 := by
  have hat : sectionHeaderAt (coffNumSections f) =
      sizeofCoffFileHeader + sizeofCoffOptHeader +
        coffNumSections f * sizeofCoffSectionHeader := rfl
  constructor
  · intro h
    unfold coffReaderLoad at h
    split at h
    · cases h
    split at h
    · cases h
    split at h
    · cases h
    split at h
    · cases h
    split at h
    · cases h
    split at h
    · cases h
    rename_i hmagic _ hopt hmemory hlong
    cases h
    refine ⟨⟨not_not.mp hmagic, not_not.mp hopt, ?_, by omega, by omega⟩, rfl, rfl⟩
    exact Bool.eq_true_of_not_eq_false hmemory
  · intro h
    obtain ⟨⟨hmagic, hopt, hmemory, hpos, hlong⟩, hsections, hcurrent⟩ := h
    unfold coffReaderLoad
    rw [if_neg (by omega), if_neg (not_not.mpr hmagic), if_neg (by omega),
      if_neg (not_not.mpr hopt), if_neg (by rw [hmemory]; decide), if_neg (by omega)]
    cases d
    cases hsections
    cases hcurrent
    rfl

/-! ## The whole of `coff2noff` -/

/-- The loop of `main`, over the sections that are given out. -/
def translateSections (host : HostSystem) (input : HostFile) (d : CoffReader) (t : Translation) :
    Except String Translation :=
  if h : d.current = d.sections.length then .ok t
  else do
    let t ← translateSection host input d.current t
      (d.sections.get ⟨d.current, lt_of_le_of_ne d.current_le h⟩)
    translateSections host input d.nextSection.2 t
termination_by d.sections.length - d.current
decreasing_by
  obtain ⟨hlt, -, hsections, hcurrent⟩ := CoffReader.nextSection_next h
  rw [hsections, hcurrent]
  omega

/-- `main` of `coff2noff`, from `CoffReaderLoad` on. -/
def coff2noffMain (host : HostSystem) (memory : Bool) (noffH : NoffHeader) (input : HostFile) :
    Except String HostFile := do
  let d ← coffReaderLoad memory input
  let t ← translateSections host input d (.initial noffH)
  let t ← Translation.writeOrDie { t with position := 0 } host.headerSpace t.noffH.toBytes
    sizeofNoffHeader
  return t.out

section Main
variable {host : HostSystem} {memory : Bool} {noffH : NoffHeader} {input out : HostFile}

/-- **The loop goes over the sections**, in their order. -/
theorem translateSections_eq (d : CoffReader) (t : Translation) :
    translateSections host input d t =
      translateFrom host input d.current t (d.sections.drop d.current) := by
  induction hn : d.sections.length - d.current generalizing d t with
  | zero =>
    have hend : d.current = d.sections.length := by
      have hle := d.current_le
      omega
    unfold translateSections
    rw [dif_pos hend, hend, List.drop_length]
    rfl
  | succ n ih =>
    have hne : d.current ≠ d.sections.length := by omega
    obtain ⟨hlt, -, hsections, hcurrent⟩ := CoffReader.nextSection_next hne
    unfold translateSections
    rw [dif_neg hne, List.drop_eq_getElem_cons hlt]
    show _ >>= _ = translateSection host input d.current t d.sections[d.current] >>= _
    congr 1
    funext t'
    have hrest := ih d.nextSection.2 t' (by rw [hsections, hcurrent]; omega)
    rw [hsections, hcurrent] at hrest
    exact hrest

/-- **What `main` does** is the translation of the sections that the file has. -/
theorem coff2noffMain_eq_ok : coff2noffMain host memory noffH input = .ok out ↔
    (∃ d, coffReaderLoad memory input = .ok d) ∧
      coff2noff host noffH input (coffSections input) = .ok out := by
  have hrun : ∀ d, coffReaderLoad memory input = .ok d →
      coff2noffMain host memory noffH input =
        coff2noff host noffH input (coffSections input) := by
    intro d hd
    obtain ⟨-, hsections, hcurrent⟩ := coffReaderLoad_eq_ok.mp hd
    have hloop : translateSections host input d (.initial noffH) =
        translateFrom host input 0 (.initial noffH) (coffSections input) := by
      rw [translateSections_eq, hsections, hcurrent]
      rfl
    unfold coff2noffMain coff2noff
    rw [hd, ← hloop]
    rfl
  constructor
  · intro h
    obtain ⟨d, hd, -⟩ := bind_eq_ok.mp h
    exact ⟨⟨d, hd⟩, (hrun d hd).symm.trans h⟩
  · intro h
    obtain ⟨⟨d, hd⟩, hout⟩ := h
    exact (hrun d hd).trans hout

end Main

/-! ## The image -/

/-- The byte of the program at address `a`, as the COFF file says: that of the section that covers
the address, if it is one of code or of initialised data. -/
def coffImage (input : HostFile) (a : ℕ) : UInt8 :=
  match (copies (coffSections input)).find? fun s => s.physAddr ≤ a ∧ a < s.physAddr + s.size with
  | some s => input.byte (s.sectionPtr + (a - s.physAddr))
  | none => 0

/-- The pages of the program, with its stack. -/
def coffPages (input : HostFile) : ℕ :=
  divRoundUp ((extent CoffSection.size (mapped (coffSections input)) + userStackSize) % 2 ^ 32)
    pageSize

/-- An executable that `coff2noff` has made of a COFF file. -/
def MadeFrom (input : HostFile) (exe : Executable) : Prop :=
  ∃ host memory noffH out, coff2noffMain host memory noffH input = .ok out ∧
    Executable.ofFile out = some exe

section Image
variable {input : HostFile} {exe : Executable} {n a : ℕ}

/-- The byte of a segment that carries a section. -/
theorem Carries.byte_eq {seg : NoffSegment} {s : CoffSection} (h : Carries exe seg input s)
    (ha : s.Covers a) : exe.file.byte (seg.inFileAddr + (a - seg.virtualAddr)) =
      input.byte (s.sectionPtr + (a - s.physAddr)) := by
  obtain ⟨hle, hlt⟩ := ha
  rw [h.virtualAddr_eq]
  exact h.holds.2 (a - s.physAddr) (by omega)

/-- A segment with bytes carries a section that covers what it covers. -/
theorem Carries.covers {seg : NoffSegment} {s : CoffSection} (h : Carries exe seg input s) :
    s.Covers a ↔ seg.virtualAddr ≤ a ∧ a < seg.virtualAddr + seg.size := by
  rw [h.virtualAddr_eq, h.size_eq]
  exact Iff.rfl

/-- What a segment of the kind covers, a section of the kind covers. -/
theorem exists_covers {seg : NoffSegment} {k : SegmentKind}
    (hcarries : ∀ s ∈ ofSegment k (coffSections input), Carries exe seg input s)
    (hnone : ofSegment k (coffSections input) = [] → seg.size = 0)
    (ha : seg.virtualAddr ≤ a ∧ a < seg.virtualAddr + seg.size) :
    ∃ s ∈ ofSegment k (coffSections input), s.Covers a := by
  cases hl : ofSegment k (coffSections input) with
  | nil =>
    have hzero := hnone hl
    omega
  | cons s rest =>
    have hmem : s ∈ ofSegment k (coffSections input) := by
      rw [hl]
      exact List.mem_cons_self
    exact ⟨s, List.mem_cons_self, (hcarries s hmem).covers.mpr ha⟩

/-- **The kernel starts from the image of the COFF file.** -/
theorem image_eq_coffImage (himage : SameImage input (coffSections input) n exe)
    (hl : Vm.Layout exe) : Vm.image exe = coffImage input := by
  funext a
  unfold coffImage
  split
  · rename_i s hfind
    have hcovers : s.physAddr ≤ a ∧ a < s.physAddr + s.size := by
      simpa using List.find?_some hfind
    obtain ⟨hmem, hcopied⟩ := mem_copies.mp (List.mem_of_find?_eq_some hfind)
    cases hcopied with
    | inl hk =>
      have hcarries := himage.code s (mem_ofSegment.mpr ⟨hmem, hk⟩)
      rw [Vm.image, if_pos (hcarries.covers.mp hcovers), hcarries.byte_eq hcovers]
    | inr hk =>
      have hcarries := himage.initData s (mem_ofSegment.mpr ⟨hmem, hk⟩)
      have hin := hcarries.covers.mp hcovers
      have hnext := hl.data_next (by omega)
      have hcode : ¬ (exe.code.virtualAddr ≤ a ∧ a < exe.code.virtualAddr + exe.code.size) := by
        intro h
        have hfirst := hl.code_first (by omega)
        omega
      rw [Vm.image, if_neg hcode, if_pos hin, hcarries.byte_eq hcovers]
  · rename_i hfind
    have hout : ∀ s ∈ coffSections input, s.Copied → ¬ s.Covers a := by
      intro s hs hcopied hcovers
      have hfalse := List.find?_eq_none.mp hfind s (mem_copies.mpr ⟨hs, hcopied⟩)
      exact hfalse (decide_eq_true hcovers)
    have hcode : ¬ (exe.code.virtualAddr ≤ a ∧ a < exe.code.virtualAddr + exe.code.size) := by
      intro h
      obtain ⟨s, hs, hcovers⟩ := exists_covers himage.code himage.no_code h
      obtain ⟨hmem, hk⟩ := mem_ofSegment.mp hs
      exact hout s hmem (Or.inl hk) hcovers
    have hdata : ¬ (exe.initData.virtualAddr ≤ a ∧
        a < exe.initData.virtualAddr + exe.initData.size) := by
      intro h
      obtain ⟨s, hs, hcovers⟩ := exists_covers himage.initData himage.no_initData h
      obtain ⟨hmem, hk⟩ := mem_ofSegment.mp hs
      exact hout s hmem (Or.inr hk) hcovers
    rw [Vm.image, if_neg hcode, if_neg hdata]

/-- **What is made of a linked program** has the layout that the paging takes for granted, the image
of the COFF file, and its pages. -/
theorem MadeFrom.image_eq (h : MadeFrom input exe) (hlinked : Linked (coffSections input)) :
    Vm.Layout exe ∧ Vm.image exe = coffImage input ∧
      ∀ spaceId, (AddressSpace.make exe spaceId).numPages = coffPages input := by
  obtain ⟨host, memory, noffH, out, hmain, hexe⟩ := h
  obtain ⟨-, hout⟩ := coff2noffMain_eq_ok.mp hmain
  obtain ⟨exe', hexe', hl, himage⟩ := hlinked.coff2noff_linked hout
  rw [hexe] at hexe'
  cases hexe'
  refine ⟨hl, image_eq_coffImage himage hl, fun spaceId => ?_⟩
  show divRoundUp ((exe.getSize + userStackSize) % 2 ^ 32) pageSize = _
  rw [himage.getSize_eq]
  rfl

end Image

end PaldOs
