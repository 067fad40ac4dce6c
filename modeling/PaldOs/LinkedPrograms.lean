import PaldOs.MemoryImage
import PaldOs.PagingTransparency

/-! # Programs that are linked for this kernel

The linker script of the repository puts the code first, the initialised data after it, and then the
sections of uninitialised data, one after the other from address 0 on.  A program of that kind with
both `.sbss` and `.bss` is refused, always.  What is accepted has the same image, and the
layout that the paging of the kernel takes for granted.
-/
namespace PaldOs

open Stretch

/-- The sections as the linker script lays them out, in less than 4 GiB. -/
structure Linked (sections : List CoffSection) : Prop where
  order : mapped sections = ofSegment .code sections ++ ofSegment .initData sections ++
    ofSegment .uninitData sections
  endToEnd : EndToEnd CoffSection.physAddr CoffSection.size 0 (mapped sections)
  one_code : (ofSegment .code sections).length ≤ 1
  fits : sizeofNoffHeader + extent CoffSection.size (mapped sections) < 2 ^ 32

namespace Linked
variable {host : HostSystem} {noffH : NoffHeader} {input out : HostFile}
  {sections : List CoffSection} {t : Translation} {n : ℕ}

/-- **The program has no more than one section of uninitialised data.** -/
theorem one_uninitData (hlinked : Linked sections)
    (ht : Translated input sections (.initial noffH) t) :
    (ofSegment .uninitData sections).length ≤ 1 := by
  have hend := hlinked.endToEnd
  rw [hlinked.order] at hend
  have huninit := (endToEnd_append.mp hend).2
  have hadd := ht.uninitData_eq
  have hpos : ∀ s ∈ ofSegment .uninitData sections, 0 < s.size := uninitData_pos
  match hl : ofSegment .uninitData sections with
  | [] => exact Nat.zero_le 1
  | [_] => exact le_rfl
  | b :: b' :: rest =>
    rw [hl] at huninit hadd hpos
    obtain ⟨haddr, hnext, -⟩ := huninit
    rw [← haddr] at hnext
    have hsplit : ([b, b'] ++ rest).foldlM addUninit _ = .ok t.noffH.uninitData := hadd
    rw [List.foldlM_append] at hsplit
    obtain ⟨seg, hfirst, -⟩ := bind_eq_ok.mp hsplit
    have htest := (foldlM_addUninit_pair rfl (hpos b List.mem_cons_self)).mp ⟨seg, hfirst⟩
    rw [← hnext, Nat.mod_eq_of_lt b'.physAddr_lt] at htest
    exact absurd rfl htest

theorem packed (hlinked : Linked sections) :
    Packed sections (extent CoffSection.size (mapped sections)) :=
  packed_of_endToEnd hlinked.endToEnd

theorem mergeable (hlinked : Linked sections)
    (ht : Translated input sections (.initial noffH) t) :
    Mergeable sections (extent CoffSection.size (mapped sections)) := by
  have hfits := hlinked.fits
  refine ⟨hlinked.one_code, by omega, ?_, Or.inl (hlinked.one_uninitData ht)⟩
  apply List.pairwise_of_forall_mem_list
  intro s hs _ _
  have hmapped : s ∈ mapped sections := by
    obtain ⟨hmem, hcopied⟩ := mem_copies.mp hs
    apply List.mem_filter.mpr
    refine ⟨hmem, ?_⟩
    cases hcopied with
    | inl hk => rw [hk]; rfl
    | inr hk => rw [hk]; rfl
  have hle : s.size ≤ extent CoffSection.size (mapped sections) := size_le_extent hmapped
  omega

/-- The code comes before the initialised data in the output, too. -/
theorem copies_eq (hlinked : Linked sections) :
    copies sections = ofSegment .code sections ++ ofSegment .initData sections := by
  have hmapped : copies (mapped sections) = copies sections := by
    rw [copies, mapped, List.filter_filter]
    apply List.filter_congr
    intro s _
    by_cases hs : s.Copied
    · have hsome : s.segment.isSome = true := by
        cases hs with
        | inl hk => rw [hk]; rfl
        | inr hk => rw [hk]; rfl
      rw [hsome, Bool.and_true]
    · rw [decide_eq_false hs, Bool.false_and]
  have hall : ∀ k, (∀ s : CoffSection, s.segment = some k → s.Copied) →
      copies (ofSegment k sections) = ofSegment k sections := by
    intro k hk
    apply List.filter_eq_self.mpr
    intro s hs
    exact decide_eq_true (hk s (mem_ofSegment.mp hs).2)
  have hnone : copies (ofSegment .uninitData sections) = [] := by
    apply List.filter_eq_nil_iff.mpr
    intro s hs hcopied
    have h := of_decide_eq_true hcopied
    rw [CoffSection.Copied, (mem_ofSegment.mp hs).2] at h
    revert h
    decide
  rw [← hmapped, hlinked.order, copies, List.filter_append, List.filter_append]
  show copies _ ++ copies _ ++ copies _ = _
  rw [hall .code fun _ => Or.inl, hall .initData fun _ => Or.inr, hnone, List.append_nil]

/-- The code is at the beginning of the output, and the data behind it. -/
theorem placedFrom_eq (hlinked : Linked sections)
    (hone : (ofSegment .initData sections).length ≤ 1) (p : ℕ) : placedFrom p sections =
    (ofSegment .code sections).map (fun c => (c, p)) ++
      (ofSegment .initData sections).map
        (fun d => (d, p + extent CoffSection.size (ofSegment .code sections))) := by
  have hcode : ∀ c ∈ ofSegment .code sections, c.Copied :=
    fun c hc => Or.inl (mem_ofSegment.mp hc).2
  have hdata : ∀ d ∈ ofSegment .initData sections, d.Copied :=
    fun d hd => Or.inr (mem_ofSegment.mp hd).2
  have hone' := hlinked.one_code
  rw [← placedFrom_copies, hlinked.copies_eq]
  match hc : ofSegment .code sections, hd : ofSegment .initData sections with
  | [], [] => rfl
  | [], [d] =>
    rw [hd] at hdata
    exact placedFrom_cons_copied (hdata d List.mem_cons_self)
  | [c], [] =>
    rw [hc] at hcode
    exact placedFrom_cons_copied (hcode c List.mem_cons_self)
  | [c], [d] =>
    rw [hc] at hcode
    rw [hd] at hdata
    show placedFrom p [c, d] = _
    rw [placedFrom_cons_copied (hcode c List.mem_cons_self),
      placedFrom_cons_copied (hdata d List.mem_cons_self)]
    rfl
  | _ :: _ :: _, _ =>
    rw [hc] at hone'
    exact absurd hone' (by simp)
  | _, _ :: _ :: _ =>
    rw [hd] at hone
    exact absurd hone (by simp)

/-- The place of the code, if there is any. -/
theorem code_at (hlinked : Linked sections) (ht : Translated input sections (.initial noffH) t)
    (himage : SameImage input sections n t.executable) {c : CoffSection}
    (hc : c ∈ ofSegment .code sections) :
    t.executable.code.virtualAddr = 0 ∧ t.executable.code.inFileAddr = sizeofNoffHeader ∧
      sizeofNoffHeader + c.size ≤ t.out.length := by
  have hend := hlinked.endToEnd
  rw [hlinked.order, endToEnd_append, endToEnd_append] at hend
  have hx : (c, sizeofNoffHeader) ∈ placedFrom sizeofNoffHeader sections := by
    rw [hlinked.placedFrom_eq ht.one_initData]
    exact List.mem_append_left _ (List.mem_map_of_mem hc)
  refine ⟨?_, ?_, (ht.holds _ hx).1⟩
  · exact (himage.code c hc).virtualAddr_eq.trans (hend.1.1.start_eq hlinked.one_code hc)
  · have heq := ht.code_eq.trans
      (lastSegment_of_mem hx (mem_ofSegment.mp hc).2 hlinked.one_code)
    show t.noffH.code.inFileAddr % 2 ^ 32 = _
    rw [heq]
    rfl

/-- The place of the initialised data, if there is any. -/
theorem initData_at (hlinked : Linked sections)
    (ht : Translated input sections (.initial noffH) t)
    (himage : SameImage input sections n t.executable) {d : CoffSection}
    (hd : d ∈ ofSegment .initData sections) :
    t.executable.initData.virtualAddr = t.executable.code.size ∧
      t.executable.initData.inFileAddr = sizeofNoffHeader + t.executable.code.size ∧
      sizeofNoffHeader + t.executable.code.size + d.size ≤ t.out.length := by
  have hfits := hlinked.fits
  have hend := hlinked.endToEnd
  rw [hlinked.order, endToEnd_append, endToEnd_append] at hend
  rw [hlinked.order, extent_append, extent_append] at hfits
  rw [size_eq_extent hlinked.one_code himage.code himage.no_code]
  have hx : (d, sizeofNoffHeader + extent CoffSection.size (ofSegment .code sections)) ∈
      placedFrom sizeofNoffHeader sections := by
    rw [hlinked.placedFrom_eq ht.one_initData]
    exact List.mem_append_right _ (List.mem_map_of_mem hd)
  refine ⟨?_, ?_, (ht.holds _ hx).1⟩
  · rw [(himage.initData d hd).virtualAddr_eq, hend.1.2.start_eq ht.one_initData hd, Nat.zero_add]
  · have heq := ht.initData_eq.trans
      (lastSegment_of_mem hx (mem_ofSegment.mp hd).2 ht.one_initData)
    show t.noffH.initData.inFileAddr % 2 ^ 32 = _
    rw [heq]
    show (sizeofNoffHeader + _) % 2 ^ 32 % 2 ^ 32 = _
    rw [Nat.mod_mod, Nat.mod_eq_of_lt (by omega)]

theorem exists_code (hlinked : Linked sections)
    (himage : SameImage input sections n t.executable) (hpos : 0 < t.executable.code.size) :
    ∃ c ∈ ofSegment .code sections, c.size = t.executable.code.size := by
  rw [size_eq_extent hlinked.one_code himage.code himage.no_code] at hpos ⊢
  exact exists_of_extent_pos hlinked.one_code hpos

theorem exists_initData (ht : Translated input sections (.initial noffH) t)
    (himage : SameImage input sections n t.executable) (hpos : 0 < t.executable.initData.size) :
    ∃ d ∈ ofSegment .initData sections, d.size = t.executable.initData.size := by
  rw [size_eq_extent ht.one_initData himage.initData himage.no_initData] at hpos ⊢
  exact exists_of_extent_pos ht.one_initData hpos

/-- There is nothing else in the file. -/
theorem length_eq (hlinked : Linked sections) (ht : Translated input sections (.initial noffH) t)
    (himage : SameImage input sections n t.executable) : t.executable.file.length =
      sizeofNoffHeader + t.executable.code.size + t.executable.initData.size := by
  have hcodeSize := size_eq_extent hlinked.one_code himage.code himage.no_code
  have hdataSize := size_eq_extent ht.one_initData himage.initData himage.no_initData
  have hle : t.out.length ≤
      sizeofNoffHeader + t.executable.code.size + t.executable.initData.size := by
    apply ht.le_length _ (Nat.zero_le _)
    show ∀ x ∈ placedFrom sizeofNoffHeader sections, _
    rw [hlinked.placedFrom_eq ht.one_initData, ← hcodeSize]
    intro x hx
    cases List.mem_append.mp hx with
    | inl hx =>
      obtain ⟨c, hc, rfl⟩ := List.mem_map.mp hx
      have hsize : c.size ≤ extent CoffSection.size _ := size_le_extent hc
      show sizeofNoffHeader + c.size ≤ _
      omega
    | inr hx =>
      obtain ⟨d, hd, rfl⟩ := List.mem_map.mp hx
      have hsize : d.size ≤ extent CoffSection.size _ := size_le_extent hd
      show sizeofNoffHeader + t.executable.code.size + d.size ≤ _
      omega
  show max t.out.length (0 + sizeofNoffHeader) = _
  by_cases hpos : 0 < t.executable.initData.size
  · obtain ⟨d, hd, hsize⟩ := exists_initData ht himage hpos
    have hge := (hlinked.initData_at ht himage hd).2.2
    omega
  · by_cases hpos' : 0 < t.executable.code.size
    · obtain ⟨c, hc, hsize⟩ := hlinked.exists_code himage hpos'
      have hge := (hlinked.code_at ht himage hc).2.2
      omega
    · omega

/-- **The layout of a linked program**, which the paging takes for granted. -/
theorem layout (hlinked : Linked sections) (ht : Translated input sections (.initial noffH) t)
    (himage : SameImage input sections n t.executable) : Vm.Layout t.executable where
  code_first := by
    intro hpos
    obtain ⟨c, hc, -⟩ := hlinked.exists_code himage hpos
    exact (hlinked.code_at ht himage hc).1
  data_next := by
    intro hpos
    obtain ⟨d, hd, -⟩ := exists_initData ht himage hpos
    exact (hlinked.initData_at ht himage hd).1
  data_inFile := by
    intro hpos hpos'
    obtain ⟨c, hc, -⟩ := hlinked.exists_code himage hpos
    obtain ⟨d, hd, -⟩ := exists_initData ht himage hpos'
    rw [(hlinked.code_at ht himage hc).2.1, (hlinked.initData_at ht himage hd).2.1]
  code_end := by
    intro hpos
    obtain ⟨c, hc, -⟩ := hlinked.exists_code himage hpos
    rw [(hlinked.code_at ht himage hc).2.1, hlinked.length_eq ht himage]
  data_end := by
    intro hpos
    obtain ⟨d, hd, -⟩ := exists_initData ht himage hpos
    rw [(hlinked.initData_at ht himage hd).2.1, hlinked.length_eq ht himage]
  fits := by
    have hfits := hlinked.fits
    rw [hlinked.order, extent_append, extent_append] at hfits
    rw [hlinked.length_eq ht himage,
      size_eq_extent hlinked.one_code himage.code himage.no_code,
      size_eq_extent ht.one_initData himage.initData himage.no_initData]
    omega

/-- **What a linked program becomes.** -/
theorem coff2noff_linked (hlinked : Linked sections)
    (h : coff2noff host noffH input sections = .ok out) :
    ∃ exe, Executable.ofFile out = some exe ∧ Vm.Layout exe ∧
      SameImage input sections (extent CoffSection.size (mapped sections)) exe := by
  obtain ⟨t, ht, hexe⟩ := exists_executable h
  obtain ⟨exe, hexe', himage⟩ := sameImage_iff hlinked.packed h
  rw [hexe] at hexe'
  cases hexe'
  have hsame := himage.mpr (hlinked.mergeable ht)
  exact ⟨t.executable, hexe, hlinked.layout ht hsame, hsame⟩

end Linked

end PaldOs
