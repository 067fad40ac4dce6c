import PaldOs.FrameOwnership

/-! # Paging is transparent

The machine with page tables, TLB, core map, frames and swap files is compared with
one private flat memory for each process: it starts as the process's image and
changes by the process's own writes.  The comparison is by the record of a run:
`flat` computes the memories from it, and a read must return what they hold.

A page is in its frame, in the swap file or still in the executable, and `Content`
says which copy counts: the frame if the page is in one; else the swap file if the
entry is dirty; else the executable.  The dirty bit itself is in the TLB while the
page has a slot there, and in the page table otherwise: a page that neither calls
dirty is still what the executable has.
-/
namespace PaldOs
namespace Vm

/-! ## The flat memories -/

/-- The initial image of a process: code, initialised data, and zero elsewhere. -/
def image (exe : Executable) (a : ℕ) : UInt8 :=
  if exe.code.virtualAddr ≤ a ∧ a < exe.code.virtualAddr + exe.code.size then
    exe.file.byte (exe.code.inFileAddr + (a - exe.code.virtualAddr))
  else if exe.initData.virtualAddr ≤ a ∧ a < exe.initData.virtualAddr + exe.initData.size then
    exe.file.byte (exe.initData.inFileAddr + (a - exe.initData.virtualAddr))
  else 0

/-- **The layout that `coff2noff` produces**: the code at virtual address 0, the
initialised data right after it, in memory and in the file, and nothing after that
in the file.  The addresses of a segment of size 0 are not set. -/
structure Layout (exe : Executable) : Prop where
  code_first : 0 < exe.code.size → exe.code.virtualAddr = 0
  data_next : 0 < exe.initData.size → exe.initData.virtualAddr = exe.code.size
  data_inFile : 0 < exe.code.size → 0 < exe.initData.size →
    exe.initData.inFileAddr = exe.code.inFileAddr + exe.code.size
  code_end : 0 < exe.code.size →
    exe.file.length = exe.code.inFileAddr + exe.code.size + exe.initData.size
  data_end : 0 < exe.initData.size →
    exe.file.length = exe.initData.inFileAddr + exe.initData.size
  fits : exe.file.length < 2 ^ 32

/-- The memories after an event. -/
def flatStep (mem : ℕ → ℕ → UInt8) : Event → ℕ → ℕ → UInt8
  | .made h exe => Function.update mem h (image exe)
  | .read _ _ _ _ => mem
  | .wrote h addr w value =>
      Function.update mem h (blit (mem h) addr w.bytes (storeByte value))

/-- **One private flat memory for each process**, by the record of a run. -/
def flat (tr : List Event) : ℕ → ℕ → UInt8 := tr.foldl flatStep (fun _ _ => 0)

/-- Every read returned what the flat memory of its process held. -/
def Transparent (tr : List Event) : Prop :=
  ∀ before h addr w value after, tr = before ++ .read h addr w value :: after →
    value = w.load (flat before h) addr

/-! ## Reading a page of the executable -/

/-- An address space as its constructor leaves it, of an executable with that layout. -/
structure Constructed (s : AddressSpace) : Prop where
  layout : Layout s.exeFile
  codeSize_eq : s.codeSize = s.exeFile.code.size
  initDataSize_eq : s.initDataSize = s.exeFile.initData.size
  dataVirtualAddr_eq : s.dataVirtualAddr = s.exeFile.initData.virtualAddr

theorem constructed_make {exe : Executable} (hl : Layout exe) (id : ℤ) :
    Constructed (AddressSpace.make exe id) :=
  ⟨hl, rfl, rfl, rfl⟩

section Load
variable {exe : Executable} {s : AddressSpace} {mem : ℕ → UInt8} {base A o : ℕ}

/-- The image of a process, by the layout. -/
theorem Layout.image_eq (hl : Layout exe) (a : ℕ) : image exe a =
    if a < exe.code.size then exe.file.byte (exe.code.inFileAddr + a)
    else if a < exe.code.size + exe.initData.size then
      exe.file.byte (exe.initData.inFileAddr + (a - exe.code.size))
    else 0 := by
  unfold image
  by_cases hc : a < exe.code.size
  · rw [if_pos hc, hl.code_first (by omega), if_pos (by omega), Nat.sub_zero]
  · have hout : ¬ (exe.code.virtualAddr ≤ a ∧ a < exe.code.virtualAddr + exe.code.size) := by
      by_cases hpos : 0 < exe.code.size
      · rw [hl.code_first hpos]
        omega
      · omega
    rw [if_neg hc, if_neg hout]
    by_cases hd : 0 < exe.initData.size
    · rw [hl.data_next hd]
      exact ite_congr (propext (by omega)) (fun _ => rfl) (fun _ => rfl)
    · rw [if_neg (by omega), if_neg (by omega)]

/-- A page that starts in the code. -/
theorem readExecutable_code (hs : Constructed s) (hclear : ∀ o, o < pageSize → mem (base + o) = 0)
    (ho : o < pageSize) (hA : A < s.exeFile.code.size) :
    readExecutable s mem base A (base + o) = image s.exeFile (A + o) := by
  obtain ⟨hl, hcs, hds, hdv⟩ := hs
  have hsize : pageSize = 128 := rfl
  have hend := hl.code_end (by omega)
  have h0 := hclear o ho
  have hhas : 0 < s.codeSize ∧ A < s.codeSize := ⟨by omega, by omega⟩
  have hread : min (s.codeSize - A) pageSize ≠ 0 := by omega
  rw [hl.image_eq]
  unfold readExecutable
  simp only [if_pos hhas]
  by_cases hdata : 0 < s.initDataSize ∧ A + min (s.codeSize - A) pageSize <
      s.dataVirtualAddr + s.initDataSize ∧ min (s.codeSize - A) pageSize ≠ pageSize
  · have hnext := hl.data_next (by omega)
    have hfile := hl.data_inFile (by omega) (by omega)
    have hmin : min (s.codeSize - A) pageSize = s.codeSize - A := by omega
    rw [if_pos hdata, if_pos hread, hmin, HostFile.readAt_apply, HostFile.readAt_apply]
    by_cases hc : A + o < s.exeFile.code.size
    · rw [if_neg (by omega), if_pos (by omega), if_pos hc]
      congr 1
      omega
    · rw [if_neg hc]
      by_cases hd : A + o < s.exeFile.code.size + s.exeFile.initData.size
      · rw [if_pos (by omega), if_pos hd]
        congr 1
        omega
      · rw [if_neg (by omega), if_neg (by omega), if_neg hd, h0]
  · rw [if_neg hdata, HostFile.readAt_apply]
    by_cases hc : A + o < s.exeFile.code.size
    · rw [if_pos (by omega), if_pos hc]
      congr 1
      omega
    · have hempty : s.exeFile.initData.size = 0 := by
        by_contra hne
        have hnext := hl.data_next (by omega)
        omega
      rw [if_neg (by omega), if_neg hc, if_neg (by omega), h0]

/-- A page after the code. -/
theorem readExecutable_data (hs : Constructed s) (hclear : ∀ o, o < pageSize → mem (base + o) = 0)
    (ho : o < pageSize) (hA : s.exeFile.code.size ≤ A) :
    readExecutable s mem base A (base + o) = image s.exeFile (A + o) := by
  obtain ⟨hl, hcs, hds, hdv⟩ := hs
  have hsize : pageSize = 128 := rfl
  have h0 := hclear o ho
  have hhas : ¬ (0 < s.codeSize ∧ A < s.codeSize) := by omega
  rw [hl.image_eq, if_neg (by omega)]
  unfold readExecutable
  simp only [if_neg hhas]
  by_cases hd : 0 < s.exeFile.initData.size
  · have hnext := hl.data_next hd
    have hend := hl.data_end hd
    by_cases hin : A < s.exeFile.code.size + s.exeFile.initData.size
    · rw [if_pos ⟨by omega, by omega, by omega⟩, if_neg (by omega), HostFile.readAt_apply]
      by_cases ho' : A + o < s.exeFile.code.size + s.exeFile.initData.size
      · rw [if_pos (by omega), if_pos ho']
        congr 1
        omega
      · rw [if_neg (by omega), if_neg ho', h0]
    · rw [if_neg (by omega), if_neg (by omega), h0]
  · rw [if_neg (by omega), if_neg (by omega), h0]

/-- **A page of the executable, as `LoadPage` reads it, is a page of the image.** -/
theorem readExecutable_page (hs : Constructed s) (hclear : ∀ o, o < pageSize → mem (base + o) = 0)
    (ho : o < pageSize) : readExecutable s mem base A (base + o) = image s.exeFile (A + o) := by
  rcases Nat.lt_or_ge A s.exeFile.code.size with hA | hA
  · exact readExecutable_code hs hclear ho hA
  · exact readExecutable_data hs hclear ho hA

/-- Nothing else in memory changes. -/
theorem readExecutable_outside {a : ℕ} (ha : a < base ∨ base + pageSize ≤ a) :
    readExecutable s mem base A a = mem a := by
  have hsize : pageSize = 128 := rfl
  unfold readExecutable
  by_cases hc : 0 < s.codeSize ∧ A < s.codeSize
  · have hcode :
        s.exeFile.file.readAt mem base pageSize (s.exeFile.code.inFileAddr + A) a = mem a :=
      HostFile.readAt_outside (by omega)
    simp only [if_pos hc]
    split
    · split
      · rw [HostFile.readAt_outside (by omega), hcode]
      · rw [HostFile.readAt_outside (by omega), hcode]
    · exact hcode
  · simp only [if_neg hc]
    split
    · split
      · exact HostFile.readAt_outside (by omega)
      · exact HostFile.readAt_outside (by omega)
    · rfl

end Load

/-! ## Which copy of a page counts -/

/-- Where the bytes of the flat memories are. -/
structure Content (k : Vm) (mem : ℕ → ℕ → UInt8) : Prop where
  constructed : ∀ h s, k.space h = some s → Constructed s
  bit : ∀ i, i < tlbSize → (k.tlb i).valid = true →
    (k.pageTable k.currentThread (k.tlb i).virtualPage).dirty = true → (k.tlb i).dirty = true
  inFrame : ∀ h v f, k.Maps h v f → f < numPhysPages → ∀ o, o < pageSize →
    k.mainMemory (f * pageSize + o) = mem h (v * pageSize + o)
  inSwap : ∀ h v, k.Maps h v intMax → (k.pageTable h v).dirty = true →
    (v + 1) * pageSize ≤ (k.openSwapFile h).length ∧ ∀ o, o < pageSize →
      (k.openSwapFile h).byte (v * pageSize + o) = mem h (v * pageSize + o)
  clean : ∀ h s v, k.space h = some s → v < s.numPages → (k.pageTable h v).dirty = false →
    (∀ i, i < tlbSize → (k.tlb i).valid = true → h = k.currentThread →
      (k.tlb i).virtualPage = v → (k.tlb i).dirty = false) →
    ∀ o, o < pageSize → mem h (v * pageSize + o) = image s.exeFile (v * pageSize + o)

/-- What the content depends on. -/
theorem Content.of_agree {k k' : Vm} {mem : ℕ → ℕ → UInt8} (hc : Content k mem)
    (ha : Agrees k k')
    (hdirty : ∀ h v, (k'.pageTable h v).dirty = (k.pageTable h v).dirty)
    (htlb : ∀ i, i < tlbSize → (k'.tlb i).valid = (k.tlb i).valid ∧
      (k'.tlb i).virtualPage = (k.tlb i).virtualPage ∧ (k'.tlb i).dirty = (k.tlb i).dirty)
    (hmem : k'.mainMemory = k.mainMemory) (hswap : k'.openSwapFile = k.openSwapFile) :
    Content k' mem where
  constructed h s hs := hc.constructed h s ((ha.space h).symm.trans hs)
  bit i hil hv hd := by
    obtain ⟨h1, h2, h3⟩ := htlb i hil
    rw [h1] at hv
    rw [hdirty, h2, ha.current] at hd
    rw [h3]
    exact hc.bit i hil hv hd
  inFrame h v f hm hf := by
    rw [hmem]
    exact hc.inFrame h v f ((ha.maps h v f).mp hm) hf
  inSwap h v hm hd := by
    rw [hswap]
    exact hc.inSwap h v ((ha.maps h v intMax).mp hm) ((hdirty h v).symm.trans hd)
  clean h s v hs hv hd hslots := by
    refine hc.clean h s v ((ha.space h).symm.trans hs) hv ((hdirty h v).symm.trans hd) ?_
    intro i hil hiv hcur hvp
    obtain ⟨h1, h2, h3⟩ := htlb i hil
    rw [← h3]
    exact hslots i hil (h1.trans hiv) (hcur.trans ha.current.symm) (h2.trans hvp)

section Steps
variable {k k' : Vm} {mem : ℕ → ℕ → UInt8} {hole : Option ℕ}

/-- The dirty bit goes from the TLB to the page table. -/
theorem Content.saveSlot (hc : Content k mem) (hi : FrameInv k hole) {i v : ℕ} (hil : i < tlbSize)
    (hiv : (k.tlb i).valid = true) (hvp : v = (k.tlb i).virtualPage) :
    Content (k.saveSlot k.currentThread v i) mem := by
  have ha := hi.agrees_saveSlot hil hiv hvp
  subst hvp
  obtain ⟨hmi, hlt, -⟩ := hi.slot i hil hiv
  have hpt : ∀ h v, (k.saveSlot k.currentThread (k.tlb i).virtualPage i).pageTable h v =
      if h = k.currentThread ∧ v = (k.tlb i).virtualPage then { k.tlb i with valid := false }
      else k.pageTable h v := fun h v => setEntry_pageTable _ _ _ _ _
  have hother : ∀ j, j < tlbSize →
      ((k.saveSlot k.currentThread (k.tlb i).virtualPage i).tlb j).valid = true →
      j ≠ i ∧ (k.saveSlot k.currentThread (k.tlb i).virtualPage i).tlb j = k.tlb j := by
    intro j _ hjv
    rw [saveSlot_tlb] at hjv ⊢
    split at hjv
    · cases hjv
    · rename_i hne
      rw [if_neg hne]
      exact ⟨hne, rfl⟩
  refine ⟨fun h s hs => hc.constructed h s hs, fun j hjl hjv hjd => ?_,
    fun h v f hm hf => hc.inFrame h v f ((ha.maps h v f).mp hm) hf, fun h v hm hd => ?_,
    fun h s v hs hv hd hslots => ?_⟩
  · obtain ⟨hne, heq⟩ := hother j hjl hjv
    rw [heq] at hjv hjd ⊢
    have hvne : (k.tlb j).virtualPage ≠ (k.tlb i).virtualPage := fun he =>
      hne (hi.once j i hjl hil hjv hiv he)
    rw [hpt, if_neg fun he => hvne he.2] at hjd
    exact hc.bit j hjl hjv hjd
  · have hm' := (ha.maps h v intMax).mp hm
    have hne : ¬ (h = k.currentThread ∧ v = (k.tlb i).virtualPage) := by
      rintro ⟨rfl, rfl⟩
      obtain ⟨_, _, _, h1⟩ := hmi
      obtain ⟨_, _, _, h2⟩ := hm'
      rw [← h1, h2] at hlt
      exact absurd hlt (by decide)
    rw [hpt, if_neg hne] at hd
    exact hc.inSwap h v hm' hd
  · by_cases hpage : h = k.currentThread ∧ v = (k.tlb i).virtualPage
    · obtain ⟨rfl, rfl⟩ := hpage
      rw [hpt, if_pos ⟨rfl, rfl⟩] at hd
      refine hc.clean _ s _ hs hv ?_ ?_
      · by_contra hdirty
        have := hc.bit i hil hiv (by simpa using hdirty)
        rw [hd] at this
        cases this
      · intro j hjl hjv _ hjvp
        rw [hi.once j i hjl hil hjv hiv hjvp]
        exact hd
    · rw [hpt, if_neg hpage] at hd
      refine hc.clean h s v hs hv hd fun j hjl hjv hcur hjvp => ?_
      have hne : j ≠ i := by
        rintro rfl
        exact hpage ⟨hcur, hjvp.symm⟩
      have heq : (k.saveSlot k.currentThread (k.tlb i).virtualPage i).tlb j = k.tlb j := by
        rw [saveSlot_tlb, if_neg hne]
      rw [← heq]
      exact hslots j hjl (by rw [heq]; exact hjv) hcur (by rw [heq]; exact hjvp)

/-- `SaveState` keeps the content. -/
theorem Content.saveState (hc : Content k mem) (hi : FrameInv k hole) :
    Content k.saveState mem := by
  have hboth : Agrees k k.saveState ∧ Content k.saveState mem := by
    refine saveSlots_induction (I := fun k0 => Agrees k k0 ∧ Content k0 mem) ⟨.refl, hc⟩
      fun k0 i ⟨ha, hc0⟩ hil hv => ?_
    have hi0 := hi.of_agree ha
    rw [← ha.current]
    exact ⟨ha.trans (hi0.agrees_saveSlot hil hv (hi0.saveState_page hil hv)),
      hc0.saveSlot hi0 hil hv (hi0.saveState_page hil hv)⟩
  exact hboth.2

/-- With an empty TLB, any thread can run. -/
theorem Content.switch (hc : Content k mem) (hi : FrameInv k none) {next : ℕ}
    (h : k.switch next = some k') : Content k' mem := by
  simp only [Vm.switch, Option.bind_eq_bind, Option.bind_eq_some_iff, Option.pure_def,
    Option.some.injEq] at h
  obtain ⟨t, -, rfl⟩ := h
  have hempty : ∃ k1, Content k1 mem ∧ (∀ j, j < tlbSize → (k1.tlb j).valid = false) ∧
      k1 = if (k.space k.currentThread).isSome then k.saveState else k := by
    refine ⟨_, ?_, fun j hj => ?_, rfl⟩
    · split
      · exact hc.saveState hi
      · exact hc
    · split
      · exact saveState_invalid hj
      · rename_i hnone
        by_contra hv
        obtain ⟨⟨s, hs, -⟩, -⟩ := hi.slot j hj (by simpa using hv)
        simp [hs] at hnone
  obtain ⟨k1, hc1, hinv, hk1⟩ := hempty
  rw [← hk1]
  have hc2 : Content { k1 with currentThread := next } mem :=
    ⟨hc1.constructed, fun i hil hv => absurd hv (by simp [hinv i hil]), hc1.inFrame, hc1.inSwap,
      fun h s v hs hv hd _ => hc1.clean h s v hs hv hd
        fun i hil hiv => absurd hiv (by simp [hinv i hil])⟩
  split
  · exact hc2.of_agree agrees_restoreState (fun _ _ => rfl)
      (fun i hil => ⟨by simp [restoreState, hil, hinv i hil], by simp [restoreState, hil],
        by simp [restoreState, hil]⟩) rfl rfl
  · exact hc2

/-- Two different pages of a file or of memory do not overlap. -/
theorem page_apart {v v' o : ℕ} (hne : v' ≠ v) (ho : o < pageSize) :
    v' * pageSize + o < v * pageSize ∨ v * pageSize + pageSize ≤ v' * pageSize + o := by
  rcases Nat.lt_or_gt_of_ne hne with hl | hl
  · left
    have := Nat.mul_le_mul_right pageSize (Nat.succ_le_of_lt hl)
    rw [Nat.succ_mul] at this
    omega
  · right
    have := Nat.mul_le_mul_right pageSize (Nat.succ_le_of_lt hl)
    rw [Nat.succ_mul] at this
    omega

/-- A page leaves its frame: if it is dirty, the swap file must have it. -/
theorem Content.unmap (hc : Content k mem) {h v f : ℕ} {s : AddressSpace}
    (hs : k.space h = some s) (hv : v < s.numPages) (hm : k.Maps h v f) (hf : f < numPhysPages)
    {e : TranslationEntry} (hpp : e.physicalPage = intMax)
    (hdirty : e.dirty = (k.pageTable h v).dirty) {swap : HostFile}
    (hnew : e.dirty = true → (v + 1) * pageSize ≤ swap.length ∧ ∀ o, o < pageSize →
      swap.byte (v * pageSize + o) = k.mainMemory (f * pageSize + o))
    (hold : ∀ v', v' ≠ v → (v' + 1) * pageSize ≤ (k.openSwapFile h).length →
      (v' + 1) * pageSize ≤ swap.length ∧ ∀ o, o < pageSize →
        swap.byte (v' * pageSize + o) = (k.openSwapFile h).byte (v' * pageSize + o)) :
    Content (({ k with openSwapFile := Function.update k.openSwapFile h swap }).setEntry h v e)
      mem := by
  have hmaps : ∀ h' v' g,
      (({ k with openSwapFile := Function.update k.openSwapFile h swap }).setEntry h v e).Maps
        h' v' g ↔ (h' = h ∧ v' = v ∧ e.physicalPage = g) ∨ (¬ (h' = h ∧ v' = v) ∧ k.Maps h' v' g) :=
    fun h' v' g => maps_setEntry (k := { k with
      openSwapFile := Function.update k.openSwapFile h swap }) hs hv
  have hbit : ∀ h' v', ((({ k with openSwapFile := Function.update k.openSwapFile h swap }).setEntry
      h v e).pageTable h' v').dirty = (k.pageTable h' v').dirty := by
    intro h' v'
    rw [setEntry_pageTable]
    split
    · rename_i heq
      rw [heq.1, heq.2, hdirty]
    · rfl
  refine ⟨hc.constructed, fun i hil hiv hd => hc.bit i hil hiv ((hbit _ _).symm.trans hd),
    fun h' v' g hm' hg => ?_, fun h' v' hm' hd => ?_,
    fun h' s' v' hs' hv' hd hslots =>
      hc.clean h' s' v' hs' hv' ((hbit h' v').symm.trans hd) hslots⟩
  · rcases (hmaps h' v' g).mp hm' with ⟨-, -, heq⟩ | ⟨-, hm'⟩
    · rw [← heq, hpp] at hg
      exact absurd hg (by decide)
    · exact hc.inFrame h' v' g hm' hg
  · rw [hbit] at hd
    rcases (hmaps h' v' intMax).mp hm' with ⟨rfl, rfl, -⟩ | ⟨hne, hm'⟩
    · obtain ⟨hlen, hbyte⟩ := hnew (hdirty.trans hd)
      simp only [setEntry, Function.update_self]
      exact ⟨hlen, fun o ho => (hbyte o ho).trans (hc.inFrame h' v' f hm hf o ho)⟩
    · obtain ⟨hlen, hbyte⟩ := hc.inSwap h' v' hm' hd
      by_cases hh : h' = h
      · subst hh
        obtain ⟨hlen', hbyte'⟩ := hold v' (fun he => hne ⟨rfl, he⟩) hlen
        simp only [setEntry, Function.update_self]
        exact ⟨hlen', fun o ho => (hbyte' o ho).trans (hbyte o ho)⟩
      · simp only [setEntry, Function.update_of_ne hh]
        exact ⟨hlen, hbyte⟩

/-- `EvacuatePage` keeps the content. -/
theorem Content.takeOut (hc : Content k mem) (hi : FrameInv k none) {h v f : ℕ}
    (hm : k.Maps h v f) (hf : f < numPhysPages) : Content (k.takeOut h v f) mem := by
  have hsaved : Agrees k (k.saveSlots (fun e => e.physicalPage == f && e.valid) h (fun _ _ => v)) ∧
      Content (k.saveSlots (fun e => e.physicalPage == f && e.valid) h (fun _ _ => v)) mem := by
    refine saveSlots_induction (I := fun k0 => Agrees k k0 ∧ Content k0 mem) ⟨.refl, hc⟩
      fun k0 i ⟨ha, hc0⟩ hil hsel => ?_
    have hi0 := hi.of_agree ha
    simp only [Bool.and_eq_true, beq_iff_eq] at hsel
    obtain ⟨hslot, -, -⟩ := hi0.slot i hil hsel.2
    rw [hsel.1] at hslot
    obtain ⟨rfl, hv⟩ := hi0.maps_unique ((ha.maps h v f).mpr hm) hslot hf
    exact ⟨ha.trans (hi0.agrees_saveSlot hil hsel.2 hv), hc0.saveSlot hi0 hil hsel.2 hv⟩
  unfold Vm.takeOut
  generalize k.saveSlots (fun e => e.physicalPage == f && e.valid) h (fun _ _ => v) = k1
    at hsaved ⊢
  obtain ⟨ha, hc1⟩ := hsaved
  have hm1 := (ha.maps h v f).mpr hm
  obtain ⟨s, hs, hv, -⟩ := id hm1
  by_cases hd : (k1.pageTable h v).dirty = true
  · simp only [if_pos hd]
    refine hc1.unmap hs hv hm1 hf
      (e := { k1.pageTable h v with physicalPage := intMax, valid := false }) rfl rfl
      (fun _ => ⟨?_, fun o ho => ?_⟩) fun v' hne hlen => ?_
    · rw [HostFile.writeAt, Nat.succ_mul]
      exact le_max_right _ _
    · exact HostFile.writeAt_byte_add ho
    · refine ⟨le_trans hlen (le_max_left _ _), fun o ho => ?_⟩
      refine HostFile.writeAt_byte_outside (page_apart hne ho) ?_
      rw [Nat.succ_mul] at hlen
      omega
  · simp only [if_neg hd]
    have hsame : k1 = { k1 with
        openSwapFile := Function.update k1.openSwapFile h (k1.openSwapFile h) } := by
      rw [Function.update_eq_self]
    rw [hsame]
    exact hc1.unmap hs hv hm1 hf
      (e := { k1.pageTable h v with physicalPage := intMax, valid := false }) rfl rfl
      (fun he => absurd he hd) fun v' _ hlen => ⟨hlen, fun _ _ => rfl⟩

/-- A frame set aside. -/
theorem Content.frameReady (hc : Content k mem) (hi : FrameInv k none) {victim f : ℕ}
    (hr : FrameReady k victim f k') : Content k' mem := by
  rcases hr with hfind | ⟨rfl, hlt, h, v, hm, rfl⟩
  · obtain ⟨-, -, hk⟩ := find_eq_some hfind
    simp only at hk
    rw [hk]
    exact ⟨hc.constructed, hc.bit, hc.inFrame, hc.inSwap, hc.clean⟩
  · exact hc.takeOut hi hm hlt

/-- **`LoadPage` puts the page that counts into the frame.** -/
theorem Content.brought (hc : Content k mem) {addr f : ℕ} (hi : FrameInv k (some f))
    {s : AddressSpace} (hs : k.space k.currentThread = some s) (hv : addr / pageSize < s.numPages)
    (hout : (k.pageTable k.currentThread (addr / pageSize)).physicalPage = intMax)
    (hmiss : k.Misses (addr / pageSize)) : Content (k.brought s addr f) mem := by
  obtain ⟨hf, hfree⟩ := hi.unused f rfl
  generalize hvpn : addr / pageSize = vpn at hv hout hmiss
  have hm : k.Maps k.currentThread vpn intMax := ⟨s, hs, hv, hout⟩
  have hpt : ∀ h v, (k.brought s addr f).pageTable h v =
      if h = k.currentThread ∧ v = vpn then
        { k.pageTable k.currentThread vpn with physicalPage := f }
      else k.pageTable h v := by
    intro h v
    rw [Vm.brought, hvpn]
    exact setEntry_pageTable _ _ _ _ _
  have hbit : ∀ h v, ((k.brought s addr f).pageTable h v).dirty = (k.pageTable h v).dirty := by
    intro h v
    rw [hpt]
    split
    · rename_i heq
      rw [heq.1, heq.2]
    · rfl
  have hmaps : ∀ h v g, (k.brought s addr f).Maps h v g ↔
      (h = k.currentThread ∧ v = vpn ∧ f = g) ∨
        (¬ (h = k.currentThread ∧ v = vpn) ∧ k.Maps h v g) := by
    intro h v g
    rw [Vm.brought, hvpn]
    exact maps_setEntry hs hv
  -- the frame has the page, and the rest of memory is as it was
  have hload : (∀ o, o < pageSize → (k.brought s addr f).mainMemory (f * pageSize + o) =
      mem k.currentThread (vpn * pageSize + o)) ∧
      ∀ a, a < f * pageSize ∨ f * pageSize + pageSize ≤ a →
        (k.brought s addr f).mainMemory a = k.mainMemory a := by
    have hdirty : ((k.setEntry k.currentThread vpn
        { k.pageTable k.currentThread vpn with physicalPage := f }).pageTable k.currentThread
          vpn).dirty = (k.pageTable k.currentThread vpn).dirty := by
      rw [setEntry_pageTable, if_pos ⟨rfl, rfl⟩]
    have hclear : ∀ o, o < pageSize →
        blit k.mainMemory (f * pageSize) pageSize (fun _ => 0) (f * pageSize + o) = 0 :=
      fun o ho => blit_add ho
    simp only [Vm.brought, hvpn, loadPage, hdirty]
    cases hd : (k.pageTable k.currentThread vpn).dirty with
    | true =>
      obtain ⟨hlen, hbyte⟩ := hc.inSwap _ _ hm hd
      rw [if_pos rfl]
      refine ⟨fun o ho => ?_, fun a ha => ?_⟩
      · rw [Nat.succ_mul] at hlen
        rw [← hbyte o ho]
        exact HostFile.readAt_add ho (by show _ < (k.openSwapFile k.currentThread).length; omega)
      · exact (HostFile.readAt_outside (by omega)).trans (blit_outside ha)
    | false =>
      rw [if_neg (by simp)]
      refine ⟨fun o ho => ?_, fun a ha => ?_⟩
      · rw [hc.clean _ s vpn hs hv hd (fun i hil hiv _ hvp => absurd hvp (hmiss i hil hiv)) o ho]
        exact readExecutable_page (hc.constructed _ s hs) hclear ho
      · exact (readExecutable_outside ha).trans (blit_outside ha)
  refine ⟨hc.constructed, fun i hil hiv hd => hc.bit i hil hiv ((hbit _ _).symm.trans hd),
    fun h v g hm' hg o ho => ?_, fun h v hm' hd => ?_,
    fun h s' v hs' hv' hd hslots => hc.clean h s' v hs' hv' ((hbit h v).symm.trans hd) hslots⟩
  · rcases (hmaps h v g).mp hm' with ⟨rfl, rfl, rfl⟩ | ⟨-, hold⟩
    · exact hload.1 o ho
    · have hgf : g ≠ f := by
        rintro rfl
        exact hfree h v hold
      rw [hload.2 _ (page_apart hgf ho)]
      exact hc.inFrame h v g hold hg o ho
  · rw [hbit] at hd
    rcases (hmaps h v intMax).mp hm' with ⟨-, -, heq⟩ | ⟨-, hold⟩
    · rw [heq] at hf
      exact absurd hf (by decide)
    · exact hc.inSwap h v hold hd

/-- A page gets a slot of the TLB, with the bits of its entry. -/
theorem Content.install (hc : Content k mem) {i v : ℕ} (hil : i < tlbSize)
    (hfree : (k.tlb i).valid = false) {e : TranslationEntry} (hvp : e.virtualPage = v)
    (hd : e.dirty = (k.pageTable k.currentThread v).dirty) :
    Content { k with tlb := Function.update k.tlb i e } mem := by
  refine ⟨hc.constructed, fun j hjl hjv hjd => ?_, hc.inFrame, hc.inSwap,
    fun h s v' hs hv' hd' hslots => hc.clean h s v' hs hv' hd' fun j hjl hjv hcur hjvp => ?_⟩
  · by_cases hji : j = i
    · subst hji
      simp only [Function.update_self] at hjd ⊢
      rw [hvp] at hjd
      exact hd.trans hjd
    · simp only [Function.update_of_ne hji] at hjv hjd ⊢
      exact hc.bit j hjl hjv hjd
  · have hji : j ≠ i := by
      rintro rfl
      rw [hfree] at hjv
      cases hjv
    have hslot := hslots j hjl
    simp only [Function.update_of_ne hji] at hslot
    exact hslot hjv hcur hjvp

/-- The page in turn in the TLB. -/
theorem Content.fillSlot (hc : Content k mem) (hi : FrameInv k none) {t : Thread} {v f : ℕ}
    (ht : k.thread k.currentThread = some t) (hm : k.Maps k.currentThread v f) :
    Content (k.fillSlot t v) mem := by
  have hslot : t.numFaults % tlbSize < tlbSize := Nat.mod_lt _ (by decide)
  unfold Vm.fillSlot
  generalize t.numFaults % tlbSize = slot at hslot ⊢
  have hsaved : ∃ k1, Agrees k k1 ∧ Content k1 mem ∧ (k1.tlb slot).valid = false ∧
      k1.thread = k.thread ∧ k1 = if (k.tlb slot).valid then
        k.saveSlot k.currentThread (k.tlb slot).virtualPage slot else k := by
    refine ⟨_, ?_, ?_, ?_, ?_, rfl⟩
    · split
      · exact hi.agrees_saveSlot hslot (by assumption) rfl
      · exact .refl
    · split
      · exact hc.saveSlot hi hslot (by assumption) rfl
      · exact hc
    · split
      · rw [saveSlot_tlb, if_pos rfl]
      · rename_i hn
        simpa using hn
    · split <;> rfl
  obtain ⟨k1, ha, hc1, hfree, hthread, hk1⟩ := hsaved
  simp only
  rw [← hk1, ← ha.current]
  obtain ⟨s, hs, hv, -⟩ := (ha.maps _ v f).mpr hm
  rw [← ha.current] at hs
  obtain ⟨hvp, -, -⟩ := (hi.of_agree ha).entry _ s v hs hv
  have hc2 := hc1.install hslot hfree (e := k1.pageTable k1.currentThread v) hvp rfl
  refine hc2.of_agree ⟨rfl, rfl, fun h => ?_, rfl, rfl, rfl, fun _ _ _ _ _ => rfl,
    fun _ _ hv => ⟨hv, rfl⟩⟩ (fun _ _ => rfl) (fun _ _ => ⟨rfl, rfl, rfl⟩) rfl rfl
  by_cases hh : h = k1.currentThread
  · subst hh
    simp only [Function.update_self, Option.map_some, hthread, ha.current, ht]
  · simp only [Function.update_of_ne hh]

/-- **A page fault keeps the content.** -/
theorem Content.pageFaultHandler (hc : Content k mem) (hi : FrameInv k none) {s : AddressSpace}
    (hs : k.space k.currentThread = some s) {addr victim : ℕ} (hv : addr / pageSize < s.numPages)
    (hvictim : victim < numPhysPages) (hmiss : k.Misses (addr / pageSize))
    (h : k.pageFaultHandler addr victim = some k') : Content k' mem := by
  obtain ⟨t, k1, k2, hk1, hcases, hl, heq⟩ := hi.handler_cases hs hv hvictim hmiss
  rw [heq, Option.some.injEq] at h
  rw [← h]
  obtain ⟨f, -, hm⟩ := hl.inFrame
  have hi1 : FrameInv k1 none := hi.of_agree (hk1 ▸ agrees_setEntry rfl)
  have hc1 : Content k1 mem := by
    rw [hk1]
    refine hc.of_agree (agrees_setEntry rfl) (fun h v => ?_) (fun _ _ => ⟨rfl, rfl, rfl⟩) rfl rfl
    rw [setEntry_pageTable]
    split
    · rename_i hpage
      rw [hpage.1, hpage.2]
    · rfl
  refine Content.fillSlot ?_ hl.inv hl.thread hm
  rcases hcases with rfl | ⟨f, k', hready, hi', hspace, hout, hmiss', rfl⟩
  · exact hc1
  · exact (hc1.frameReady hi1 hready).brought hi' hspace hv hout hmiss'

end Steps

/-! ## Accesses -/

/-- A value depends on its own bytes. -/
theorem Width.load_congr {w : Width} {mem mem' : ℕ → UInt8} {a a' : ℕ}
    (h : ∀ j, j < w.bytes → mem (a + j) = mem' (a' + j)) : w.load mem a = w.load mem' a' := by
  cases w with
  | byte =>
    have h0 : mem a = mem' a' := h 0 (by decide)
    unfold Width.load
    simp only [h0]
  | half =>
    have h0 : mem a = mem' a' := h 0 (by decide)
    unfold Width.load
    simp only [h0, h 1 (by decide)]
  | word =>
    have h0 : mem a = mem' a' := h 0 (by decide)
    unfold Width.load
    simp only [h0, h 1 (by decide), h 2 (by decide), h 3 (by decide)]

/-- An aligned access stays inside a page. -/
theorem Width.fits {w : Width} {addr : ℕ} (ha : addr % w.bytes = 0) :
    addr % pageSize + w.bytes ≤ pageSize := by
  have hsize : pageSize = 128 := rfl
  cases w with
  | byte => simp only [Width.bytes, hsize] at ha ⊢; omega
  | half => simp only [Width.bytes, hsize] at ha ⊢; omega
  | word => simp only [Width.bytes, hsize] at ha ⊢; omega

section Access
variable {k k' : Vm} {mem : ℕ → ℕ → UInt8} {addr i : ℕ} {w : Width}

/-- Reading does not change the content. -/
theorem Content.touch (hc : Content k mem) : Content (k.touch i false) mem := by
  refine hc.of_agree agrees_touch (fun _ _ => rfl) (fun j _ => ?_) rfl rfl
  by_cases hji : j = i
  · subst hji
    simp [Vm.touch]
  · simp [Vm.touch, hji]

/-- The bytes of an access through slot `i`. -/
theorem Content.load_eq (hc : Content k mem) (hi : FrameInv k none) (ha : addr % w.bytes = 0)
    (hil : i < tlbSize) (hiv : (k.tlb i).valid = true)
    (hvp : (k.tlb i).virtualPage = addr / pageSize) :
    w.load k.mainMemory ((k.tlb i).physicalPage * pageSize + addr % pageSize) =
      w.load (mem k.currentThread) addr := by
  obtain ⟨hm, hlt, -⟩ := hi.slot i hil hiv
  have hfits := Width.fits ha
  refine Width.load_congr fun j hj => ?_
  rw [Nat.add_assoc, hc.inFrame _ _ _ hm hlt _ (by omega), hvp, ← Nat.add_assoc, Nat.mul_comm,
    Nat.div_add_mod]

/-- A write through slot `i` and its effect on the flat memory. -/
theorem Content.write (hc : Content k mem) (hi : FrameInv k none) (ha : addr % w.bytes = 0)
    (hil : i < tlbSize) (hiv : (k.tlb i).valid = true)
    (hvp : (k.tlb i).virtualPage = addr / pageSize) (src : ℕ → UInt8) :
    Content { k.touch i true with
        mainMemory := blit k.mainMemory ((k.tlb i).physicalPage * pageSize + addr % pageSize)
          w.bytes src }
      (Function.update mem k.currentThread (blit (mem k.currentThread) addr w.bytes src)) := by
  obtain ⟨hm, hlt, -⟩ := hi.slot i hil hiv
  have hfits := Width.fits ha
  have haddr : addr / pageSize * pageSize + addr % pageSize = addr := by
    rw [Nat.mul_comm, Nat.div_add_mod]
  have hmaps : ∀ h v f, (k.touch i true).Maps h v f ↔ k.Maps h v f := agrees_touch.maps
  have hother : ∀ h v o, ¬ (h = k.currentThread ∧ v = (k.tlb i).virtualPage) → o < pageSize →
      Function.update mem k.currentThread (blit (mem k.currentThread) addr w.bytes src) h
        (v * pageSize + o) = mem h (v * pageSize + o) := by
    intro h v o hne ho
    by_cases hh : h = k.currentThread
    · subst hh
      have hv : v ≠ addr / pageSize := fun he => hne ⟨rfl, he.trans hvp.symm⟩
      rw [Function.update_self]
      have := page_apart hv ho
      exact blit_outside (by omega)
    · rw [Function.update_of_ne hh]
  have hslot : ((k.touch i true).tlb i).dirty = true := by simp [Vm.touch]
  refine ⟨hc.constructed, fun j hjl hjv hjd => ?_, fun h v f hm' hf o ho => ?_,
    fun h v hm' hd => ?_, fun h s v hs hv hd hslots o ho => ?_⟩
  · by_cases hji : j = i
    · subst hji
      exact hslot
    · simp only [Vm.touch, Function.update_of_ne hji] at hjv hjd ⊢
      exact hc.bit j hjl hjv hjd
  · have hm' := (hmaps h v f).mp hm'
    by_cases hpage : h = k.currentThread ∧ v = (k.tlb i).virtualPage
    · obtain ⟨rfl, rfl⟩ := hpage
      have hf' : f = (k.tlb i).physicalPage := by
        obtain ⟨_, _, _, h1⟩ := hm
        obtain ⟨_, _, _, h2⟩ := hm'
        exact h2.symm.trans h1
      subst hf'
      have hin := hc.inFrame _ _ _ hm hf o ho
      rw [Function.update_self, hvp]
      rw [hvp] at hin
      simp only [blit]
      by_cases hw : addr % pageSize ≤ o ∧ o < addr % pageSize + w.bytes
      · rw [if_pos (by omega), if_pos (by omega)]
        congr 1
        omega
      · rw [if_neg (by omega), if_neg (by omega)]
        exact hin
    · have hne : f ≠ (k.tlb i).physicalPage := by
        rintro rfl
        exact hpage (hi.maps_unique hm' hm hf)
      rw [hother h v o hpage ho]
      have := page_apart hne ho
      exact (blit_outside (by omega)).trans (hc.inFrame h v f hm' hf o ho)
  · have hm' := (hmaps h v intMax).mp hm'
    have hne : ¬ (h = k.currentThread ∧ v = (k.tlb i).virtualPage) := by
      rintro ⟨rfl, rfl⟩
      obtain ⟨_, _, _, h1⟩ := hm
      obtain ⟨_, _, _, h2⟩ := hm'
      rw [← h1, h2] at hlt
      exact absurd hlt (by decide)
    obtain ⟨hlen, hbyte⟩ := hc.inSwap h v hm' hd
    exact ⟨hlen, fun o ho => (hbyte o ho).trans (hother h v o hne ho).symm⟩
  · have hne : ¬ (h = k.currentThread ∧ v = (k.tlb i).virtualPage) := by
      rintro ⟨rfl, rfl⟩
      have := hslots i hil (by simpa [Vm.touch] using hiv) rfl (by simp [Vm.touch])
      rw [hslot] at this
      cases this
    rw [hother h v o hne ho]
    refine hc.clean h s v hs hv hd (fun j hjl hjv hcur hjvp => ?_) o ho
    have hji : j ≠ i := by
      rintro rfl
      exact hne ⟨hcur, hjvp.symm⟩
    have := hslots j hjl
    simp only [Vm.touch, Function.update_of_ne hji] at this
    exact this hjv hcur hjvp

end Access

/-! ## Threads and address spaces come and go -/

section Lifetime
variable {k k' : Vm} {mem : ℕ → ℕ → UInt8} {h : ℕ}

theorem Content.newThread (hc : Content k mem) (hi : FrameInv k none) :
    Content k.newThread mem := by
  have hspace := hi.newThread_space
  have hmaps : ∀ h v f, k.newThread.Maps h v f ↔ k.Maps h v f := by
    intro h v f
    simp only [Maps, hspace]
    exact Iff.rfl
  exact ⟨fun h s hs => hc.constructed h s ((hspace h).symm.trans hs), hc.bit,
    fun h v f hm => hc.inFrame h v f ((hmaps h v f).mp hm),
    fun h v hm => hc.inSwap h v ((hmaps h v intMax).mp hm),
    fun h s v hs => hc.clean h s v ((hspace h).symm.trans hs)⟩

/-- A new address space has its image. -/
theorem Content.newSpace (hc : Content k mem) (hi : FrameInv k none) {exe : Executable}
    (hl : Layout exe) (hnew : k.newSpace h exe = some k') :
    Content k' (Function.update mem h (image exe)) := by
  obtain ⟨t, ht, hold, rfl⟩ := newSpace_eq_some hnew
  have hcur : ∀ i, i < tlbSize → (k.tlb i).valid = true → k.currentThread ≠ h := fun i hil hiv =>
    (hi.slot i hil hiv).1.ne_of_space hold
  refine ⟨fun h' s hs => ?_, fun i hil hiv hd => ?_, fun h' v f hm hf o ho => ?_,
    fun h' v hm hd => ?_, fun h' s v hs hv hd hslots o ho => ?_⟩
  · by_cases hne : h' = h
    · subst hne
      rw [withSpace_space_self, Option.some.injEq] at hs
      subst hs
      exact constructed_make hl _
    · exact hc.constructed h' s ((withSpace_space hne).symm.trans hs)
  · have hne : (k.withSpace h t exe).currentThread ≠ h := hcur i hil hiv
    rw [withSpace_pageTable hne] at hd
    exact hc.bit i hil hiv hd
  · obtain ⟨hne, hm⟩ := (withSpace_maps hold hf).mp hm
    rw [Function.update_of_ne hne]
    exact hc.inFrame h' v f hm hf o ho
  · by_cases hne : h' = h
    · subst hne
      rw [withSpace_pageTable_self] at hd
      cases hd
    · obtain ⟨s, hs, hv, hpp⟩ := hm
      rw [withSpace_pageTable hne] at hd hpp
      rw [Function.update_of_ne hne]
      have := hc.inSwap h' v ⟨s, (withSpace_space hne).symm.trans hs, hv, hpp⟩ hd
      simpa [withSpace, hne] using this
  · by_cases hne : h' = h
    · subst hne
      rw [withSpace_space_self, Option.some.injEq] at hs
      subst hs
      rw [Function.update_self]
      rfl
    · rw [withSpace_pageTable hne] at hd
      rw [Function.update_of_ne hne]
      exact hc.clean h' s v ((withSpace_space hne).symm.trans hs) hv hd hslots o ho

/-- The frames of the other address spaces are left alone. -/
theorem Content.destroy (hc : Content k mem) (hi : FrameInv k none)
    (hd : k.destroy h = some k') : Content k' mem := by
  obtain ⟨-, bits, memory, rfl, hfreed⟩ := destroy_eq_some hd
  refine ⟨fun h' s hs => hc.constructed h' s (withoutThread_space.mp hs).2, hc.bit,
    fun h' v f hm hf o ho => ?_, fun h' v hm => hc.inSwap h' v (withoutThread_maps.mp hm).2,
    fun h' s v hs => hc.clean h' s v (withoutThread_space.mp hs).2⟩
  obtain ⟨hne, hm⟩ := withoutThread_maps.mp hm
  rw [← hc.inFrame h' v f hm hf o ho]
  exact (hfreed f hf).2 (fun v' hm' => hne (hi.maps_unique hm hm' hf).1) o ho

end Lifetime

/-! ## After a page fault -/

section Retry
variable {k k2 : Vm} {t : Thread} {v : ℕ}

/-- The page has its slot. -/
theorem Loaded.hit (hl : Loaded k t v k2) : ¬ (k2.fillSlot t v).Misses v := by
  intro hmiss
  have hslot : t.numFaults % tlbSize < tlbSize := Nat.mod_lt _ (by decide)
  obtain ⟨f, -, s, hs, hv, -⟩ := hl.inFrame
  have hm := hmiss _ hslot
  simp only [Vm.fillSlot, Function.update_self] at hm
  by_cases hval : (k2.tlb (t.numFaults % tlbSize)).valid = true
  · have hne := hl.misses _ hslot hval
    have hsaved : (k2.saveSlot k2.currentThread (k2.tlb (t.numFaults % tlbSize)).virtualPage
        (t.numFaults % tlbSize)).pageTable k2.currentThread v =
          k2.pageTable k2.currentThread v :=
      (setEntry_pageTable _ _ _ _ _).trans (if_neg fun he => hne he.2.symm)
    rw [if_pos hval, hsaved] at hm
    exact hm hl.valid (hl.inv.entry _ s v hs hv).1
  · rw [if_neg hval] at hm
    exact hm hl.valid (hl.inv.entry _ s v hs hv).1

/-- The running thread and its space are those of the access. -/
theorem Loaded.fillSlot_space (hl : Loaded k t v k2) :
    (k2.fillSlot t v).currentThread = k.currentThread ∧
      (k2.fillSlot t v).space k.currentThread = k.space k.currentThread := by
  have hcur : (k2.fillSlot t v).currentThread = k2.currentThread := by
    simp only [Vm.fillSlot]
    split <;> rfl
  refine ⟨hcur.trans hl.current, ?_⟩
  have ht := hl.thread
  rw [hl.threads, hl.current] at ht
  simp [Vm.space, ht, Vm.fillSlot, hl.current]

/-- **After the handler the access does not miss.** -/
theorem FrameInv.handler_ends (hi : FrameInv k none) {addr victim : ℕ} {w : Width}
    (hr : k.InRange addr w) (hvictim : victim < numPhysPages)
    (hmiss : k.Misses (addr / pageSize)) :
    ∃ k', k.pageFaultHandler addr victim = some k' ∧ k'.currentThread = k.currentThread ∧
      FrameInv k' none ∧ k'.InRange addr w ∧ ¬ k'.Misses (addr / pageSize) := by
  obtain ⟨s, hs, hlt⟩ := hr.2
  have hv := hr.page_lt hs
  obtain ⟨t, k1, k2, -, -, hl, heq⟩ := hi.handler_cases hs hv hvictim hmiss
  obtain ⟨k', heq', hi'⟩ := hi.pageFaultHandler hs hv hvictim hmiss
  rw [heq, Option.some.injEq] at heq'
  subst heq'
  obtain ⟨hcur, hspace⟩ := hl.fillSlot_space
  refine ⟨_, heq, hcur, hi', ⟨hr.1, s, ?_, hlt⟩, hl.hit⟩
  rw [hcur, hspace]
  exact hs

theorem FrameInv.handled (hi : FrameInv k none) {mem : ℕ → ℕ → UInt8} (hc : Content k mem)
    {addr victim : ℕ} {w : Width} (hr : k.InRange addr w) (hvictim : victim < numPhysPages)
    (hmiss : k.Misses (addr / pageSize)) :
    ∃ k', k.pageFaultHandler addr victim = some k' ∧ k'.currentThread = k.currentThread ∧
      FrameInv k' none ∧ Content k' mem ∧ k'.InRange addr w ∧ ¬ k'.Misses (addr / pageSize) := by
  obtain ⟨k', heq, hcur, hi', hr', hhit⟩ := hi.handler_ends hr hvictim hmiss
  obtain ⟨s, hs, -⟩ := hr.2
  exact ⟨k', heq, hcur, hi', hc.pageFaultHandler hi hs (hr.page_lt hs) hvictim hmiss heq, hr', hhit⟩

end Retry

section Attempts
variable {k : Vm} {mem : ℕ → ℕ → UInt8} {addr victim : ℕ} {w : Width}

/-- **A read** gets what the flat memory holds, or misses the TLB. -/
theorem Content.readMem_cases (hc : Content k mem) (hi : FrameInv k none) (hr : k.InRange addr w) :
    (∃ i, k.readMem addr w = .ok (w.load (mem k.currentThread) addr, k.touch i false)) ∨
      (k.readMem addr w = .error .pageFault ∧ k.Misses (addr / pageSize)) := by
  rcases hi.translate_eq hr false with ⟨hfault, hmiss⟩ | ⟨i, hil, hiv, hvp, hok⟩
  · right
    refine ⟨?_, hmiss⟩
    rw [readMem, hfault]
    rfl
  · left
    refine ⟨i, ?_⟩
    rw [readMem, hok, ← hc.load_eq hi hr.1 hil hiv hvp]
    rfl

/-- A write goes through a slot of the TLB, or misses it. -/
theorem FrameInv.writeMem_cases (hi : FrameInv k none) (hr : k.InRange addr w) (value : ℤ) :
    (∃ i, i < tlbSize ∧ (k.tlb i).valid = true ∧ (k.tlb i).virtualPage = addr / pageSize ∧
        k.writeMem addr w value = .ok { k.touch i true with
          mainMemory := blit k.mainMemory ((k.tlb i).physicalPage * pageSize + addr % pageSize)
            w.bytes (storeByte value) } ∧
        FrameInv { k.touch i true with
          mainMemory := blit k.mainMemory ((k.tlb i).physicalPage * pageSize + addr % pageSize)
            w.bytes (storeByte value) } none) ∨
      (k.writeMem addr w value = .error .pageFault ∧ k.Misses (addr / pageSize)) := by
  rcases hi.translate_eq hr true with ⟨hfault, hmiss⟩ | ⟨i, hil, hiv, hvp, hok⟩
  · right
    refine ⟨?_, hmiss⟩
    rw [writeMem, hfault]
    rfl
  · left
    refine ⟨i, hil, hiv, hvp, ?_, ?_⟩
    · rw [writeMem, hok]
      rfl
    · exact hi.of_agree (agrees_touch.trans ⟨rfl, rfl, fun _ => rfl, rfl, rfl, rfl,
        fun _ _ _ _ _ => rfl, fun _ _ hv => ⟨hv, rfl⟩⟩)

/-- **A write** changes the flat memory, or misses the TLB. -/
theorem Content.writeMem_cases (hc : Content k mem) (hi : FrameInv k none) (hr : k.InRange addr w)
    (value : ℤ) :
    (∃ k', k.writeMem addr w value = .ok k' ∧ k'.currentThread = k.currentThread ∧
        FrameInv k' none ∧ Content k' (Function.update mem k.currentThread
          (blit (mem k.currentThread) addr w.bytes (storeByte value)))) ∨
      (k.writeMem addr w value = .error .pageFault ∧ k.Misses (addr / pageSize)) := by
  rcases hi.writeMem_cases hr value with ⟨i, hil, hiv, hvp, hok, hi'⟩ | hmiss
  · exact Or.inl ⟨_, hok, rfl, hi', hc.write hi hr.1 hil hiv hvp _⟩
  · exact Or.inr hmiss

/-- **A read is made again after a page fault, and then ends well.** -/
theorem Content.read_completes (hc : Content k mem) (hi : FrameInv k none) (hr : k.InRange addr w)
    (hvictim : victim < numPhysPages) :
    (∃ k', k.readMem addr w = .ok (w.load (mem k.currentThread) addr, k')) ∨
      ∃ k1 k', k.readMem addr w = .error .pageFault ∧
        k.step (.read addr w victim) = some k1 ∧ k1.currentThread = k.currentThread ∧
        k1.readMem addr w = .ok (w.load (mem k.currentThread) addr, k') := by
  rcases hc.readMem_cases hi hr with ⟨i, hok⟩ | ⟨hfault, hmiss⟩
  · exact Or.inl ⟨_, hok⟩
  · obtain ⟨k1, heq, hcur, hi1, hc1, hr1, hhit⟩ := hi.handled hc hr hvictim hmiss
    right
    obtain ⟨i, hok⟩ := (hc1.readMem_cases hi1 hr1).resolve_right fun h => hhit h.2
    rw [hcur] at hok
    refine ⟨k1, _, hfault, ?_, hcur, hok⟩
    rw [Vm.step, hfault]
    exact heq

/-- So is a write. -/
theorem Content.write_completes (hc : Content k mem) (hi : FrameInv k none)
    (hr : k.InRange addr w) (value : ℤ) (hvictim : victim < numPhysPages) :
    (∃ k', k.writeMem addr w value = .ok k') ∨
      ∃ k1 k', k.writeMem addr w value = .error .pageFault ∧
        k.step (.write addr w value victim) = some k1 ∧ k1.currentThread = k.currentThread ∧
        k1.writeMem addr w value = .ok k' := by
  rcases hc.writeMem_cases hi hr value with ⟨k', hok, -⟩ | ⟨hfault, hmiss⟩
  · exact Or.inl ⟨_, hok⟩
  · obtain ⟨k1, heq, hcur, hi1, hc1, hr1, hhit⟩ := hi.handled hc hr hvictim hmiss
    right
    obtain ⟨k', hok, -⟩ := (hc1.writeMem_cases hi1 hr1 value).resolve_right fun h => hhit h.2
    refine ⟨k1, k', hfault, ?_, hcur, hok⟩
    rw [Vm.step, hfault]
    exact heq

end Attempts

/-! ## Runs -/

theorem flat_concat (tr : List Event) (e : Event) : flat (tr ++ [e]) = flatStep (flat tr) e := by
  rw [flat, List.foldl_append]
  rfl

theorem Transparent.concat {tr : List Event} {e : Event} (ht : Transparent tr)
    (he : ∀ h addr w value, e = .read h addr w value → value = w.load (flat tr h) addr) :
    Transparent (tr ++ [e]) := by
  intro before h addr w value after heq
  rcases List.eq_nil_or_concat after with rfl | ⟨after, e', rfl⟩
  · obtain ⟨rfl, hlast⟩ := List.append_inj' heq rfl
    exact he h addr w value (List.singleton_inj.mp hlast)
  · rw [List.concat_eq_append, ← List.cons_append, ← List.append_assoc] at heq
    exact ht before h addr w value after (List.append_inj' heq rfl).1

/-- The executables have the layout of the toolchain. -/
def Action.Toolchain : Action → Prop
  | .newSpace _ exe => Layout exe
  | _ => True

/-- The invariant of a run: the machine holds the flat memories, and has answered by them. -/
structure Simulates (tr : List Event) (k : Vm) : Prop where
  inv : FrameInv k none
  content : Content k (flat tr)
  transparent : Transparent tr

/-- A step that is not recorded. -/
theorem Simulates.silent {tr : List Event} {k k' : Vm} (hs : Simulates tr k)
    (hi : FrameInv k' none) (hc : Content k' (flat tr)) : Simulates (tr ++ []) k' := by
  rw [List.append_nil]
  exact ⟨hi, hc, hs.transparent⟩

/-- **Every step keeps the simulation.** -/
theorem Simulates.step {tr : List Event} {k k' : Vm} {a : Action} (hs : Simulates tr k)
    (ha : k.Allowed a) (hl : a.Toolchain) (hstep : k.step a = some k') :
    Simulates (tr ++ emit k a) k' := by
  have hi' := hs.inv.step ha hstep
  cases a with
  | newThread =>
    rw [← Option.some.inj hstep] at hi' ⊢
    exact hs.silent hi' (hs.content.newThread hs.inv)
  | newSpace h exe =>
    refine ⟨hi', ?_, hs.transparent.concat fun _ _ _ _ he => by cases he⟩
    rw [emit, flat_concat]
    exact hs.content.newSpace hs.inv hl hstep
  | destroy h => exact hs.silent hi' (hs.content.destroy hs.inv hstep)
  | switch next => exact hs.silent hi' (hs.content.switch hs.inv hstep)
  | read addr w victim =>
    rcases hs.content.readMem_cases hs.inv ha.1 with ⟨i, hok⟩ | ⟨hfault, hmiss⟩
    · simp only [Vm.step, hok] at hstep
      rw [← Option.some.inj hstep] at hi' ⊢
      simp only [emit, hok]
      refine ⟨hi', ?_, hs.transparent.concat fun _ _ _ _ he => ?_⟩
      · rw [flat_concat]
        exact hs.content.touch
      · cases he
        rfl
    · obtain ⟨s, hsp, hlt⟩ := ha.1.2
      simp only [Vm.step, hfault] at hstep
      simp only [emit, hfault]
      exact hs.silent hi' (hs.content.pageFaultHandler hs.inv hsp (ha.1.page_lt hsp) ha.2 hmiss
        hstep)
  | write addr w value victim =>
    rcases hs.content.writeMem_cases hs.inv ha.1 value with ⟨k1, hok, -, -, hc⟩ | ⟨hfault, hmiss⟩
    · simp only [Vm.step, hok] at hstep
      rw [← Option.some.inj hstep] at hi' ⊢
      simp only [emit, hok]
      refine ⟨hi', ?_, hs.transparent.concat fun _ _ _ _ he => by cases he⟩
      rw [flat_concat]
      exact hc
    · obtain ⟨s, hsp, hlt⟩ := ha.1.2
      simp only [Vm.step, hfault] at hstep
      simp only [emit, hfault]
      exact hs.silent hi' (hs.content.pageFaultHandler hs.inv hsp (ha.1.page_lt hsp) ha.2 hmiss
        hstep)

section Runs
variable {data : ℤ → ℕ} {pageTable : ℕ → ℕ → TranslationEntry} {tlb : ℕ → TranslationEntry}
  {coreMap : ℕ → CoreMapEntry} {tr : List Event} {k : Vm}

theorem simulates_initial : Simulates [] (initial data pageTable tlb coreMap) := by
  have hi := frameInv_initial data pageTable tlb coreMap
  have hspace : ∀ h, (initial data pageTable tlb coreMap).space h = none := by
    intro h
    by_cases hh : h = 0
    · subst hh
      rfl
    · simp [Vm.space, initial, hh]
  refine ⟨hi, ⟨fun h s hs => ?_, fun i _ hv => ?_, fun h v f hm => ?_, fun h v hm => ?_,
    fun h s v hs => ?_⟩, fun before h addr w value after he => ?_⟩
  · rw [hspace] at hs
    cases hs
  · cases hv
  · exact absurd rfl (hm.ne_of_space (hspace h))
  · exact absurd rfl (hm.ne_of_space (hspace h))
  · rw [hspace] at hs
    cases hs
  · simp at he

theorem Runs.simulates (h : Runs (fun _ k a => k.Allowed a ∧ a.Toolchain)
    (initial data pageTable tlb coreMap) tr k) : Simulates tr k := by
  refine Run.invariant (I := Simulates) simulates_initial ?_ h
  intro tr k a k' hs hg hstep
  exact hs.step hg.1 hg.2 hstep

/-- **Paging is transparent.**  Every read of a run returned what the flat memory of its
process held; and from every state reached, an access in range ends well, a read
with what the flat memory holds, at once or when it is made again after the page
fault. -/
theorem paging_transparent (h : Runs (fun _ k a => k.Allowed a ∧ a.Toolchain)
    (initial data pageTable tlb coreMap) tr k) :
    Transparent tr ∧
      ∀ addr w victim, k.InRange addr w → victim < numPhysPages →
        ((∃ k', k.readMem addr w = .ok (w.load (flat tr k.currentThread) addr, k')) ∨
          ∃ k1 k', k.readMem addr w = .error .pageFault ∧
            k.step (.read addr w victim) = some k1 ∧ k1.currentThread = k.currentThread ∧
            k1.readMem addr w = .ok (w.load (flat tr k.currentThread) addr, k')) ∧
        ∀ value, (∃ k', k.writeMem addr w value = .ok k') ∨
          ∃ k1 k', k.writeMem addr w value = .error .pageFault ∧
            k.step (.write addr w value victim) = some k1 ∧ k1.currentThread = k.currentThread ∧
            k1.writeMem addr w value = .ok k' := by
  have hs := h.simulates
  exact ⟨hs.transparent, fun addr w victim hr hvictim =>
    ⟨hs.content.read_completes hs.inv hr hvictim,
      fun value => hs.content.write_completes hs.inv hr value hvictim⟩⟩

end Runs

/-! ## A run with more pages than frames -/

instance {exe : Executable} : Decidable (Layout exe) :=
  decidable_of_iff (_ ∧ _ ∧ _ ∧ _ ∧ _ ∧ _)
    ⟨fun ⟨h1, h2, h3, h4, h5, h6⟩ => ⟨h1, h2, h3, h4, h5, h6⟩,
      fun ⟨h1, h2, h3, h4, h5, h6⟩ => ⟨h1, h2, h3, h4, h5, h6⟩⟩

instance {a : Action} : Decidable a.Toolchain :=
  match a with
  | .newSpace _ exe => inferInstanceAs (Decidable (Layout exe))
  | .newThread | .destroy _ | .switch _ | .read _ _ _ | .write _ _ _ _ => .isTrue trivial

/-- The first page is written, the others are read, and the last one takes the frame of
the first. -/
def swappedRun : List Action :=
  [.newSpace 0 seventeenPages, .write 4 .half 700 0, .write 4 .half 700 0] ++
    (List.range 16).map (fun i => .read (pageSize * (i + 1)) .word 0) ++
    [.read 4 .half 0, .read 4 .half 0]

theorem play_swappedRun :
    (play (fun k a => if decide (k.Allowed a ∧ a.Toolchain) = true then step k a else none) emit
      started swappedRun).map (fun r => match r.1.getLast? with
        | some (.read h addr w value) => decide (h = 0 ∧ addr = 4 ∧ w = .half ∧ value = 700)
        | _ => false) = some true := by
  decide +kernel

theorem paging_transparent_swapped : ∃ tr k,
    Runs (fun _ k a => k.Allowed a ∧ a.Toolchain) started tr k ∧
      tr.getLast? = some (.read 0 4 .half 700) ∧ Transparent tr := by
  obtain ⟨r, hr, hlast⟩ := Option.map_eq_some_iff.mp play_swappedRun
  have hrun : Runs (fun _ k a => k.Allowed a ∧ a.Toolchain) started r.1 r.2 :=
    (Run.start.play hr).of_restrict.mono fun _ _ _ h => of_decide_eq_true h
  refine ⟨r.1, r.2, hrun, ?_, (paging_transparent hrun).1⟩
  split at hlast
  · rename_i heq
    obtain ⟨rfl, rfl, rfl, rfl⟩ := of_decide_eq_true hlast
    exact heq
  · cases hlast

end Vm
end PaldOs
