import PaldOs.Paging

/-! # Who owns a frame

Four tables say where a page is: the page table of its address space, the core map
and the bitmap of the frames, and the TLB.  `FrameInv` is what they agree on at
every moment: a frame is marked in the bitmap exactly when some page of a live
address space is in it, the core map then names that page, and a valid slot of the
TLB holds a page of the running address space, with the frame its page table says.

In the middle of a page fault one frame is marked and holds no page, the one just
found or evacuated; `hole` is that frame.  Most steps touch neither frames nor
ownership and keep the invariant by `FrameInv.of_agree`; the others take a page out
of a frame, put one in, or install a page in the TLB.
-/
namespace PaldOs
namespace Vm

/-- Page `v` of thread `h` is in frame `f`. -/
def Maps (k : Vm) (h v f : ℕ) : Prop :=
  ∃ s, k.space h = some s ∧ v < s.numPages ∧ (k.pageTable h v).physicalPage = f

/-- `runningProcesses` gives thread `h` for `spaceId`. -/
def Registered (k : Vm) (spaceId : ℤ) (h : ℕ) : Prop :=
  0 ≤ spaceId ∧ k.runningProcesses.occupied spaceId = true ∧ k.runningProcesses.data spaceId = h

/-- An entry of a page table: it is about its own page, which is in a frame or not in
memory. -/
def EntryOk (v : ℕ) (e : TranslationEntry) : Prop :=
  e.virtualPage = v ∧ e.readOnly = false ∧
    (e.physicalPage = intMax ∨ e.physicalPage < numPhysPages)

/-- The invariant of the tables, with `hole` the frame that is marked but unused. -/
structure FrameInv (k : Vm) (hole : Option ℕ) : Prop where
  freed : k.runningProcesses.freed = []
  current : 0 ≤ k.runningProcesses.current
  newer : ∀ h, k.nextThread ≤ h → k.thread h = none
  registered : ∀ h t, k.thread h = some t → t.spaceId ≠ -1 → k.Registered t.spaceId h
  identified : ∀ h t s, k.thread h = some t → t.space = some s →
    t.spaceId ≠ -1 ∧ s.addressSpaceId = t.spaceId
  entry : ∀ h s v, k.space h = some s → v < s.numPages → EntryOk v (k.pageTable h v)
  marked : ∀ f, f < numPhysPages →
    (k.addressesBitMap f = true ↔ (∃ h v, k.Maps h v f) ∨ hole = some f)
  named : ∀ h s v f, k.space h = some s → k.Maps h v f → f < numPhysPages →
    k.coreMap f = ⟨s.addressSpaceId, v⟩
  unused : ∀ f, hole = some f → f < numPhysPages ∧ ∀ h v, ¬ k.Maps h v f
  slot : ∀ i, i < tlbSize → (k.tlb i).valid = true →
    k.Maps k.currentThread (k.tlb i).virtualPage (k.tlb i).physicalPage ∧
      (k.tlb i).physicalPage < numPhysPages ∧ (k.tlb i).readOnly = false
  once : ∀ i j, i < tlbSize → j < tlbSize → (k.tlb i).valid = true → (k.tlb j).valid = true →
    (k.tlb i).virtualPage = (k.tlb j).virtualPage → i = j

section Consequences
variable {k : Vm} {hole : Option ℕ}

theorem space_eq_some {h : ℕ} {s : AddressSpace} :
    k.space h = some s ↔ ∃ t, k.thread h = some t ∧ t.space = some s := by
  simp [space, Option.bind_eq_some_iff]

/-- A thread is found in `runningProcesses` under the id of its address space. -/
theorem FrameInv.registered_space (hi : FrameInv k hole) {h : ℕ} {s : AddressSpace}
    (hs : k.space h = some s) : k.Registered s.addressSpaceId h := by
  obtain ⟨t, ht, hts⟩ := space_eq_some.mp hs
  obtain ⟨hne, hid⟩ := hi.identified h t s ht hts
  rw [hid]
  exact hi.registered h t ht hne

/-- **A frame holds one page.** -/
theorem FrameInv.maps_unique (hi : FrameInv k hole) {h h' v v' f : ℕ} (hm : k.Maps h v f)
    (hm' : k.Maps h' v' f) (hf : f < numPhysPages) : h = h' ∧ v = v' := by
  obtain ⟨s, hs, -⟩ := id hm
  obtain ⟨s', hs', -⟩ := id hm'
  have hname := hi.named h s v f hs hm hf
  rw [hi.named h' s' v' f hs' hm' hf] at hname
  obtain ⟨hid, hv⟩ := CoreMapEntry.mk.inj hname
  obtain ⟨-, -, hh⟩ := hi.registered_space hs
  obtain ⟨-, -, hh'⟩ := hi.registered_space hs'
  rw [← hid, hh'] at hh
  exact ⟨hh.symm, hv.symm⟩

end Consequences

/-! ## Steps that leave frames and owners alone -/

/-- What the invariant sees of an entry. -/
def place (e : TranslationEntry) : ℕ × ℕ × Bool := (e.virtualPage, e.physicalPage, e.readOnly)

/-- `k'` has the pages of `k` in the same frames, and no new page in the TLB. -/
structure Agrees (k k' : Vm) : Prop where
  table : k'.runningProcesses = k.runningProcesses
  next : k'.nextThread = k.nextThread
  ident : ∀ h, (k'.thread h).map (fun t => (t.spaceId, t.space)) =
    (k.thread h).map (fun t => (t.spaceId, t.space))
  current : k'.currentThread = k.currentThread
  core : k'.coreMap = k.coreMap
  bits : k'.addressesBitMap = k.addressesBitMap
  entry : ∀ h s v, k.space h = some s → v < s.numPages →
    place (k'.pageTable h v) = place (k.pageTable h v)
  slot : ∀ i, i < tlbSize → (k'.tlb i).valid = true →
    (k.tlb i).valid = true ∧ place (k'.tlb i) = place (k.tlb i)

namespace Agrees
variable {k k' : Vm}

theorem refl : Agrees k k :=
  ⟨rfl, rfl, fun _ => rfl, rfl, rfl, rfl, fun _ _ _ _ _ => rfl, fun _ _ h => ⟨h, rfl⟩⟩

theorem space (ha : Agrees k k') (h : ℕ) : k'.space h = k.space h := by
  have hid := ha.ident h
  unfold Vm.space
  cases ht : k.thread h with
  | none =>
    rw [ht, Option.map_none, Option.map_eq_none_iff] at hid
    rw [hid]
  | some t =>
    rw [ht, Option.map_some, Option.map_eq_some_iff] at hid
    obtain ⟨t', ht', heq⟩ := hid
    rw [ht']
    exact (Prod.mk.inj heq).2

theorem thread (ha : Agrees k k') {h : ℕ} {t' : Thread} (ht : k'.thread h = some t') :
    ∃ t, k.thread h = some t ∧ t.spaceId = t'.spaceId ∧ t.space = t'.space := by
  have hid := ha.ident h
  rw [ht, Option.map_some, eq_comm, Option.map_eq_some_iff] at hid
  obtain ⟨t, ht, heq⟩ := hid
  exact ⟨t, ht, (Prod.mk.inj heq).1, (Prod.mk.inj heq).2⟩

theorem thread_none (ha : Agrees k k') {h : ℕ} (ht : k.thread h = none) : k'.thread h = none := by
  have hid := ha.ident h
  rw [ht, Option.map_none, Option.map_eq_none_iff] at hid
  exact hid

theorem maps (ha : Agrees k k') (h v f : ℕ) : k'.Maps h v f ↔ k.Maps h v f := by
  unfold Maps
  rw [ha.space h]
  refine exists_congr fun s => and_congr_right fun hs => and_congr_right fun hv => ?_
  rw [(Prod.mk.inj (Prod.mk.inj (ha.entry h s v hs hv)).2).1]

theorem trans {k'' : Vm} (ha : Agrees k k') (hb : Agrees k' k'') : Agrees k k'' where
  table := hb.table.trans ha.table
  next := hb.next.trans ha.next
  ident h := (hb.ident h).trans (ha.ident h)
  current := hb.current.trans ha.current
  core := hb.core.trans ha.core
  bits := hb.bits.trans ha.bits
  entry h s v hs hv := (hb.entry h s v ((ha.space h).trans hs) hv).trans (ha.entry h s v hs hv)
  slot i hi hv :=
    have hv' := hb.slot i hi hv
    ⟨(ha.slot i hi hv'.1).1, hv'.2.trans (ha.slot i hi hv'.1).2⟩

end Agrees

/-- **Steps that leave frames and owners alone keep the invariant.** -/
theorem FrameInv.of_agree {k k' : Vm} {hole : Option ℕ} (hi : FrameInv k hole)
    (ha : Agrees k k') : FrameInv k' hole where
  freed := by rw [ha.table]; exact hi.freed
  current := by rw [ha.table]; exact hi.current
  newer h hh := ha.thread_none (hi.newer h (ha.next ▸ hh))
  registered h t ht hne := by
    obtain ⟨t0, ht0, hid, -⟩ := ha.thread ht
    rw [Registered, ha.table, ← hid]
    exact hi.registered h t0 ht0 (hid ▸ hne)
  identified h t s ht hs := by
    obtain ⟨t0, ht0, hid, hsp⟩ := ha.thread ht
    rw [← hid]
    exact hi.identified h t0 s ht0 (hsp.trans hs)
  entry h s v hs hv := by
    rw [ha.space] at hs
    obtain ⟨h1, h2, h3⟩ := hi.entry h s v hs hv
    have hp := ha.entry h s v hs hv
    simp only [place, Prod.mk.injEq] at hp
    exact ⟨hp.1.trans h1, hp.2.2.trans h2, by rw [hp.2.1]; exact h3⟩
  marked f hf := by
    rw [ha.bits, hi.marked f hf]
    simp only [ha.maps]
  named h s v f hs hm hf := by
    rw [ha.core]
    exact hi.named h s v f ((ha.space h).symm.trans hs) ((ha.maps h v f).mp hm) hf
  unused f hf := ⟨(hi.unused f hf).1, fun h v hm => (hi.unused f hf).2 h v ((ha.maps h v f).mp hm)⟩
  slot i hil hv := by
    obtain ⟨hv0, hp⟩ := ha.slot i hil hv
    simp only [place, Prod.mk.injEq] at hp
    rw [hp.1, hp.2.1, hp.2.2, ha.maps, ha.current]
    exact hi.slot i hil hv0
  once i j hil hjl hv hv' heq := by
    obtain ⟨hv0, hp⟩ := ha.slot i hil hv
    obtain ⟨hv0', hp'⟩ := ha.slot j hjl hv'
    simp only [place, Prod.mk.injEq] at hp hp'
    exact hi.once i j hil hjl hv0 hv0' (by rw [← hp.1, ← hp'.1, heq])

section Parts
variable {k : Vm} {hole : Option ℕ}

@[simp] theorem setEntry_pageTable (h v : ℕ) (e : TranslationEntry) (h' v' : ℕ) :
    (k.setEntry h v e).pageTable h' v' = if h' = h ∧ v' = v then e else k.pageTable h' v' := by
  unfold setEntry
  by_cases hh : h' = h
  · subst hh
    by_cases hv : v' = v
    · subst hv
      simp
    · simp [hv]
  · simp [hh]

@[simp] theorem setEntry_tlb (h v : ℕ) (e : TranslationEntry) :
    (k.setEntry h v e).tlb = k.tlb := rfl
@[simp] theorem setEntry_currentThread (h v : ℕ) (e : TranslationEntry) :
    (k.setEntry h v e).currentThread = k.currentThread := rfl
@[simp] theorem setEntry_coreMap (h v : ℕ) (e : TranslationEntry) :
    (k.setEntry h v e).coreMap = k.coreMap := rfl
@[simp] theorem setEntry_space (h v : ℕ) (e : TranslationEntry) (h' : ℕ) :
    (k.setEntry h v e).space h' = k.space h' := rfl

/-- Changing the other bits of an entry. -/
theorem agrees_setEntry {h v : ℕ} {e : TranslationEntry}
    (he : place e = place (k.pageTable h v)) : Agrees k (k.setEntry h v e) where
  table := rfl
  next := rfl
  ident _ := rfl
  current := rfl
  core := rfl
  bits := rfl
  entry h' s v' _ _ := by
    rw [setEntry_pageTable]
    split
    · rename_i heq
      rw [heq.1, heq.2, he]
    · rfl
  slot _ _ hv := ⟨hv, rfl⟩

/-- Saving a slot of the TLB into the entry of its own page. -/
theorem FrameInv.agrees_saveSlot (hi : FrameInv k hole) {i v : ℕ} (hil : i < tlbSize)
    (hv : (k.tlb i).valid = true) (hvp : v = (k.tlb i).virtualPage) :
    Agrees k (k.saveSlot k.currentThread v i) := by
  subst hvp
  obtain ⟨⟨s, hs, hlt, hpp⟩, -, hro⟩ := hi.slot i hil hv
  obtain ⟨hvp, hro', -⟩ := hi.entry _ s _ hs hlt
  have hslots : Agrees k
      { k with tlb := Function.update k.tlb i { k.tlb i with valid := false } } := by
    refine ⟨rfl, rfl, fun _ => rfl, rfl, rfl, rfl, fun _ _ _ _ _ => rfl, fun j _ hj => ?_⟩
    by_cases hij : j = i
    · subst hij
      simp at hj
    · simp only [Function.update_of_ne hij] at hj ⊢
      exact ⟨hj, trivial⟩
  refine hslots.trans (agrees_setEntry ?_)
  simp only [place, Prod.mk.injEq]
  exact ⟨hvp.symm, hpp.symm, hro.trans hro'.symm⟩

/-- The slot saved is not valid any more, and no other slot is touched. -/
theorem saveSlot_tlb (h v i j : ℕ) : (k.saveSlot h v i).tlb j =
    if j = i then { k.tlb i with valid := false } else k.tlb j := by
  by_cases hij : j = i
  · subst hij
    simp [saveSlot]
  · simp [saveSlot, hij]

/-- **The rule for the loop over the TLB.** -/
theorem saveSlots_induction {I : Vm → Prop} {sel : TranslationEntry → Bool} {h : ℕ}
    {page : Vm → ℕ → ℕ} (h0 : I k)
    (hstep : ∀ k0 i, I k0 → i < tlbSize → sel (k0.tlb i) = true →
      I (k0.saveSlot h (page k0 i) i)) : I (k.saveSlots sel h page) := by
  have hfold : ∀ l : List ℕ, (∀ i ∈ l, i < tlbSize) → ∀ k0, I k0 →
      I (l.foldl (fun k i => if sel (k.tlb i) then k.saveSlot h (page k i) i else k) k0) := by
    intro l
    induction l with
    | nil => exact fun _ k0 hk0 => hk0
    | cons i l ih =>
      intro hl k0 hk0
      rw [List.foldl_cons]
      refine ih (fun j hj => hl j (List.mem_cons_of_mem _ hj)) _ ?_
      split
      · exact hstep k0 i hk0 (hl i List.mem_cons_self) (by assumption)
      · exact hk0
  exact hfold _ (fun i hi => List.mem_range.mp hi) k h0

/-- What the loop leaves in the TLB. -/
theorem saveSlots_tlb {sel : TranslationEntry → Bool} {h : ℕ} {page : Vm → ℕ → ℕ} (j : ℕ) :
    (k.saveSlots sel h page).tlb j =
      if j < tlbSize ∧ sel (k.tlb j) = true then { k.tlb j with valid := false } else k.tlb j := by
  have hfold : ∀ l : List ℕ, l.Nodup → ∀ k0 : Vm,
      (l.foldl (fun k i => if sel (k.tlb i) then k.saveSlot h (page k i) i else k) k0).tlb j =
        if j ∈ l ∧ sel (k0.tlb j) = true then { k0.tlb j with valid := false } else k0.tlb j := by
    intro l
    induction l with
    | nil => simp
    | cons i l ih =>
      intro hn k0
      obtain ⟨hil, hn⟩ := List.nodup_cons.mp hn
      rw [List.foldl_cons, ih hn]
      by_cases hji : j = i
      · subst hji
        by_cases hs : sel (k0.tlb j) = true
        · simp [hs, hil, saveSlot_tlb]
        · simp [hs, hil]
      · by_cases hs : sel (k0.tlb i) = true
        · simp [hs, hji, saveSlot_tlb]
        · simp [hs, hji]
  rw [saveSlots, hfold _ List.nodup_range]
  simp

/-- `SaveState` saves every slot into the entry of its own page. -/
theorem FrameInv.saveState_page (hi : FrameInv k hole) {i : ℕ} (hil : i < tlbSize)
    (hv : (k.tlb i).valid = true) :
    (k.coreMap (k.tlb i).physicalPage).virtualPage = (k.tlb i).virtualPage := by
  obtain ⟨hm, hlt, -⟩ := hi.slot i hil hv
  obtain ⟨s, hs, -⟩ := id hm
  rw [hi.named _ s _ _ hs hm hlt]

theorem FrameInv.agrees_saveState (hi : FrameInv k hole) : Agrees k k.saveState := by
  refine saveSlots_induction .refl fun k0 i ha hil hv => ?_
  have hi0 := hi.of_agree ha
  rw [← ha.current]
  exact ha.trans (hi0.agrees_saveSlot hil hv (hi0.saveState_page hil hv))

theorem saveState_invalid {j : ℕ} (hj : j < tlbSize) : (k.saveState.tlb j).valid = false := by
  rw [saveState, saveSlots_tlb]
  split
  · rfl
  · rename_i hn
    simpa [hj] using hn

theorem agrees_restoreState : Agrees k k.restoreState := by
  refine ⟨rfl, rfl, fun _ => rfl, rfl, rfl, rfl, fun _ _ _ _ _ => rfl, fun i hi hv => ?_⟩
  simp only [restoreState, if_pos hi] at hv
  cases hv

/-- A context switch: with no valid slot in the TLB, any thread can run. -/
theorem FrameInv.switch {k' : Vm} {next : ℕ} (hi : FrameInv k none)
    (h : k.switch next = some k') : FrameInv k' none := by
  simp only [Vm.switch, Option.bind_eq_bind, Option.bind_eq_some_iff, Option.pure_def,
    Option.some.injEq] at h
  obtain ⟨t, -, rfl⟩ := h
  have hempty : ∃ k1, Agrees k k1 ∧ (∀ j, j < tlbSize → (k1.tlb j).valid = false) ∧
      k1 = if (k.space k.currentThread).isSome then k.saveState else k := by
    refine ⟨_, ?_, fun j hj => ?_, rfl⟩
    · split
      · exact hi.agrees_saveState
      · exact .refl
    · split
      · exact saveState_invalid hj
      · rename_i hnone
        by_contra hv
        obtain ⟨⟨s, hs, -⟩, -⟩ := hi.slot j hj (by simpa using hv)
        simp [hs] at hnone
  obtain ⟨k1, ha, hinv, hk1⟩ := hempty
  rw [← hk1]
  have hi1 := hi.of_agree ha
  have hi2 : FrameInv { k1 with currentThread := next } none :=
    ⟨hi1.freed, hi1.current, hi1.newer, hi1.registered, hi1.identified, hi1.entry, hi1.marked,
      hi1.named, hi1.unused,
      fun j hj hv => absurd hv (by simp [hinv j hj]),
      fun i j hil _ hv _ _ => absurd hv (by simp [hinv i hil])⟩
  split
  · exact hi2.of_agree agrees_restoreState
  · exact hi2

end Parts

/-! ## Pages move in and out of frames -/

section Moves
variable {k k' : Vm} {h v f i : ℕ} {s : AddressSpace} {e : TranslationEntry}

theorem Maps.lt_or {hole : Option ℕ} (hi : FrameInv k hole) (hm : k.Maps h v f) :
    f = intMax ∨ f < numPhysPages := by
  obtain ⟨s, hs, hv, rfl⟩ := hm
  exact (hi.entry h s v hs hv).2.2

/-- Where pages are after one entry is changed. -/
theorem maps_setEntry (hs : k.space h = some s) (hv : v < s.numPages) {h' v' g : ℕ} :
    (k.setEntry h v e).Maps h' v' g ↔
      (h' = h ∧ v' = v ∧ e.physicalPage = g) ∨ (¬ (h' = h ∧ v' = v) ∧ k.Maps h' v' g) := by
  unfold Maps
  simp only [setEntry_space, setEntry_pageTable]
  by_cases heq : h' = h ∧ v' = v
  · obtain ⟨rfl, rfl⟩ := heq
    simp only [and_self, if_true, true_and, not_true_eq_false, false_and, or_false]
    exact ⟨fun ⟨_, _, _, hg⟩ => hg, fun hg => ⟨s, hs, hv, hg⟩⟩
  · rw [if_neg heq]
    constructor
    · exact fun hm => Or.inr ⟨heq, hm⟩
    · rintro (⟨h1, h2, -⟩ | ⟨-, hm⟩)
      · exact absurd ⟨h1, h2⟩ heq
      · exact hm

/-- The entries of the page tables after one is changed. -/
theorem FrameInv.entry_setEntry {hole : Option ℕ} (hi : FrameInv k hole) (he : EntryOk v e)
    {h' v' : ℕ} {s' : AddressSpace} (hs' : k.space h' = some s') (hv' : v' < s'.numPages) :
    EntryOk v' ((k.setEntry h v e).pageTable h' v') := by
  rw [setEntry_pageTable]
  split
  · rename_i heq
    rw [heq.2]
    exact he
  · exact hi.entry h' s' v' hs' hv'

theorem find_eq_some {r : ℕ × Vm} (hfind : k.find = some r) :
    r.1 < numPhysPages ∧ k.addressesBitMap r.1 = false ∧
      r.2 = { k with addressesBitMap := Function.update k.addressesBitMap r.1 true } := by
  obtain ⟨f, hf, rfl⟩ := Option.map_eq_some_iff.mp hfind
  obtain ⟨hlt, hclear, -⟩ := find_clear_eq_some_iff.mp hf
  exact ⟨hlt, hclear, rfl⟩

theorem find_eq_none (hfind : k.find = none) (hf : f < numPhysPages) :
    k.addressesBitMap f = true :=
  find_clear_eq_none_iff.mp (Option.map_eq_none_iff.mp hfind) f hf

/-- A frame is found and marked. -/
theorem FrameInv.find (hi : FrameInv k none) {r : ℕ × Vm} (hfind : k.find = some r) :
    FrameInv r.2 (some r.1) := by
  obtain ⟨hlt, hclear, hk⟩ := find_eq_some hfind
  have hfree : ∀ h v, ¬ k.Maps h v r.1 := fun h v hm => by
    have := (hi.marked r.1 hlt).mpr (Or.inl ⟨h, v, hm⟩)
    rw [hclear] at this
    cases this
  rw [hk]
  refine ⟨hi.freed, hi.current, hi.newer, hi.registered, hi.identified, hi.entry, fun g hg => ?_,
    hi.named, fun g hg => ?_, hi.slot, hi.once⟩
  · by_cases hgr : g = r.1
    · subst hgr
      simp
    · simp only [Function.update_of_ne hgr]
      rw [hi.marked g hg]
      simp only [reduceCtorEq, or_false, Option.some.injEq, Ne.symm hgr]
      exact Iff.rfl
  · rw [← Option.some.inj hg]
    exact ⟨hlt, hfree⟩

/-- **A page leaves its frame.** -/
theorem FrameInv.unmap (hi : FrameInv k none) (hm : k.Maps h v f) (hf : f < numPhysPages)
    (hslots : ∀ j, j < tlbSize → (k.tlb j).valid = true → (k.tlb j).physicalPage ≠ f)
    (he : EntryOk v e) (hpp : e.physicalPage = intMax) :
    FrameInv (k.setEntry h v e) (some f) := by
  obtain ⟨s, hs, hv, hvf⟩ := id hm
  have hmaps : ∀ h' v' g, g < numPhysPages →
      ((k.setEntry h v e).Maps h' v' g ↔ ¬ (h' = h ∧ v' = v) ∧ k.Maps h' v' g) := by
    intro h' v' g hg
    rw [maps_setEntry hs hv]
    refine ⟨fun hc => hc.resolve_left ?_, Or.inr⟩
    rintro ⟨-, -, hgv⟩
    rw [← hgv, hpp] at hg
    exact absurd hg (by decide)
  refine ⟨hi.freed, hi.current, hi.newer, hi.registered, hi.identified,
    fun h' s' v' hs' hv' => hi.entry_setEntry he hs' hv', fun g hg => ?_,
    fun h' s' v' g hs' hm' hg => hi.named h' s' v' g hs' ((hmaps h' v' g hg).mp hm').2 hg,
    fun g hg => ?_, fun j hj hjv => ?_, hi.once⟩
  · by_cases hgf : g = f
    · subst hgf
      exact ⟨fun _ => Or.inr rfl, fun _ => (hi.marked g hg).mpr (Or.inl ⟨h, v, hm⟩)⟩
    · rw [show (k.setEntry h v e).addressesBitMap g = k.addressesBitMap g from rfl,
        hi.marked g hg]
      simp only [reduceCtorEq, or_false, Option.some.injEq, Ne.symm hgf, hmaps _ _ g hg]
      refine exists_congr fun h' => exists_congr fun v' => ⟨fun hm' => ⟨?_, hm'⟩, And.right⟩
      rintro ⟨rfl, rfl⟩
      obtain ⟨_, _, _, hg'⟩ := hm'
      exact hgf (hg'.symm.trans hvf)
  · obtain rfl := Option.some.inj hg
    refine ⟨hf, fun h' v' hm' => ?_⟩
    obtain ⟨hne, hm'⟩ := (hmaps h' v' f hf).mp hm'
    exact hne (hi.maps_unique hm' hm hf)
  · obtain ⟨hmj, hlt, hro⟩ := hi.slot j hj hjv
    refine ⟨(hmaps _ _ _ hlt).mpr ⟨?_, hmj⟩, hlt, hro⟩
    rintro ⟨h1, h2⟩
    obtain ⟨_, _, _, hjf⟩ := hmj
    apply hslots j hj hjv
    rw [← hjf, ← hvf]
    simp only [setEntry_tlb, setEntry_currentThread] at h1 h2
    rw [h1, h2]

/-- **A page gets the frame set aside for it.** -/
theorem FrameInv.fill (hi : FrameInv k (some f)) (hs : k.space h = some s) (hv : v < s.numPages)
    (hout : (k.pageTable h v).physicalPage = intMax) (he : EntryOk v e) (hpp : e.physicalPage = f)
    (mem : ℕ → UInt8) :
    FrameInv { k.setEntry h v e with
      mainMemory := mem
      coreMap := Function.update k.coreMap f ⟨s.addressSpaceId, v⟩ } none := by
  obtain ⟨hf, hfree⟩ := hi.unused f rfl
  have hmaps : ∀ h' v' g, ({ k.setEntry h v e with
      mainMemory := mem
      coreMap := Function.update k.coreMap f ⟨s.addressSpaceId, v⟩ } : Vm).Maps h' v' g ↔
      (h' = h ∧ v' = v ∧ g = f) ∨ (¬ (h' = h ∧ v' = v) ∧ k.Maps h' v' g) := by
    intro h' v' g
    rw [← hpp, eq_comm (a := g)]
    exact maps_setEntry hs hv
  have hnot : ∀ g, g < numPhysPages → ¬ k.Maps h v g := by
    rintro g hg ⟨_, _, _, hgv⟩
    rw [hout] at hgv
    rw [← hgv] at hg
    exact absurd hg (by decide)
  refine ⟨hi.freed, hi.current, hi.newer, hi.registered, hi.identified,
    fun h' s' v' hs' hv' => hi.entry_setEntry he hs' hv', fun g hg => ?_,
    fun h' s' v' g hs' hm' hg => ?_, fun g hg => absurd hg (by simp), fun j hj hjv => ?_, hi.once⟩
  · rw [show ({ k.setEntry h v e with
      mainMemory := mem
      coreMap := Function.update k.coreMap f ⟨s.addressSpaceId, v⟩ } : Vm).addressesBitMap g =
        k.addressesBitMap g from rfl, hi.marked g hg]
    simp only [reduceCtorEq, or_false, Option.some.injEq, hmaps]
    constructor
    · rintro (⟨h', v', hm'⟩ | rfl)
      · exact ⟨h', v', Or.inr ⟨fun heq => hnot g hg (heq.1 ▸ heq.2 ▸ hm'), hm'⟩⟩
      · exact ⟨h, v, Or.inl ⟨rfl, rfl, rfl⟩⟩
    · rintro ⟨h', v', ⟨-, -, rfl⟩ | ⟨-, hm'⟩⟩
      · exact Or.inr rfl
      · exact Or.inl ⟨h', v', hm'⟩
  · rcases (hmaps h' v' g).mp hm' with ⟨rfl, rfl, rfl⟩ | ⟨-, hold⟩
    · rw [Option.some.inj (hs'.symm.trans hs)]
      exact Function.update_self _ _ _
    · have hgf : g ≠ f := by
        rintro rfl
        exact hfree h' v' hold
      rw [← hi.named h' s' v' g hs' hold hg]
      exact Function.update_of_ne hgf _ _
  · obtain ⟨hmj, hlt, hro⟩ := hi.slot j hj hjv
    refine ⟨(hmaps _ _ _).mpr (Or.inr ⟨?_, hmj⟩), hlt, hro⟩
    rintro ⟨h1, h2⟩
    simp only [setEntry_tlb, setEntry_currentThread] at h1 h2
    rw [h1, h2] at hmj
    exact hnot _ hlt hmj

/-- **A page gets a slot of the TLB.** -/
theorem FrameInv.install (hi : FrameInv k none) (hil : i < tlbSize)
    (hfree : (k.tlb i).valid = false) (hm : k.Maps k.currentThread v f) (hf : f < numPhysPages)
    (hmiss : ∀ j, j < tlbSize → (k.tlb j).valid = true → (k.tlb j).virtualPage ≠ v)
    (he : place e = (v, f, false)) : FrameInv { k with tlb := Function.update k.tlb i e } none := by
  simp only [place, Prod.mk.injEq] at he
  refine ⟨hi.freed, hi.current, hi.newer, hi.registered, hi.identified, hi.entry, hi.marked,
    hi.named, hi.unused, fun j hj hjv => ?_, fun j l hj hl hjv hlv heq => ?_⟩
  · by_cases hji : j = i
    · subst hji
      simp only [Function.update_self, he]
      exact ⟨hm, hf, trivial⟩
    · simp only [Function.update_of_ne hji] at hjv ⊢
      exact hi.slot j hj hjv
  · by_cases hji : j = i
    · subst hji
      by_cases hlj : l = j
      · exact hlj.symm
      · simp only [Function.update_self, Function.update_of_ne hlj, he] at hlv heq
        exact absurd heq.symm (hmiss l hl hlv)
    · by_cases hli : l = i
      · subst hli
        simp only [Function.update_self, Function.update_of_ne hji, he] at hjv heq
        exact absurd heq (hmiss j hj hjv)
      · simp only [Function.update_of_ne hji, Function.update_of_ne hli] at hjv hlv heq
        exact hi.once j l hj hl hjv hlv heq

/-- The loop of `EvacuatePage` saves the slot of the page that leaves, if it has one. -/
theorem FrameInv.agrees_saveVictim (hi : FrameInv k none) (hm : k.Maps h v f)
    (hf : f < numPhysPages) :
    Agrees k (k.saveSlots (fun e => e.physicalPage == f && e.valid) h (fun _ _ => v)) := by
  refine saveSlots_induction .refl fun k0 i ha hil hsel => ?_
  have hi0 := hi.of_agree ha
  simp only [Bool.and_eq_true, beq_iff_eq] at hsel
  obtain ⟨hslot, -, -⟩ := hi0.slot i hil hsel.2
  rw [hsel.1] at hslot
  obtain ⟨rfl, hv⟩ := hi0.maps_unique ((ha.maps h v f).mpr hm) hslot hf
  exact ha.trans (hi0.agrees_saveSlot hil hsel.2 hv)

theorem saveVictim_slots {j : ℕ} (hj : j < tlbSize)
    (hv : ((k.saveSlots (fun e => e.physicalPage == f && e.valid) h (fun _ _ => v)).tlb j).valid =
      true) :
    ((k.saveSlots (fun e => e.physicalPage == f && e.valid) h (fun _ _ => v)).tlb j).physicalPage ≠
      f := by
  rw [saveSlots_tlb] at hv ⊢
  split at hv
  · cases hv
  · rename_i hn
    rw [if_neg hn]
    rintro rfl
    exact hn ⟨hj, by simp [hv]⟩

theorem FrameInv.takeOut (hi : FrameInv k none) (hm : k.Maps h v f) (hf : f < numPhysPages) :
    FrameInv (k.takeOut h v f) (some f) := by
  have ha := hi.agrees_saveVictim hm hf
  have hslots : ∀ j, j < tlbSize → _ → _ := fun j hj hjv =>
    saveVictim_slots (k := k) (f := f) (h := h) (v := v) (j := j) hj hjv
  unfold Vm.takeOut
  generalize k.saveSlots (fun e => e.physicalPage == f && e.valid) h (fun _ _ => v) = k1
    at ha hslots ⊢
  have hi1 := hi.of_agree ha
  have hm1 := (ha.maps h v f).mpr hm
  obtain ⟨s, hs, hv, -⟩ := id hm1
  have hentry := hi1.entry h s v hs hv
  have hi2 := hi1.unmap hm1 hf hslots
    (e := { k1.pageTable h v with physicalPage := intMax, valid := false })
    ⟨hentry.1, hentry.2.1, Or.inl rfl⟩ rfl
  by_cases hd : (k1.pageTable h v).dirty = true
  · simp only [if_pos hd]
    exact hi2.of_agree ⟨rfl, rfl, fun _ => rfl, rfl, rfl, rfl, fun _ _ _ _ _ => rfl,
      fun _ _ hv => ⟨hv, rfl⟩⟩
  · simp only [if_neg hd]
    exact hi2

/-- **`EvacuatePage` finds the owner of the victim.** -/
theorem FrameInv.evacuatePage_eq (hi : FrameInv k none) (hf : f < numPhysPages)
    (hfull : k.addressesBitMap f = true) :
    ∃ h v, k.Maps h v f ∧ k.evacuatePage f = some (k.takeOut h v f) := by
  obtain ⟨h, v, hm⟩ := ((hi.marked f hf).mp hfull).resolve_right (by simp)
  obtain ⟨s, hs, -⟩ := id hm
  obtain ⟨hpos, hocc, hdata⟩ := hi.registered_space hs
  refine ⟨h, v, hm, ?_⟩
  unfold evacuatePage
  rw [hi.named h s v f hs hm hf]
  simp [Table.hasKey, Table.get, hpos, hocc, hdata, hs]

/-- **The handler brings a page in**, into a frame found or taken from its owner. -/
theorem FrameInv.bringIn_eq (hi : FrameInv k none) (addr : ℕ) {victim : ℕ}
    (hvictim : victim < numPhysPages) (s : AddressSpace) :
    ∃ f k', (k.find = some (f, k') ∨
        f = victim ∧ ∃ h v, k.Maps h v victim ∧ k' = k.takeOut h v victim) ∧
      k.bringIn s addr victim = some ((k'.setEntry k.currentThread (addr / pageSize)
        { k'.pageTable k.currentThread (addr / pageSize) with physicalPage := f }).loadPage
          k.currentThread s addr f) := by
  cases hfind : k.find with
  | some r =>
    refine ⟨r.1, r.2, Or.inl rfl, ?_⟩
    simp [bringIn, hfind]
  | none =>
    obtain ⟨h, v, hm, heq⟩ := hi.evacuatePage_eq hvictim (find_eq_none hfind hvictim)
    refine ⟨victim, k.takeOut h v victim, Or.inr ⟨rfl, h, v, hm, rfl⟩, ?_⟩
    simp [bringIn, hfind, heq]

/-- The loop over the TLB changes page tables and the TLB. -/
theorem saveSlots_eq {sel : TranslationEntry → Bool} {page : Vm → ℕ → ℕ} :
    ∃ pt tlb, k.saveSlots sel h page = { k with pageTable := pt, tlb := tlb } := by
  refine saveSlots_induction (I := fun k0 => ∃ pt tlb, k0 = { k with pageTable := pt, tlb := tlb })
    ⟨_, _, rfl⟩ fun k0 i hk0 _ _ => ?_
  obtain ⟨pt, tlb, rfl⟩ := hk0
  exact ⟨_, _, rfl⟩

/-- What `takeOut` leaves alone. -/
theorem takeOut_frame (h v f : ℕ) : ∃ pt tlb swap,
    k.takeOut h v f = { k with pageTable := pt, tlb := tlb, openSwapFile := swap } ∧
      (∀ h' v', ¬ (h' = h ∧ v' = v) → pt h' v' = k.pageTable h' v') ∧
      (∀ h', h' ≠ h → swap h' = k.openSwapFile h') ∧
      ∀ j, tlb j = if j < tlbSize ∧ (k.tlb j).physicalPage = f ∧ (k.tlb j).valid = true then
        { k.tlb j with valid := false } else k.tlb j := by
  have htlb : ∀ j, (k.saveSlots (fun e => e.physicalPage == f && e.valid) h (fun _ _ => v)).tlb j =
      _ := saveSlots_tlb
  have hpt : ∀ h' v', ¬ (h' = h ∧ v' = v) →
      (k.saveSlots (fun e => e.physicalPage == f && e.valid) h (fun _ _ => v)).pageTable h' v' =
        k.pageTable h' v' := by
    intro h' v' hne
    refine saveSlots_induction (I := fun k0 => k0.pageTable h' v' = k.pageTable h' v') rfl
      fun k0 i hk0 _ _ => ?_
    rw [saveSlot, setEntry_pageTable, if_neg hne, ← hk0]
  obtain ⟨pt, tlb, heq⟩ : ∃ pt tlb, k.saveSlots (fun e => e.physicalPage == f && e.valid) h
      (fun _ _ => v) = { k with pageTable := pt, tlb := tlb } := saveSlots_eq
  unfold Vm.takeOut
  rw [heq] at htlb hpt ⊢
  simp only [Bool.and_eq_true, beq_iff_eq] at htlb
  simp only
  split
  · refine ⟨_, _, _, rfl, fun h' v' hne => ?_, fun h' hne => Function.update_of_ne hne _ _, htlb⟩
    rw [← hpt h' v' hne]
    have := setEntry_pageTable (k := { k with pageTable := pt, tlb := tlb }) h v
      { pt h v with physicalPage := intMax, valid := false } h' v'
    rw [if_neg hne] at this
    exact this
  · refine ⟨_, _, _, rfl, fun h' v' hne => ?_, fun h' _ => rfl, htlb⟩
    rw [← hpt h' v' hne]
    have := setEntry_pageTable (k := { k with pageTable := pt, tlb := tlb }) h v
      { pt h v with physicalPage := intMax, valid := false } h' v'
    rw [if_neg hne] at this
    exact this

/-- The page in turn in the TLB. -/
theorem FrameInv.fillSlot (hi : FrameInv k none) {t : Thread}
    (ht : k.thread k.currentThread = some t)
    (hm : k.Maps k.currentThread v f) (hf : f < numPhysPages)
    (hmiss : ∀ j, j < tlbSize → (k.tlb j).valid = true → (k.tlb j).virtualPage ≠ v) :
    FrameInv (k.fillSlot t v) none := by
  have hslot : t.numFaults % tlbSize < tlbSize := Nat.mod_lt _ (by decide)
  unfold Vm.fillSlot
  generalize t.numFaults % tlbSize = slot at hslot ⊢
  have hsaved : ∃ k1, Agrees k k1 ∧ (k1.tlb slot).valid = false ∧ k1.thread = k.thread ∧
      k1 = if (k.tlb slot).valid then
        k.saveSlot k.currentThread (k.tlb slot).virtualPage slot else k := by
    refine ⟨_, ?_, ?_, ?_, rfl⟩
    · split
      · exact hi.agrees_saveSlot hslot (by assumption) rfl
      · exact .refl
    · split
      · rw [saveSlot_tlb, if_pos rfl]
      · rename_i hn
        simpa using hn
    · split <;> rfl
  obtain ⟨k1, ha, hfree, hthread, hk1⟩ := hsaved
  simp only
  rw [← hk1, ← ha.current]
  have hi1 := hi.of_agree ha
  have hm1 : k1.Maps k1.currentThread v f := by
    rw [ha.current]
    exact (ha.maps _ v f).mpr hm
  obtain ⟨s, hs, hv, hpp⟩ := id hm1
  obtain ⟨hvp, hro, -⟩ := hi1.entry _ s v hs hv
  have hmiss1 : ∀ j, j < tlbSize → (k1.tlb j).valid = true → (k1.tlb j).virtualPage ≠ v := by
    intro j hj hjv
    obtain ⟨hjv0, hp⟩ := ha.slot j hj hjv
    rw [(Prod.mk.inj hp).1]
    exact hmiss j hj hjv0
  have hi2 := hi1.install (e := k1.pageTable k1.currentThread v) hslot hfree hm1 hf hmiss1
    (by simp only [place, hvp, hpp, hro])
  refine hi2.of_agree ⟨rfl, rfl, fun h => ?_, rfl, rfl, rfl, fun _ _ _ _ _ => rfl,
    fun _ _ hv => ⟨hv, rfl⟩⟩
  by_cases hh : h = k1.currentThread
  · subst hh
    simp only [Function.update_self, Option.map_some, hthread, ha.current, ht]
  · simp only [Function.update_of_ne hh]

/-- The state with a frame set aside for a page: found, or taken from its owner. -/
def FrameReady (k : Vm) (victim f : ℕ) (k' : Vm) : Prop :=
  k.find = some (f, k') ∨ f = victim ∧ victim < numPhysPages ∧
    ∃ h v, k.Maps h v victim ∧ k' = k.takeOut h v victim

theorem FrameInv.frameReady (hi : FrameInv k none) {victim : ℕ} (hr : FrameReady k victim f k') :
    FrameInv k' (some f) := by
  rcases hr with hfind | ⟨rfl, hlt, h, v, hm, rfl⟩
  · exact hi.find hfind
  · exact hi.takeOut hm hlt

/-- What the rest of the handler finds unchanged: its own page is not one that leaves. -/
theorem FrameReady.frame {victim : ℕ} (hr : FrameReady k victim f k')
    (hout : (k.pageTable h v).physicalPage = intMax) :
    k'.thread = k.thread ∧ k'.currentThread = k.currentThread ∧ k'.mainMemory = k.mainMemory ∧
      k'.pageTable h v = k.pageTable h v ∧
      ∀ j, (k'.tlb j).valid = true → (k.tlb j).valid = true ∧ k'.tlb j = k.tlb j := by
  rcases hr with hfind | ⟨rfl, hlt, h', v', hm, rfl⟩
  · obtain ⟨-, -, hk⟩ := find_eq_some hfind
    simp only at hk
    rw [hk]
    exact ⟨rfl, rfl, rfl, rfl, fun j hj => ⟨hj, rfl⟩⟩
  · obtain ⟨pt, tlb, swap, heq, hpt, -, htlb⟩ := takeOut_frame (k := k) h' v' f
    rw [heq]
    refine ⟨rfl, rfl, rfl, hpt h v ?_, fun j hj => ?_⟩
    · rintro ⟨rfl, rfl⟩
      obtain ⟨_, _, _, hf⟩ := hm
      rw [hout] at hf
      rw [← hf] at hlt
      exact absurd hlt (by decide)
    · simp only [htlb] at hj ⊢
      split at hj
      · cases hj
      · rename_i hn
        rw [if_neg hn]
        exact ⟨hj, rfl⟩

/-- The page brought in: its entry, and the frame filled. -/
def brought (k : Vm) (s : AddressSpace) (addr f : ℕ) : Vm :=
  (k.setEntry k.currentThread (addr / pageSize)
    { k.pageTable k.currentThread (addr / pageSize) with physicalPage := f }).loadPage
      k.currentThread s addr f

/-- **What the handler does**: the entry is marked valid, the page brought in if it is not
in memory, and the TLB gets it. -/
theorem FrameInv.pageFaultHandler_eq (hi : FrameInv k none) (hs : k.space k.currentThread = some s)
    (addr : ℕ) {victim : ℕ} (hvictim : victim < numPhysPages) :
    ∃ t k1 k2, k.thread k.currentThread = some t ∧
      k1 = k.setEntry k.currentThread (addr / pageSize)
        { k.pageTable k.currentThread (addr / pageSize) with valid := true } ∧
      ((k1.pageTable k.currentThread (addr / pageSize)).physicalPage ≠ intMax ∧ k2 = k1 ∨
        (k1.pageTable k.currentThread (addr / pageSize)).physicalPage = intMax ∧
          ∃ f k', FrameReady k1 victim f k' ∧ k2 = k'.brought s addr f) ∧
      k.pageFaultHandler addr victim = some (k2.fillSlot t (addr / pageSize)) := by
  obtain ⟨t, ht, hts⟩ := space_eq_some.mp hs
  have hi1 : FrameInv (k.setEntry k.currentThread (addr / pageSize)
      { k.pageTable k.currentThread (addr / pageSize) with valid := true }) none :=
    hi.of_agree (agrees_setEntry rfl)
  by_cases hout : (k.pageTable k.currentThread (addr / pageSize)).physicalPage = intMax
  · obtain ⟨f, k', hready, heq⟩ := hi1.bringIn_eq addr hvictim s
    have hready : FrameReady (k.setEntry k.currentThread (addr / pageSize)
        { k.pageTable k.currentThread (addr / pageSize) with valid := true }) victim f k' := by
      rcases hready with hfind | ⟨rfl, hm⟩
      · exact Or.inl hfind
      · exact Or.inr ⟨rfl, hvictim, hm⟩
    refine ⟨t, _, _, ht, rfl, Or.inr ⟨by simpa using hout, f, k', hready, rfl⟩, ?_⟩
    have hcur := (hready.frame (h := k.currentThread) (v := addr / pageSize)
      (by simpa using hout)).2.1
    unfold Vm.pageFaultHandler
    simp only [ht, hts, Option.bind_eq_bind, Option.bind_some]
    rw [if_pos (by simpa using hout), heq]
    simp only [brought, hcur, setEntry_currentThread]
    rfl
  · refine ⟨t, _, _, ht, rfl, Or.inl ⟨by simpa using hout, rfl⟩, ?_⟩
    unfold Vm.pageFaultHandler
    simp only [ht, hts, Option.bind_eq_bind, Option.bind_some]
    rw [if_neg (by simpa using hout)]
    rfl

/-- No valid slot of the TLB has page `v`. -/
def Misses (k : Vm) (v : ℕ) : Prop :=
  ∀ j, j < tlbSize → (k.tlb j).valid = true → (k.tlb j).virtualPage ≠ v

/-- The state of the handler when the page is in memory and about to get its slot. -/
structure Loaded (k : Vm) (t : Thread) (v : ℕ) (k2 : Vm) : Prop where
  inv : FrameInv k2 none
  current : k2.currentThread = k.currentThread
  threads : k2.thread = k.thread
  thread : k2.thread k2.currentThread = some t
  inFrame : ∃ f, f < numPhysPages ∧ k2.Maps k2.currentThread v f
  valid : (k2.pageTable k2.currentThread v).valid = true
  misses : k2.Misses v

/-- The page brought in keeps the invariant. -/
theorem FrameReady.brought (hi : FrameInv k none) {victim addr : ℕ} (hr : FrameReady k victim f k')
    (hs : k.space k.currentThread = some s) (hv : addr / pageSize < s.numPages)
    (hout : (k.pageTable k.currentThread (addr / pageSize)).physicalPage = intMax) :
    FrameInv (k'.brought s addr f) none ∧ (k'.brought s addr f).currentThread = k.currentThread ∧
      (k'.brought s addr f).thread = k.thread ∧ f < numPhysPages := by
  obtain ⟨hthread, hcur, -, hentry, -⟩ := hr.frame hout
  have hi' := hi.frameReady hr
  have hspace : k'.space k'.currentThread = some s := by
    rw [hcur, Vm.space, hthread]
    exact hs
  have hout' : (k'.pageTable k'.currentThread (addr / pageSize)).physicalPage = intMax := by
    rw [hcur, hentry]
    exact hout
  have hok := hi'.entry _ s _ hspace hv
  have hf := (hi'.unused f rfl).1
  exact ⟨hi'.fill hspace hv hout'
    (e := { k'.pageTable k'.currentThread (addr / pageSize) with physicalPage := f })
    ⟨hok.1, hok.2.1, Or.inr hf⟩ rfl _, hcur, hthread, hf⟩

/-- **What the handler does on a miss**, in two parts: the page is in memory or brought in,
and then it gets a slot. -/
theorem FrameInv.handler_cases (hi : FrameInv k none) (hs : k.space k.currentThread = some s)
    {addr victim : ℕ} (hv : addr / pageSize < s.numPages) (hvictim : victim < numPhysPages)
    (hmiss : k.Misses (addr / pageSize)) :
    ∃ t k1 k2, k1 = k.setEntry k.currentThread (addr / pageSize)
        { k.pageTable k.currentThread (addr / pageSize) with valid := true } ∧
      (k2 = k1 ∨ ∃ f k', FrameReady k1 victim f k' ∧ FrameInv k' (some f) ∧
        k'.space k'.currentThread = some s ∧
        (k'.pageTable k'.currentThread (addr / pageSize)).physicalPage = intMax ∧
        k'.Misses (addr / pageSize) ∧ k2 = k'.brought s addr f) ∧
      Loaded k t (addr / pageSize) k2 ∧
      k.pageFaultHandler addr victim = some (k2.fillSlot t (addr / pageSize)) := by
  obtain ⟨t, k1, k2, ht, hk1, hcases, heq⟩ := hi.pageFaultHandler_eq hs addr hvictim
  have ha : Agrees k k1 := hk1 ▸ agrees_setEntry rfl
  have hi1 := hi.of_agree ha
  have hs1 : k1.space k.currentThread = some s := (ha.space _).trans hs
  have hvalid1 : (k1.pageTable k1.currentThread (addr / pageSize)).valid = true := by
    rw [hk1, setEntry_pageTable, if_pos ⟨rfl, rfl⟩]
  have hmiss1 : k1.Misses (addr / pageSize) := by
    rw [hk1]
    exact hmiss
  have hthread1 : k1.thread = k.thread := by rw [hk1]; rfl
  rw [← ha.current, ← hthread1] at ht
  rw [← ha.current] at hs1 hcases
  refine ⟨t, k1, k2, hk1, ?_⟩
  rcases hcases with ⟨hin, rfl⟩ | ⟨hout, f, k', hready, rfl⟩
  · refine ⟨Or.inl rfl, ⟨hi1, ha.current, hthread1, ht, ⟨_, ?_, ⟨s, hs1, hv, rfl⟩⟩, hvalid1,
      hmiss1⟩, heq⟩
    exact (hi1.entry _ s _ hs1 hv).2.2.resolve_left hin
  · obtain ⟨hthread, hcur, -, hentry, htlb⟩ := hready.frame hout
    have hi' := hi1.frameReady hready
    have hspace : k'.space k'.currentThread = some s := by
      rw [hcur, Vm.space, hthread]
      exact hs1
    have hout' : (k'.pageTable k'.currentThread (addr / pageSize)).physicalPage = intMax := by
      rw [hcur, hentry]
      exact hout
    have hmiss' : k'.Misses (addr / pageSize) := by
      intro j hj hjv
      obtain ⟨hjv1, hje⟩ := htlb j hjv
      rw [hje]
      exact hmiss1 j hj hjv1
    have hnew : ((k'.brought s addr f).pageTable k'.currentThread (addr / pageSize)) =
        { k'.pageTable k'.currentThread (addr / pageSize) with physicalPage := f } :=
      (setEntry_pageTable _ _ _ _ _).trans (if_pos ⟨rfl, rfl⟩)
    obtain ⟨hbrought, -, -, hf⟩ := hready.brought hi1 hs1 hv hout
    refine ⟨Or.inr ⟨f, k', hready, hi', hspace, hout', hmiss', rfl⟩, ?_, heq⟩
    refine ⟨hbrought, hcur.trans ha.current, hthread.trans hthread1, ?_,
      ⟨f, hf, s, hspace, hv, ?_⟩, ?_, hmiss'⟩
    · show k'.thread k'.currentThread = some t
      rw [hthread, hcur]
      exact ht
    · show ((k'.brought s addr f).pageTable k'.currentThread (addr / pageSize)).physicalPage = f
      rw [hnew]
    · show ((k'.brought s addr f).pageTable k'.currentThread (addr / pageSize)).valid = true
      rw [hnew, hcur, hentry]
      exact hvalid1

/-- **A page fault keeps the invariant.** -/
theorem FrameInv.pageFaultHandler (hi : FrameInv k none) (hs : k.space k.currentThread = some s)
    {addr victim : ℕ} (hv : addr / pageSize < s.numPages) (hvictim : victim < numPhysPages)
    (hmiss : k.Misses (addr / pageSize)) :
    ∃ k', k.pageFaultHandler addr victim = some k' ∧ FrameInv k' none := by
  obtain ⟨t, k1, k2, -, -, hl, heq⟩ := hi.handler_cases hs hv hvictim hmiss
  obtain ⟨f, hf, hm⟩ := hl.inFrame
  exact ⟨_, heq, hl.inv.fillSlot hl.thread hm hf hl.misses⟩

end Moves

/-! ## Accesses -/

section Access
variable {k : Vm} {hole : Option ℕ} {addr : ℕ} {w : Width}

theorem retrievePageEntry_eq_some {vpn i : ℕ} (h : k.retrievePageEntry vpn = some i) :
    i < tlbSize ∧ (k.tlb i).valid = true ∧ (k.tlb i).virtualPage = vpn := by
  refine ⟨List.mem_range.mp (List.mem_of_find?_eq_some h), ?_⟩
  simpa using List.find?_some h

theorem retrievePageEntry_eq_none {vpn : ℕ} (h : k.retrievePageEntry vpn = none) {j : ℕ}
    (hj : j < tlbSize) (hv : (k.tlb j).valid = true) : (k.tlb j).virtualPage ≠ vpn := by
  have := List.find?_eq_none.mp h j (List.mem_range.mpr hj)
  simpa [hv] using this

/-- **An access in range is translated, or misses the TLB.** -/
theorem FrameInv.translate_eq (hi : FrameInv k hole) (hr : k.InRange addr w) (writing : Bool) :
    (k.translate addr w writing = .error .pageFault ∧ k.Misses (addr / pageSize)) ∨
      ∃ i, i < tlbSize ∧ (k.tlb i).valid = true ∧ (k.tlb i).virtualPage = addr / pageSize ∧
        k.translate addr w writing =
          .ok ((k.tlb i).physicalPage * pageSize + addr % pageSize, k.touch i writing) := by
  have halign : ¬ addr % w.bytes ≠ 0 := fun h => h hr.1
  unfold Vm.translate
  rw [if_neg halign]
  cases hret : k.retrievePageEntry (addr / pageSize) with
  | none => exact Or.inl ⟨rfl, fun j hj hv => retrievePageEntry_eq_none hret hj hv⟩
  | some i =>
    obtain ⟨hil, hv, hvp⟩ := retrievePageEntry_eq_some hret
    obtain ⟨-, hlt, hro⟩ := hi.slot i hil hv
    refine Or.inr ⟨i, hil, hv, hvp, ?_⟩
    simp only
    rw [if_neg (by simp [hro]), if_neg (Nat.not_le.mpr hlt)]

theorem agrees_touch {i : ℕ} {writing : Bool} : Agrees k (k.touch i writing) := by
  refine ⟨rfl, rfl, fun _ => rfl, rfl, rfl, rfl, fun _ _ _ _ _ => rfl, fun j _ hv => ?_⟩
  by_cases hij : j = i
  · subst hij
    simp only [touch, Function.update_self] at hv ⊢
    exact ⟨hv, rfl⟩
  · simp only [touch, Function.update_of_ne hij] at hv ⊢
    exact ⟨hv, trivial⟩

theorem InRange.page_lt {s : AddressSpace} (hr : k.InRange addr w)
    (hs : k.space k.currentThread = some s) : addr / pageSize < s.numPages := by
  obtain ⟨s', hs', hlt⟩ := hr.2
  rw [hs, Option.some.injEq] at hs'
  subst hs'
  exact Nat.div_lt_of_lt_mul (by rw [Nat.mul_comm]; exact hlt)

/-- What an access can do: it ends well through a slot of the TLB, or the handler runs. -/
theorem FrameInv.access_cases (hi : FrameInv k none) (hr : k.InRange addr w) (writing : Bool)
    {victim : ℕ} (hvictim : victim < numPhysPages) :
    (∃ i, i < tlbSize ∧ (k.tlb i).valid = true ∧ (k.tlb i).virtualPage = addr / pageSize ∧
        k.translate addr w writing =
          .ok ((k.tlb i).physicalPage * pageSize + addr % pageSize, k.touch i writing)) ∨
      (k.translate addr w writing = .error .pageFault ∧
        ∃ k', k.pageFaultHandler addr victim = some k' ∧ FrameInv k' none) := by
  rcases hi.translate_eq hr writing with ⟨hfault, hmiss⟩ | hok
  · right
    obtain ⟨s, hs, hlt⟩ := hr.2
    exact ⟨hfault, hi.pageFaultHandler hs (hr.page_lt hs) hvictim hmiss⟩
  · exact Or.inl hok

end Access

/-! ## Threads and address spaces come and go -/

section Lifetime
variable {k k' : Vm}

theorem FrameInv.newThread_space {hole : Option ℕ} (hi : FrameInv k hole) (h : ℕ) :
    k.newThread.space h = k.space h := by
  have hnew : k.thread k.nextThread = none := hi.newer _ le_rfl
  by_cases hh : h = k.nextThread
  · subst hh
    simp [Vm.newThread, Vm.space, hnew]
  · simp [Vm.newThread, Vm.space, hh]

theorem FrameInv.newThread (hi : FrameInv k none) : FrameInv k.newThread none := by
  have hadd : k.runningProcesses.add k.nextThread =
      if k.runningProcesses.current < Table.size then
        (k.runningProcesses.current, { k.runningProcesses with
          data := Function.update k.runningProcesses.data k.runningProcesses.current k.nextThread
          current := k.runningProcesses.current + 1 })
      else (-1, k.runningProcesses) := by
    simp [Table.add, hi.freed, LinkedList.sortedPop]
  have hspace := hi.newThread_space
  have hmaps : ∀ h v f, k.newThread.Maps h v f ↔ k.Maps h v f := by
    intro h v f
    simp only [Maps, hspace]
    exact Iff.rfl
  have htable : k.newThread.runningProcesses = (k.runningProcesses.add k.nextThread).2 := rfl
  have hreg : ∀ id h, k.Registered id h → k.newThread.Registered id h := by
    rintro id h ⟨hpos, hocc, hdata⟩
    have hlt : id < k.runningProcesses.current := by
      simp [Table.occupied] at hocc
      exact hocc.1
    rw [Registered, htable, hadd]
    split
    · refine ⟨hpos, ?_, ?_⟩
      · simp only [Table.occupied, hi.freed]
        simp [LinkedList.has]
        omega
      · exact (Function.update_of_ne (by omega) _ _).trans hdata
    · exact ⟨hpos, hocc, hdata⟩
  have hthread : ∀ h t, k.newThread.thread h = some t →
      k.thread h = some t ∨ (h = k.nextThread ∧ t.space = none ∧
        t.spaceId = (k.runningProcesses.add k.nextThread).1) := by
    intro h t ht
    by_cases hh : h = k.nextThread
    · subst hh
      simp only [Vm.newThread, Function.update_self, Option.some.injEq] at ht
      exact Or.inr ⟨rfl, by rw [← ht], by rw [← ht]⟩
    · simp only [Vm.newThread, Function.update_of_ne hh] at ht
      exact Or.inl ht
  refine ⟨?_, ?_, fun h hh => ?_, fun h t ht hne => ?_, fun h t s ht hs => ?_,
    fun h s v hs hv => hi.entry h s v ((hspace h).symm.trans hs) hv, fun f hf => ?_,
    fun h s v f hs hm hf => hi.named h s v f ((hspace h).symm.trans hs) ((hmaps h v f).mp hm) hf,
    fun f hf => absurd hf (by simp), fun i hil hv => ?_, hi.once⟩
  · rw [htable, hadd]
    split <;> exact hi.freed
  · rw [htable, hadd]
    split
    · exact Int.add_nonneg hi.current (by decide)
    · exact hi.current
  · have hle : k.nextThread + 1 ≤ h := hh
    simp only [Vm.newThread, Function.update_of_ne (show h ≠ k.nextThread by omega)]
    exact hi.newer h (by omega)
  · rcases hthread h t ht with hold | ⟨rfl, -, hid⟩
    · exact hreg _ _ (hi.registered h t hold hne)
    · rw [Registered, htable, hid, hadd]
      rw [hid, hadd] at hne
      split
      · refine ⟨hi.current, ?_, Function.update_self _ _ _⟩
        refine (Table.occupied_iff _ _).mpr ⟨Int.lt_succ _, fun hmem => ?_⟩
        have hmem : k.runningProcesses.current ∈ k.runningProcesses.freed.map ListElement.item :=
          hmem
        rw [hi.freed] at hmem
        cases hmem
      · rename_i hfull
        rw [if_neg hfull] at hne
        exact absurd rfl hne
  · rcases hthread h t ht with hold | ⟨-, hnone, -⟩
    · exact hi.identified h t s hold hs
    · rw [hnone] at hs
      cases hs
  · simp only [hmaps]
    exact hi.marked f hf
  · rw [hmaps]
    exact hi.slot i hil hv

/-- The state with an address space for thread `h`, whose fields were those of `t`. -/
def withSpace (k : Vm) (h : ℕ) (t : Thread) (exe : Executable) : Vm :=
  { k with
    thread := Function.update k.thread h
      (some { t with space := some (AddressSpace.make exe t.spaceId) })
    pageTable := Function.update k.pageTable h TranslationEntry.initial
    openSwapFile := Function.update k.openSwapFile h HostFile.empty }

theorem newSpace_eq_some {h : ℕ} {exe : Executable} (hnew : k.newSpace h exe = some k') :
    ∃ t, k.thread h = some t ∧ k.space h = none ∧ k' = k.withSpace h t exe := by
  simp only [Vm.newSpace, Option.bind_eq_bind, Option.bind_eq_some_iff] at hnew
  obtain ⟨t, ht, hnew⟩ := hnew
  split at hnew
  · rename_i hnone
    refine ⟨t, ht, ?_, (Option.some.inj hnew).symm⟩
    rw [Vm.space, ht]
    simpa using hnone
  · cases hnew

section WithSpace
variable {h h' : ℕ} {t : Thread} {exe : Executable}

theorem withSpace_space_self :
    (k.withSpace h t exe).space h = some (AddressSpace.make exe t.spaceId) := by
  simp [withSpace, Vm.space]

theorem withSpace_space (hne : h' ≠ h) : (k.withSpace h t exe).space h' = k.space h' := by
  simp [withSpace, Vm.space, hne]

theorem withSpace_pageTable_self :
    (k.withSpace h t exe).pageTable h = TranslationEntry.initial := by
  simp [withSpace]

theorem withSpace_pageTable (hne : h' ≠ h) :
    (k.withSpace h t exe).pageTable h' = k.pageTable h' := by
  simp [withSpace, hne]

/-- A new address space has no page in memory. -/
theorem withSpace_maps {v f : ℕ} (hold : k.space h = none) (hf : f < numPhysPages) :
    (k.withSpace h t exe).Maps h' v f ↔ h' ≠ h ∧ k.Maps h' v f := by
  by_cases hne : h' = h
  · subst hne
    constructor
    · rintro ⟨s, -, -, hv⟩
      rw [withSpace_pageTable_self] at hv
      rw [← hv] at hf
      exact absurd hf (show ¬ intMax < numPhysPages by decide)
    · rintro ⟨hne, -⟩
      exact absurd rfl hne
  · simp only [Maps, withSpace_space hne, withSpace_pageTable hne, ne_eq, hne, not_false_eq_true,
      true_and]

end WithSpace

theorem Maps.ne_of_space {h h' v f : ℕ} (hm : k.Maps h' v f) (hold : k.space h = none) :
    h' ≠ h := by
  rintro rfl
  obtain ⟨s, hs, -⟩ := hm
  rw [hold] at hs
  cases hs

theorem FrameInv.newSpace {h : ℕ} {exe : Executable} (hi : FrameInv k none)
    (hid : ∀ t, k.thread h = some t → t.spaceId ≠ -1) (hnew : k.newSpace h exe = some k') :
    FrameInv k' none := by
  obtain ⟨t, ht, hold, rfl⟩ := newSpace_eq_some hnew
  have hmaps : ∀ h' v f, f < numPhysPages →
      ((k.withSpace h t exe).Maps h' v f ↔ k.Maps h' v f) := fun h' v f hf =>
    (withSpace_maps hold hf).trans ⟨And.right, fun hm => ⟨hm.ne_of_space hold, hm⟩⟩
  refine ⟨hi.freed, hi.current, fun h' hh => ?_, fun h' t' ht' hne => ?_,
    fun h' t' s' ht' hs' => ?_, fun h' s' v hs' hv => ?_, fun f hf => ?_,
    fun h' s' v f hs' hm hf => ?_, fun f hf => absurd hf (by simp), fun i hil hv => ?_, hi.once⟩
  · by_cases hne : h' = h
    · subst hne
      rw [hi.newer h' hh] at ht
      cases ht
    · simp only [withSpace, Function.update_of_ne hne]
      exact hi.newer h' hh
  · by_cases hne' : h' = h
    · subst hne'
      simp only [withSpace, Function.update_self, Option.some.injEq] at ht'
      subst ht'
      exact hi.registered h' t ht (hid t ht)
    · simp only [withSpace, Function.update_of_ne hne'] at ht'
      exact hi.registered h' t' ht' hne
  · by_cases hne' : h' = h
    · subst hne'
      simp only [withSpace, Function.update_self, Option.some.injEq] at ht'
      subst ht'
      rw [Option.some.injEq] at hs'
      subst hs'
      exact ⟨hid t ht, rfl⟩
    · simp only [withSpace, Function.update_of_ne hne'] at ht'
      exact hi.identified h' t' s' ht' hs'
  · by_cases hne : h' = h
    · subst hne
      rw [withSpace_pageTable_self]
      exact ⟨rfl, rfl, Or.inl rfl⟩
    · rw [withSpace_pageTable hne]
      exact hi.entry h' s' v ((withSpace_space hne).symm.trans hs') hv
  · simp only [hmaps _ _ f hf]
    exact hi.marked f hf
  · have hm' := (hmaps h' v f hf).mp hm
    exact hi.named h' s' v f ((withSpace_space (hm'.ne_of_space hold)).symm.trans hs') hm' hf
  · obtain ⟨hm, hlt, hro⟩ := hi.slot i hil hv
    exact ⟨(hmaps _ _ _ hlt).mpr hm, hlt, hro⟩

/-- **What the destructor of an address space does to the frames.** -/
theorem freeFrames_eq (k : Vm) (h : ℕ) (s : AddressSpace) :
    ∃ bits mem, k.freeFrames h s = { k with addressesBitMap := bits, mainMemory := mem } ∧
      (∀ g, bits g = true ↔ k.addressesBitMap g = true ∧
        ∀ v, v < s.numPages → (k.pageTable h v).physicalPage = intMax ∨
          (k.pageTable h v).physicalPage ≠ g) ∧
      ∀ a, (∀ v, v < s.numPages → (k.pageTable h v).physicalPage = intMax ∨
        (k.pageTable h v).physicalPage ≠ a / pageSize) → mem a = k.mainMemory a := by
  unfold freeFrames
  generalize s.numPages = n
  induction n with
  | zero => exact ⟨_, _, rfl, by simp, by simp⟩
  | succ n ih =>
    obtain ⟨bits, mem, heq, hbits, hmem⟩ := ih
    rw [List.range_succ, List.foldl_append, heq, List.foldl_cons, List.foldl_nil]
    have hsplit : ∀ P : ℕ → Prop, (∀ v, v < n + 1 → P v) ↔ (∀ v, v < n → P v) ∧ P n := fun P =>
      ⟨fun hp => ⟨fun v hv => hp v (by omega), hp n (by omega)⟩,
        fun ⟨hp, hn⟩ v hv => (Nat.lt_succ_iff_lt_or_eq.mp hv).elim (hp v) (fun he => he ▸ hn)⟩
    simp only
    split
    · rename_i hout
      refine ⟨bits, mem, rfl, fun g => ?_, fun a ha => hmem a ((hsplit _).mp ha).1⟩
      rw [hsplit]
      simp [hbits g, hout]
    · rename_i hin
      refine ⟨_, _, rfl, fun g => ?_, fun a ha => ?_⟩
      · rw [hsplit]
        by_cases hg : g = (k.pageTable h n).physicalPage
        · subst hg
          simp [hin]
        · simp [hg, hbits g, Ne.symm hg]
      · obtain ⟨ha, hn⟩ := (hsplit _).mp ha
        rw [blit_outside, hmem a ha]
        have hne := hn.resolve_left hin
        have hdiv := Nat.div_add_mod a pageSize
        have hlt := Nat.mod_lt a (show 0 < pageSize by decide)
        have hle : pageSize * (a / pageSize) = a / pageSize * pageSize := Nat.mul_comm _ _
        rcases Nat.lt_or_gt_of_ne hne with hl | hl
        · right
          have := Nat.mul_le_mul_right pageSize (Nat.succ_le_of_lt hl)
          rw [Nat.succ_mul] at this
          omega
        · left
          have := Nat.mul_le_mul_right pageSize (Nat.succ_le_of_lt hl)
          rw [Nat.succ_mul] at this
          omega

/-- The state without thread `h`. -/
def withoutThread (k : Vm) (h : ℕ) (bits : ℕ → Bool) (mem : ℕ → UInt8) : Vm :=
  { k with
    addressesBitMap := bits
    mainMemory := mem
    thread := Function.update k.thread h none }

section WithoutThread
variable {h h' : ℕ} {bits : ℕ → Bool} {mem : ℕ → UInt8}

theorem withoutThread_space {s : AddressSpace} :
    (k.withoutThread h bits mem).space h' = some s ↔ h' ≠ h ∧ k.space h' = some s := by
  by_cases hne : h' = h
  · subst hne
    simp [withoutThread, Vm.space]
  · simp [withoutThread, Vm.space, hne]

theorem withoutThread_maps {v f : ℕ} :
    (k.withoutThread h bits mem).Maps h' v f ↔ h' ≠ h ∧ k.Maps h' v f := by
  simp only [Maps, withoutThread_space, and_assoc, exists_and_left]
  exact Iff.rfl

end WithoutThread

/-- **A thread is destroyed**: the frames of its pages are free again, and the others are
left alone. -/
theorem destroy_eq_some {h : ℕ} (hd : k.destroy h = some k') : h ≠ k.currentThread ∧
    ∃ bits mem, k' = k.withoutThread h bits mem ∧
      ∀ g, g < numPhysPages →
        (bits g = true ↔ k.addressesBitMap g = true ∧ ∀ v, ¬ k.Maps h v g) ∧
        ((∀ v, ¬ k.Maps h v g) → ∀ o, o < pageSize →
          mem (g * pageSize + o) = k.mainMemory (g * pageSize + o)) := by
  unfold Vm.destroy at hd
  split at hd
  · cases hd
  rename_i hcur
  simp only [Option.bind_eq_bind, Option.bind_eq_some_iff, Option.pure_def,
    Option.some.injEq] at hd
  obtain ⟨t, ht, rfl⟩ := hd
  refine ⟨hcur, ?_⟩
  cases hts : t.space with
  | none =>
    have hold : k.space h = none := by rw [Vm.space, ht, Option.bind_some, hts]
    exact ⟨_, _, rfl, fun g _ => ⟨⟨fun hg => ⟨hg, fun v hm => hm.ne_of_space hold rfl⟩, And.left⟩,
      fun _ _ _ => rfl⟩⟩
  | some s =>
    have hs : k.space h = some s := space_eq_some.mpr ⟨t, ht, hts⟩
    have hout : ∀ g, g < numPhysPages → ((∀ v, ¬ k.Maps h v g) ↔ ∀ v, v < s.numPages →
        (k.pageTable h v).physicalPage = intMax ∨ (k.pageTable h v).physicalPage ≠ g) := by
      intro g hg
      constructor
      · exact fun hall v hv => Or.inr fun hpp => hall v ⟨s, hs, hv, hpp⟩
      · rintro hall v ⟨s', hs', hv, hpp⟩
        rw [hs, Option.some.injEq] at hs'
        subst hs'
        rcases hall v hv with hmax | hne
        · rw [← hpp, hmax] at hg
          exact absurd hg (by decide)
        · exact hne hpp
    obtain ⟨bits, mem, heq, hbits, hmem⟩ := freeFrames_eq k h s
    refine ⟨bits, mem, ?_, fun g hg => ⟨?_, fun hnone o ho => hmem _ ?_⟩⟩
    · rw [deleteSpace, heq]
      rfl
    · rw [hbits g, hout g hg]
    · rw [Nat.mul_comm g, Nat.mul_add_div (by decide), Nat.div_eq_of_lt ho, Nat.add_zero]
      exact (hout g hg).mp hnone

theorem FrameInv.destroy {h : ℕ} (hi : FrameInv k none) (hd : k.destroy h = some k') :
    FrameInv k' none := by
  obtain ⟨hcur, bits, mem, rfl, hfreed⟩ := destroy_eq_some hd
  refine ⟨hi.freed, hi.current, fun h' hh => ?_, fun h' t' ht' hne => ?_,
    fun h' t' s' ht' hs' => ?_,
    fun h' s' v hs' hv => hi.entry h' s' v (withoutThread_space.mp hs').2 hv,
    fun f hf => ?_, fun h' s' v f hs' hm hf => hi.named h' s' v f (withoutThread_space.mp hs').2
      (withoutThread_maps.mp hm).2 hf,
    fun f hf => absurd hf (by simp), fun i hil hv => ?_, hi.once⟩
  · by_cases hne : h' = h
    · subst hne
      simp [withoutThread]
    · simp only [withoutThread, Function.update_of_ne hne]
      exact hi.newer h' hh
  · by_cases hne' : h' = h
    · subst hne'
      simp [withoutThread] at ht'
    · simp only [withoutThread, Function.update_of_ne hne'] at ht'
      exact hi.registered h' t' ht' hne
  · by_cases hne' : h' = h
    · subst hne'
      simp [withoutThread] at ht'
    · simp only [withoutThread, Function.update_of_ne hne'] at ht'
      exact hi.identified h' t' s' ht' hs'
  · have hbits : (k.withoutThread h bits mem).addressesBitMap f = true ↔ _ := (hfreed f hf).1
    simp only [withoutThread_maps, hbits, hi.marked f hf, reduceCtorEq, or_false]
    constructor
    · rintro ⟨⟨h', v, hm⟩, hnone⟩
      refine ⟨h', v, ?_, hm⟩
      rintro rfl
      exact hnone v hm
    · rintro ⟨h', v, hne, hm⟩
      exact ⟨⟨h', v, hm⟩, fun v' hm' => hne (hi.maps_unique hm hm' hf).1⟩
  · obtain ⟨hm, hlt, hro⟩ := hi.slot i hil hv
    exact ⟨withoutThread_maps.mpr ⟨fun he => hcur he.symm, hm⟩, hlt, hro⟩

end Lifetime

/-! ## Runs -/

theorem frameInv_initial (data : ℤ → ℕ) (pageTable : ℕ → ℕ → TranslationEntry)
    (tlb : ℕ → TranslationEntry) (coreMap : ℕ → CoreMapEntry) :
    FrameInv (initial data pageTable tlb coreMap) none := by
  have hthread : ∀ h t, (initial data pageTable tlb coreMap).thread h = some t →
      h = 0 ∧ t = ⟨0, 0, none⟩ := by
    intro h t ht
    by_cases hh : h = 0
    · subst hh
      simp only [initial, Function.update_self, Option.some.injEq] at ht
      exact ⟨rfl, ht.symm⟩
    · simp [initial, hh] at ht
  have hspace : ∀ h, (initial data pageTable tlb coreMap).space h = none := by
    intro h
    rw [space]
    cases ht : (initial data pageTable tlb coreMap).thread h with
    | none => rfl
    | some t => rw [(hthread h t ht).2]; rfl
  have hmaps : ∀ h v f, ¬ (initial data pageTable tlb coreMap).Maps h v f := by
    rintro h v f ⟨s, hs, -⟩
    rw [hspace] at hs
    cases hs
  refine ⟨rfl, show (0 : ℤ) ≤ 1 by decide, fun h hh => ?_, fun h t ht _ => ?_,
    fun h t s ht hs => ?_, fun h s v hs => ?_, fun f _ => ?_, fun h s v f hs => ?_,
    fun f hf => absurd hf (by simp),
    fun i _ hv => ?_, fun i j _ _ hv => ?_⟩
  · have hle : 1 ≤ h := hh
    simp [initial, Nat.ne_of_gt hle]
  · obtain ⟨rfl, rfl⟩ := hthread h t ht
    exact ⟨le_rfl, rfl, rfl⟩
  · obtain ⟨-, rfl⟩ := hthread h t ht
    cases hs
  · rw [hspace] at hs
    cases hs
  · simp only [hmaps, exists_const, reduceCtorEq, or_false, iff_false]
    simp [initial]
  · rw [hspace] at hs
    cases hs
  · simp [initial] at hv
  · simp [initial] at hv

/-- **Every allowed step keeps the invariant.** -/
theorem FrameInv.step {k k' : Vm} {a : Action} (hi : FrameInv k none) (ha : k.Allowed a)
    (hstep : k.step a = some k') : FrameInv k' none := by
  cases a with
  | newThread =>
    rw [← Option.some.inj hstep]
    exact hi.newThread
  | newSpace h exe => exact hi.newSpace ha hstep
  | destroy h => exact hi.destroy hstep
  | switch next => exact hi.switch hstep
  | read addr w victim =>
    rcases hi.access_cases ha.1 false ha.2 with ⟨i, -, -, -, hok⟩ | ⟨hfault, k1, heq, hi1⟩
    · simp only [Vm.step, readMem, hok] at hstep
      rw [← Option.some.inj hstep]
      exact hi.of_agree agrees_touch
    · simp only [Vm.step, readMem, hfault] at hstep
      rw [← Option.some.inj (heq.symm.trans hstep)]
      exact hi1
  | write addr w value victim =>
    rcases hi.access_cases ha.1 true ha.2 with ⟨i, -, -, -, hok⟩ | ⟨hfault, k1, heq, hi1⟩
    · simp only [Vm.step, writeMem, hok] at hstep
      rw [← Option.some.inj hstep]
      exact hi.of_agree (agrees_touch.trans ⟨rfl, rfl, fun _ => rfl, rfl, rfl, rfl,
        fun _ _ _ _ _ => rfl, fun _ _ hv => ⟨hv, rfl⟩⟩)
    · simp only [Vm.step, writeMem, hfault] at hstep
      rw [← Option.some.inj (heq.symm.trans hstep)]
      exact hi1

section Runs
variable {data : ℤ → ℕ} {pageTable : ℕ → ℕ → TranslationEntry} {tlb : ℕ → TranslationEntry}
  {coreMap : ℕ → CoreMapEntry} {tr : List Event} {k : Vm}

theorem Runs.frameInv
    (h : Runs (fun _ k a => k.Allowed a) (initial data pageTable tlb coreMap) tr k) :
    FrameInv k none := by
  refine Run.invariant (I := fun _ k => FrameInv k none)
    (frameInv_initial data pageTable tlb coreMap) ?_ h
  intro _ k a k' hi hg hstep
  exact hi.step hg hstep

/-- **Frame ownership.**  In every state reached: no two page-table entries of live
address spaces have the same frame; a frame is marked in the bitmap exactly when
such an entry has it, and then the core map names that address space and page; and
every valid slot of the TLB is about a page of the running address space, at most
one slot for a page, with the frame of its page-table entry. -/
theorem frame_ownership
    (h : Runs (fun _ k a => k.Allowed a) (initial data pageTable tlb coreMap) tr k) :
    (∀ h v h' v' f, k.Maps h v f → k.Maps h' v' f → f ≠ intMax → h = h' ∧ v = v') ∧
      (∀ f, f < numPhysPages → (k.addressesBitMap f = true ↔ ∃ h v, k.Maps h v f)) ∧
      (∀ h s v f, k.space h = some s → k.Maps h v f → f ≠ intMax →
        f < numPhysPages ∧ k.coreMap f = ⟨s.addressSpaceId, v⟩ ∧
          k.runningProcesses.get s.addressSpaceId = some h) ∧
      (∀ i, i < tlbSize → (k.tlb i).valid = true →
        k.Maps k.currentThread (k.tlb i).virtualPage (k.tlb i).physicalPage) ∧
      ∀ i j, i < tlbSize → j < tlbSize → (k.tlb i).valid = true → (k.tlb j).valid = true →
        (k.tlb i).virtualPage = (k.tlb j).virtualPage → i = j := by
  have hi := h.frameInv
  refine ⟨fun h v h' v' f hm hm' hne => ?_, fun f hf => ?_, fun h s v f hs hm hne => ?_,
    fun i hil hv => (hi.slot i hil hv).1, hi.once⟩
  · exact hi.maps_unique hm hm' ((hm.lt_or hi).resolve_left hne)
  · rw [hi.marked f hf]
    simp
  · have hf := (hm.lt_or hi).resolve_left hne
    obtain ⟨hpos, hocc, hdata⟩ := hi.registered_space hs
    refine ⟨hf, hi.named h s v f hs hm hf, ?_⟩
    rw [Table.get, if_pos hpos, if_pos hocc, hdata]

end Runs

/-- Four bytes of code and two of data, after a header of 40 bytes: with the stack, one
page more than there are frames. -/
def seventeenPages : Executable where
  code := ⟨0, 40, 4⟩
  initData := ⟨4, 44, 2⟩
  uninitData := ⟨0, 0, 0⟩
  file := ⟨46, fun a => UInt8.ofNat a⟩

/-- A machine with zeros wherever nothing was set. -/
def started : Vm :=
  initial (fun _ => 0) (fun _ => TranslationEntry.initial) TranslationEntry.initial
    (fun _ => ⟨0, 0⟩)

/-- Two processes, each with its first page in memory. -/
def twoProcesses : List Action :=
  [.newThread, .newSpace 0 seventeenPages, .newSpace 1 seventeenPages, .write 0 .word 7 0,
    .switch 1, .read 0 .word 0]

theorem play_twoProcesses :
    (play (fun k a => if decide (k.Allowed a) = true then step k a else none) emit
      started twoProcesses).map (fun r =>
        decide (r.2.addressesBitMap 0 = true ∧ r.2.addressesBitMap 1 = true)) = some true := by
  decide +kernel

theorem frame_ownership_twoProcesses : ∃ tr k, Runs (fun _ k a => k.Allowed a) started tr k ∧
    (∃ h v, k.Maps h v 0) ∧ ∃ h v, k.Maps h v 1 := by
  obtain ⟨r, hr, hbits⟩ := Option.map_eq_some_iff.mp play_twoProcesses
  obtain ⟨h0, h1⟩ := of_decide_eq_true hbits
  have hrun : Runs (fun _ k a => k.Allowed a) started r.1 r.2 :=
    (Run.start.play hr).of_restrict.mono fun _ _ _ h => of_decide_eq_true h
  obtain ⟨-, hmarked, -⟩ := frame_ownership hrun
  exact ⟨r.1, r.2, hrun, (hmarked 0 (by decide)).mp h0, (hmarked 1 (by decide)).mp h1⟩

end Vm
end PaldOs
