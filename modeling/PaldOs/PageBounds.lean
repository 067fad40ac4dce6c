import PaldOs.FrameOwnership

/-! # Which pages the page-fault handler touches

With a TLB the MMU does not know how long the page table is: every miss is a page fault, whatever
the address.  `TLBPageFaultHandler` takes the page of the address, and `getPageTableEntry` gives
a pointer into the table without looking at `numPages`; nor does `LoadPage` look.  Here the
handler is run with a record of the entries, frames and blocks of swap files it reads or writes.
They are all of pages that exist exactly if the address is below the end of the address space.
-/
namespace PaldOs
namespace Vm

/-! ## The handler, with what it touches -/

/-- What is read or written: the entry of page `v` in the page table of thread `h`, the block of
this page in the swap file, or frame `f` for this page. -/
inductive Touch where
  | entry (h v : ℕ)
  | swapBlock (h v : ℕ)
  | frame (h v f : ℕ)

/-- **It is about a page of an address space**, and a frame there is. -/
def Inside (k : Vm) : Touch → Prop
  | .entry h v => ∃ s, k.space h = some s ∧ v < s.numPages
  | .swapBlock h v => ∃ s, k.space h = some s ∧ v < s.numPages
  | .frame h v f => (∃ s, k.space h = some s ∧ v < s.numPages) ∧ f < numPhysPages

/-- `EvacuatePage`, with what it touches. -/
def evacuatePageTouches (k : Vm) (victim : ℕ) : Option (List Touch × Vm) := do
  let victimSpace := (k.coreMap victim).spaceId
  if ← k.runningProcesses.hasKey victimSpace then
    let h ← k.runningProcesses.get victimSpace
    let _ ← k.space h
    let v := (k.coreMap victim).virtualPage
    let saved := k.saveSlots (fun e => e.physicalPage == victim && e.valid) h (fun _ _ => v)
    let written := if (saved.pageTable h v).dirty then [.frame h v victim, .swapBlock h v] else []
    return (.entry h v :: written, k.takeOut h v victim)
  else return ([], k)

/-- What `LoadPage` touches. -/
def loadPageTouches (k : Vm) (h vpnAddress physicalPage : ℕ) : List Touch :=
  let vpn := vpnAddress / pageSize
  .frame h vpn physicalPage :: .entry h vpn ::
    if (k.pageTable h vpn).dirty then [.swapBlock h vpn] else []

/-- The part of the handler for a page that is not in memory, with what it touches. -/
def bringInTouches (k : Vm) (s : AddressSpace) (vpnAddress victim : ℕ) :
    Option (List Touch × Vm) := do
  let cur := k.currentThread
  let vpn := vpnAddress / pageSize
  let (evacuated, frame, k) ← match k.find with
    | some r => some ([], r)
    | none => (k.evacuatePageTouches victim).map (fun r => (r.1, victim, r.2))
  let k := k.setEntry cur vpn { k.pageTable cur vpn with physicalPage := frame }
  return (evacuated ++ k.loadPageTouches cur vpnAddress frame, k.loadPage cur s vpnAddress frame)

/-- What the part about the TLB touches: the entry of the page that had the slot. -/
def fillSlotTouches (k : Vm) (t : Thread) : List Touch :=
  let slot := t.numFaults % tlbSize
  if (k.tlb slot).valid then [.entry k.currentThread (k.tlb slot).virtualPage] else []

/-- **`TLBPageFaultHandler`**, with what it touches. -/
def pageFaultHandlerTouches (k : Vm) (vpnAddress victim : ℕ) : Option (List Touch × Vm) := do
  let cur := k.currentThread
  let t ← k.thread cur
  let s ← t.space
  let vpn := vpnAddress / pageSize
  let k := k.setEntry cur vpn { k.pageTable cur vpn with valid := true }
  let (broughtIn, k) ← if (k.pageTable cur vpn).physicalPage = intMax then
      k.bringInTouches s vpnAddress victim
    else some ([], k)
  return (.entry cur vpn :: broughtIn ++ k.fillSlotTouches t, k.fillSlot t vpn)

/-- **The handler stays inside**: it comes to its end, and touches only pages that exist.  It has
no other way to end: it does not report an address error. -/
def Contained (k : Vm) (vpnAddress victim : ℕ) : Prop :=
  ∃ touches k', k.pageFaultHandlerTouches vpnAddress victim = some (touches, k') ∧
    ∀ a ∈ touches, k.Inside a

/-! ## It is the handler -/

section Erasure
variable (k : Vm)

theorem evacuatePageTouches_map (victim : ℕ) :
    (k.evacuatePageTouches victim).map Prod.snd = k.evacuatePage victim := by
  unfold evacuatePageTouches evacuatePage
  dsimp only
  cases hkey : k.runningProcesses.hasKey (k.coreMap victim).spaceId with
  | none => simp only [Option.bind_eq_bind, Option.bind_none, Option.map_none]
  | some b =>
    cases b with
    | false => rfl
    | true =>
      cases hget : k.runningProcesses.get (k.coreMap victim).spaceId with
      | none => rfl
      | some h =>
        cases hspace : k.space h with
        | none => simp [hspace]
        | some s => simp [hspace]

theorem bringInTouches_map (s : AddressSpace) (vpnAddress victim : ℕ) :
    (k.bringInTouches s vpnAddress victim).map Prod.snd = k.bringIn s vpnAddress victim := by
  unfold bringInTouches bringIn
  dsimp only
  cases hfind : k.find with
  | some r => rfl
  | none =>
    dsimp only
    rw [← evacuatePageTouches_map]
    cases hevac : k.evacuatePageTouches victim <;> rfl

/-- The record changes nothing. -/
theorem pageFaultHandlerTouches_map (vpnAddress victim : ℕ) :
    (k.pageFaultHandlerTouches vpnAddress victim).map Prod.snd =
      k.pageFaultHandler vpnAddress victim := by
  unfold pageFaultHandlerTouches Vm.pageFaultHandler
  dsimp only
  cases ht : k.thread k.currentThread with
  | none => rfl
  | some t =>
    cases hs : t.space with
    | none => simp [hs]
    | some s =>
      simp only [Option.bind_eq_bind, Option.bind_some, hs]
      split
      · rw [← bringInTouches_map]
        cases hbring : bringInTouches _ s vpnAddress victim <;> rfl
      · rfl

end Erasure

/-! ## In range, nothing else is touched -/

section Containment
variable {k k' : Vm} {s : AddressSpace} {addr victim f : ℕ}

theorem Maps.inside {h v : ℕ} (hm : k.Maps h v f) : ∃ s, k.space h = some s ∧ v < s.numPages := by
  obtain ⟨s, hs, hv, -⟩ := hm
  exact ⟨s, hs, hv⟩

theorem FrameInv.evacuatePageTouches (hi : FrameInv k none) (hf : f < numPhysPages)
    (hfull : k.addressesBitMap f = true) :
    ∃ touches h v, k.Maps h v f ∧ k.evacuatePageTouches f = some (touches, k.takeOut h v f) ∧
      ∀ a ∈ touches, k.Inside a := by
  obtain ⟨h, v, hm⟩ := ((hi.marked f hf).mp hfull).resolve_right (by simp)
  obtain ⟨s, hs, -⟩ := id hm
  obtain ⟨hpos, hocc, hdata⟩ := hi.registered_space hs
  unfold Vm.evacuatePageTouches
  rw [hi.named h s v f hs hm hf]
  simp only [Table.hasKey, Table.get, hpos, hocc, hdata, hs, if_true, Option.bind_eq_bind,
    Option.bind_some]
  refine ⟨_, h, v, hm, rfl, fun a ha => ?_⟩
  rcases List.mem_cons.mp ha with rfl | ha
  · exact hm.inside
  · split at ha
    · rcases List.mem_cons.mp ha with rfl | ha
      · exact ⟨hm.inside, hf⟩
      · rw [List.mem_singleton.mp ha]
        exact hm.inside
    · cases ha

/-- `LoadPage` touches the page it is called for. -/
theorem loadPageTouches_inside {h : ℕ} (k₁ : Vm) (hs : k.space h = some s)
    (hv : addr / pageSize < s.numPages) (hf : f < numPhysPages) :
    ∀ a ∈ k₁.loadPageTouches h addr f, k.Inside a := by
  intro a ha
  rcases List.mem_cons.mp ha with rfl | ha
  · exact ⟨⟨s, hs, hv⟩, hf⟩
  · rcases List.mem_cons.mp ha with rfl | ha
    · exact ⟨s, hs, hv⟩
    · split at ha
      · rw [List.mem_singleton.mp ha]
        exact ⟨s, hs, hv⟩
      · cases ha

theorem FrameInv.bringInTouches (hi : FrameInv k none) (hs : k.space k.currentThread = some s)
    (hv : addr / pageSize < s.numPages) (hvictim : victim < numPhysPages)
    (hout : (k.pageTable k.currentThread (addr / pageSize)).physicalPage = intMax) :
    ∃ touches f k', FrameReady k victim f k' ∧
      k.bringInTouches s addr victim = some (touches, k'.brought s addr f) ∧
      ∀ a ∈ touches, k.Inside a := by
  cases hfind : k.find with
  | some r =>
    have hready : FrameReady k victim r.1 r.2 := Or.inl hfind
    obtain ⟨-, hcur, -⟩ := hready.frame hout
    refine ⟨_, r.1, r.2, hready, ?_, loadPageTouches_inside (r.2.setEntry k.currentThread
      (addr / pageSize)
        { r.2.pageTable k.currentThread (addr / pageSize) with physicalPage := r.1 })
      hs hv (hready.brought hi hs hv hout).2.2.2⟩
    unfold Vm.bringInTouches brought
    rw [hfind, hcur]
    rfl
  | none =>
    obtain ⟨touches, h, v, hm, heq, hinside⟩ :=
      hi.evacuatePageTouches hvictim (find_eq_none hfind hvictim)
    have hready : FrameReady k victim victim (k.takeOut h v victim) :=
      Or.inr ⟨rfl, hvictim, h, v, hm, rfl⟩
    obtain ⟨-, hcur, -⟩ := hready.frame hout
    set k₁ := k.takeOut h v victim with hk₁
    refine ⟨touches ++ (k₁.setEntry k.currentThread (addr / pageSize)
      { k₁.pageTable k.currentThread (addr / pageSize) with
        physicalPage := victim }).loadPageTouches k.currentThread addr victim, victim, k₁, hready,
      ?_, fun a ha => ?_⟩
    · unfold Vm.bringInTouches brought
      rw [hfind, heq, hcur]
      rfl
    · rcases List.mem_append.mp ha with ha | ha
      · exact hinside a ha
      · exact loadPageTouches_inside _ hs hv hvictim a ha

/-- The slot of the TLB has a page of the running thread. -/
theorem FrameInv.fillSlotTouches (hi : FrameInv k none) (t : Thread) :
    ∀ a ∈ k.fillSlotTouches t, k.Inside a := by
  intro a ha
  unfold Vm.fillSlotTouches at ha
  dsimp only at ha
  split at ha
  · rename_i hvalid
    rw [List.mem_singleton.mp ha]
    exact (hi.slot _ (Nat.mod_lt _ (by decide)) hvalid).1.inside
  · cases ha

/-- Address spaces that stay are as long as they were. -/
theorem inside_congr (hthread : k'.thread = k.thread) (a : Touch) : k'.Inside a ↔ k.Inside a := by
  have hspace : ∀ h, k'.space h = k.space h := by
    intro h
    rw [space, space, hthread]
  cases a <;> simp only [Inside, hspace]

/-- **A fault in range** touches pages of address spaces only. -/
theorem FrameInv.contained (hi : FrameInv k none) (hs : k.space k.currentThread = some s)
    (hv : addr / pageSize < s.numPages) (hvictim : victim < numPhysPages) :
    k.Contained addr victim := by
  obtain ⟨t, ht, hts⟩ := space_eq_some.mp hs
  set k₁ := k.setEntry k.currentThread (addr / pageSize)
    { k.pageTable k.currentThread (addr / pageSize) with valid := true } with hk₁
  have ha : Agrees k k₁ := agrees_setEntry rfl
  have hi₁ : FrameInv k₁ none := hi.of_agree ha
  have hs₁ : k₁.space k₁.currentThread = some s := (ha.space _).trans hs
  have hfirst : k.Inside (.entry k.currentThread (addr / pageSize)) := ⟨s, hs, hv⟩
  have hinside₁ : ∀ a, k₁.Inside a ↔ k.Inside a := inside_congr rfl
  unfold Contained pageFaultHandlerTouches
  simp only [ht, hts, Option.bind_eq_bind, Option.bind_some]
  rw [← hk₁]
  by_cases hout : (k₁.pageTable k.currentThread (addr / pageSize)).physicalPage = intMax
  · obtain ⟨touches, f, k₂, hready, heq, hinside⟩ := hi₁.bringInTouches hs₁ hv hvictim hout
    obtain ⟨hi₂, -, hthread, -⟩ := hready.brought hi₁ hs₁ hv hout
    rw [if_pos hout, heq]
    refine ⟨_, _, rfl, fun a ha => ?_⟩
    rcases List.mem_append.mp ha with ha | ha
    · rcases List.mem_cons.mp ha with rfl | ha
      · exact hfirst
      · exact (hinside₁ a).mp (hinside a ha)
    · exact (inside_congr hthread a).mp (hi₂.fillSlotTouches t a ha)
  · rw [if_neg hout]
    refine ⟨_, _, rfl, fun a ha => ?_⟩
    rcases List.mem_append.mp ha with ha | ha
    · rw [List.mem_singleton.mp ha]
      exact hfirst
    · exact (hinside₁ a).mp (hi₁.fillSlotTouches t a ha)

/-- The entry of the page is touched whatever its number. -/
theorem Contained.in_range (h : k.Contained addr victim) :
    ∃ s, k.space k.currentThread = some s ∧ addr / pageSize < s.numPages := by
  obtain ⟨touches, k', heq, hinside⟩ := h
  unfold pageFaultHandlerTouches at heq
  simp only [Option.bind_eq_bind, Option.bind_eq_some_iff] at heq
  obtain ⟨t, -, s, -, heq⟩ := heq
  split at heq
  · obtain ⟨r, -, heq⟩ := Option.bind_eq_some_iff.mp heq
    obtain ⟨rfl, -⟩ := Prod.mk.inj (Option.some.inj heq)
    exact hinside _ (List.mem_append_left _ List.mem_cons_self)
  · obtain ⟨rfl, -⟩ := Prod.mk.inj (Option.some.inj heq)
    exact hinside _ List.mem_cons_self

end Containment

section Runs
variable {data : ℤ → ℕ} {pageTable : ℕ → ℕ → TranslationEntry} {tlb : ℕ → TranslationEntry}
  {coreMap : ℕ → CoreMapEntry} {tr : List Event} {k : Vm}

/-- **Which page faults stay inside the page table**: after any run whose accesses are in range,
those whose address is below the end of the address space. -/
theorem fault_contained_iff
    (h : Runs (fun _ k a => k.Allowed a) (initial data pageTable tlb coreMap) tr k)
    {s : AddressSpace} (hs : k.space k.currentThread = some s) (addr : ℕ) {victim : ℕ}
    (hvictim : victim < numPhysPages) :
    k.Contained addr victim ↔ addr < s.numPages * pageSize := by
  have hpage : addr / pageSize < s.numPages ↔ addr < s.numPages * pageSize :=
    Nat.div_lt_iff_lt_mul (by decide)
  rw [← hpage]
  constructor
  · intro hc
    obtain ⟨s', hs', hv⟩ := hc.in_range
    rw [hs] at hs'
    rwa [Option.some.inj hs']
  · intro hv
    exact h.frameInv.contained hs hv hvictim

end Runs

/-- `main` gets an address space. -/
theorem oneSpace_reached : ∃ tr k s, Runs (fun _ k a => k.Allowed a) started tr k ∧
    k.space k.currentThread = some s ∧ s.numPages = 17 ∧ ∀ w writing,
      k.translate (17 * pageSize) w writing = .error .pageFault := by
  obtain ⟨k, hk, hspace, hslots⟩ : ∃ k, step started (.newSpace 0 seventeenPages) = some k ∧
      (k.space k.currentThread).map AddressSpace.numPages = some 17 ∧
      k.retrievePageEntry 17 = none := ⟨_, rfl, by decide +kernel, by decide +kernel⟩
  obtain ⟨s, hs, hpages⟩ := Option.map_eq_some_iff.mp hspace
  have hallowed : started.Allowed (.newSpace 0 seventeenPages) := by decide
  have hstart : Runs (fun _ k a => k.Allowed a) started [] started := .start
  have hrun : Runs (fun _ k a => k.Allowed a) started _ k := hstart.next _ hallowed hk
  refine ⟨_, k, s, hrun, hs, hpages, fun w writing => ?_⟩
  unfold Vm.translate
  rw [if_neg (by cases w <;> decide), show 17 * pageSize / pageSize = 17 from rfl, hslots]

theorem fault_contained_iff_oneSpace : ∃ tr k s, Runs (fun _ k a => k.Allowed a) started tr k ∧
    k.space k.currentThread = some s ∧ (k.Contained 0 0 ↔ 0 < s.numPages * pageSize) := by
  obtain ⟨tr, k, s, hrun, hs, -⟩ := oneSpace_reached
  exact ⟨tr, k, s, hrun, hs, fault_contained_iff hrun hs 0 (by decide)⟩

/-- The first address behind the address space misses the TLB, and the handler takes an entry that
is not there. -/
theorem fault_behind_the_end : ∃ tr k s, Runs (fun _ k a => k.Allowed a) started tr k ∧
    k.space k.currentThread = some s ∧
    k.translate (s.numPages * pageSize) .byte false = .error .pageFault ∧
    ∀ victim, ¬ k.Contained (s.numPages * pageSize) victim := by
  obtain ⟨tr, k, s, hrun, hs, hpages, hfault⟩ := oneSpace_reached
  refine ⟨tr, k, s, hrun, hs, by rw [hpages]; exact hfault _ _, fun victim hc => ?_⟩
  obtain ⟨s', hs', hv⟩ := hc.in_range
  rw [hs] at hs'
  rw [← Option.some.inj hs', Nat.mul_div_cancel _ (by decide)] at hv
  exact lt_irrefl _ hv

end Vm
end PaldOs
