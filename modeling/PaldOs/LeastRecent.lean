import PaldOs.PagingTransparency
import PaldOs.Recency

/-! # The least recently used frame

With `PRPOLICY_LRU` the MMU counts the references it is asked for, and a frame keeps the count of
its last reference: of a TLB hit, or of the load of a page.  `PickVictim` takes the frame with the
smallest count.  The counter has 32 bits.  When `PickVictim` finds it at `UINT_MAX` it sets all
counts to 0, and so picks frame 0, whatever was used last; and if the counter passes `UINT_MAX` in
between, the counts wrap around.

What was referenced is recorded in a list, and the counts are the stamps of these references.
-/
namespace PaldOs
open Vm

/-- `UINT_MAX`. -/
def uintMax : ℕ := 4294967295

/-- The virtual memory with `references_done` and the `last_use_counter` of each frame, and the
frames that were referenced so far, which is no variable of the source. -/
structure Lru where
  vm : Vm
  referencesDone : ℕ
  lastUseCounter : ℕ → ℕ
  references : List ℕ

namespace Lru

/-! ## Counting -/

/-- `references_done++`. -/
def count (s : Lru) : Lru := { s with referencesDone := (s.referencesDone + 1) % 2 ^ 32 }

/-- Frame `f` is referenced. -/
def refer (s : Lru) (f : ℕ) : Lru :=
  { s with
    lastUseCounter := Function.update s.lastUseCounter f s.referencesDone
    references := s.references ++ [f] }

/-- What `RetrievePageEntry` counts. -/
def retrievePageEntry (s : Lru) (vpn : ℕ) : Lru :=
  match s.vm.retrievePageEntry vpn with
  | some i => s.count.refer (s.vm.tlb i).physicalPage
  | none => s.count

/-- What `Translate` counts: an address that is not aligned is not looked up. -/
def translate (s : Lru) (virtAddr : ℕ) (w : Width) : Lru :=
  if virtAddr % w.bytes ≠ 0 then s else s.retrievePageEntry (virtAddr / pageSize)

/-- A round of the loop of `PickVictim`. -/
def pickRound (counters : ℕ → ℕ) (r : ℕ × ℕ) (i : ℕ) : ℕ × ℕ :=
  if counters i < r.1 then (counters i, i) else r

/-- `PickVictim`. -/
def pickVictim (s : Lru) : ℕ × Lru :=
  let s := if s.referencesDone = uintMax then
      { s with
        referencesDone := 0
        lastUseCounter := fun f => if f < numPhysPages then 0 else s.lastUseCounter f }
    else s
  (((List.range numPhysPages).foldl (pickRound s.lastUseCounter) (uintMax, 0)).2, s)

/-- The page of the address is not in memory. -/
def Absent (s : Lru) (vpnAddress : ℕ) : Prop :=
  (s.vm.pageTable s.vm.currentThread (vpnAddress / pageSize)).physicalPage = intMax

instance (s : Lru) (vpnAddress : ℕ) : Decidable (s.Absent vpnAddress) :=
  inferInstanceAs (Decidable (_ = _))

/-- `TLBPageFaultHandler`: a page that is not in memory gets a frame, which counts as a reference
to it. -/
def pageFaultHandler (s : Lru) (vpnAddress : ℕ) : Option Lru :=
  if s.Absent vpnAddress then do
    let (frame, s) := match s.vm.find with
      | some (f, _) => (f, s)
      | none => s.pickVictim
    let vm ← s.vm.pageFaultHandler vpnAddress frame
    return { s.count.refer frame with vm := vm }
  else do
    let vm ← s.vm.pageFaultHandler vpnAddress 0
    return { s with vm := vm }

/-- An attempt at an access ends well, or in a page fault that the handler treats. -/
def afterAttempt (s : Lru) (addr : ℕ) : Except ExceptionType Vm → Option Lru
  | .ok vm => some { s with vm := vm }
  | .error .pageFault => s.pageFaultHandler addr
  | .error _ => none

/-- **One step.**  The victim is not the one of the action but the one that `PickVictim` picks. -/
def step (s : Lru) : Action → Option Lru
  | .read addr w _ => (s.translate addr w).afterAttempt addr ((s.vm.readMem addr w).map Prod.snd)
  | .write addr w value _ => (s.translate addr w).afterAttempt addr (s.vm.writeMem addr w value)
  | a => do
      let vm ← s.vm.step a
      return { s with vm := vm }

/-- The machine at the start. -/
def initial (vm : Vm) : Lru := ⟨vm, 0, fun _ => 0, []⟩

/-- Runs whose steps are all allowed by `guard`. -/
def Runs (guard : Lru → Action → Prop) (vm : Vm) : List Unit → Lru → Prop :=
  Run step (fun _ _ => []) (fun _ s a => guard s a) (initial vm)

/-- **The counter does not run over**: before an access it is less than `UINT_MAX`, and one less
than that if the page of the access is not in memory. -/
def Counts (s : Lru) : Action → Prop
  | .read addr _ _ | .write addr _ _ _ =>
      s.referencesDone < uintMax ∧ (s.Absent addr → s.referencesDone + 1 < uintMax)
  | _ => True

/-- The frames. -/
def frames : Set ℕ := {f | f < numPhysPages}

/-- `PickVictim` is called for an access: the page is neither in the TLB nor in memory, and all
frames are in use. -/
def Evicts (s : Lru) (addr : ℕ) (w : Width) : Prop :=
  s.vm.translate addr w false = .error .pageFault ∧ s.Absent addr ∧ s.vm.find = none

/-! ## The steps of the virtual memory -/

section Project
variable {s s' : Lru}

theorem retrievePageEntry_vm (vpn : ℕ) : (s.retrievePageEntry vpn).vm = s.vm := by
  unfold retrievePageEntry
  split <;> rfl

theorem translate_vm (addr : ℕ) (w : Width) : (s.translate addr w).vm = s.vm := by
  unfold translate
  split
  · rfl
  · exact retrievePageEntry_vm _

/-- A round keeps the smaller count. -/
theorem foldl_pickRound (counters : ℕ → ℕ) (n : ℕ) :
    (∀ g, g < n → ((List.range n).foldl (pickRound counters) (uintMax, 0)).1 ≤ counters g) ∧
    (((List.range n).foldl (pickRound counters) (uintMax, 0)) = (uintMax, 0) ∨
      ((List.range n).foldl (pickRound counters) (uintMax, 0)).2 < n ∧
        counters ((List.range n).foldl (pickRound counters) (uintMax, 0)).2 =
          ((List.range n).foldl (pickRound counters) (uintMax, 0)).1) := by
  induction n with
  | zero => exact ⟨fun g hg => absurd hg (Nat.not_lt_zero g), Or.inl rfl⟩
  | succ n ih =>
    obtain ⟨hle, hcase⟩ := ih
    rw [List.range_succ, List.foldl_append, List.foldl_cons, List.foldl_nil]
    generalize (List.range n).foldl (pickRound counters) (uintMax, 0) = r at hle hcase
    unfold pickRound
    split
    · rename_i hlt
      refine ⟨fun g hg => ?_, Or.inr ⟨Nat.lt_succ_self n, rfl⟩⟩
      rcases Nat.lt_succ_iff_lt_or_eq.mp hg with hg | rfl
      · exact le_trans (le_of_lt hlt) (hle g hg)
      · exact le_refl _
    · rename_i hnot
      refine ⟨fun g hg => ?_, hcase.imp_right fun h => ⟨Nat.lt_succ_of_lt h.1, h.2⟩⟩
      rcases Nat.lt_succ_iff_lt_or_eq.mp hg with hg | rfl
      · exact hle g hg
      · exact not_lt.mp hnot

theorem pickVictim_lt : s.pickVictim.1 < numPhysPages := by
  unfold pickVictim
  dsimp only
  generalize (if s.referencesDone = uintMax then _ else s : Lru) = s'
  rcases (foldl_pickRound s'.lastUseCounter numPhysPages).2 with h | h
  · rw [h]
    decide
  · exact h.1

/-- `PickVictim` takes a frame with the smallest count. -/
theorem pickVictim_le (hlt : s.referencesDone < uintMax)
    (hle : ∀ f, s.lastUseCounter f ≤ s.referencesDone) {g : ℕ} (hg : g < numPhysPages) :
    s.lastUseCounter s.pickVictim.1 ≤ s.lastUseCounter g := by
  unfold pickVictim
  dsimp only
  rw [if_neg (Nat.ne_of_lt hlt)]
  obtain ⟨hall, hcase⟩ := foldl_pickRound s.lastUseCounter numPhysPages
  rcases hcase with hnone | ⟨-, heq⟩
  · -- no count is below `UINT_MAX`
    have hmax := hall g hg
    rw [hnone] at hmax
    exact absurd (le_trans hmax (hle g)) (not_le.mpr hlt)
  · rw [heq]
    exact hall g hg

theorem pickVictim_snd (hlt : s.referencesDone < uintMax) : s.pickVictim.2 = s := by
  unfold pickVictim
  dsimp only
  rw [if_neg (Nat.ne_of_lt hlt)]

end Project

/-! ## The bitmap of the frames -/

section Bits
variable {k k' : Vm}

@[simp] theorem fillSlot_bits (t : Thread) (v : ℕ) :
    (k.fillSlot t v).addressesBitMap = k.addressesBitMap := by
  unfold fillSlot
  dsimp only
  split <;> rfl

/-- The handler marks the frame that it found, and no other. -/
theorem pageFaultHandler_bits (hi : FrameInv k none) {sp : AddressSpace}
    (hs : k.space k.currentThread = some sp) {addr victim f : ℕ} (hvictim : victim < numPhysPages)
    (heq : k.pageFaultHandler addr victim = some k') (hf : k'.addressesBitMap f = true) :
    k.addressesBitMap f = true ∨
      (k.pageTable k.currentThread (addr / pageSize)).physicalPage = intMax ∧
        ∃ r, k.find = some r ∧ f = r.1 := by
  obtain ⟨t, k1, k2, -, hk1, hcases, heq'⟩ := hi.pageFaultHandler_eq hs addr hvictim
  have hbits1 : k1.addressesBitMap = k.addressesBitMap := by
    rw [hk1]
    rfl
  have hpage1 : (k1.pageTable k.currentThread (addr / pageSize)).physicalPage =
      (k.pageTable k.currentThread (addr / pageSize)).physicalPage := by
    rw [hk1, setEntry_pageTable, if_pos ⟨rfl, rfl⟩]
  rw [heq, Option.some.injEq] at heq'
  rw [heq', fillSlot_bits] at hf
  rcases hcases with ⟨-, rfl⟩ | ⟨hout, g, k2, hready, rfl⟩
  · rw [hbits1] at hf
    exact Or.inl hf
  have hf : k2.addressesBitMap f = true := hf
  rcases hready with hfind | ⟨-, -, h, v, -, rfl⟩
  · by_cases hfg : f = g
    · rw [hpage1] at hout
      refine Or.inr ⟨hout, ?_⟩
      unfold Vm.find at hfind ⊢
      rw [hbits1] at hfind
      obtain ⟨r, hr, hrg⟩ := Option.map_eq_some_iff.mp hfind
      refine ⟨_, Option.map_eq_some_iff.mpr ⟨r, hr, rfl⟩, ?_⟩
      exact hfg.trans (Prod.mk.inj hrg).1.symm
    · obtain ⟨-, -, hk2⟩ := find_eq_some hfind
      dsimp only at hk2
      rw [hk2] at hf
      dsimp only at hf
      rw [Function.update_of_ne hfg, hbits1] at hf
      exact Or.inl hf
  · obtain ⟨pt, tlb, swap, htake, -⟩ := takeOut_frame (k := k1) h v victim
    rw [htake] at hf
    dsimp only at hf
    rw [hbits1] at hf
    exact Or.inl hf

/-- A step that is no access marks no frame. -/
theorem step_bits {a : Action} (hstep : k.step a = some k')
    (hread : ∀ addr w victim, a ≠ .read addr w victim)
    (hwrite : ∀ addr w value victim, a ≠ .write addr w value victim) {f : ℕ}
    (hf : f < numPhysPages) (hbit : k'.addressesBitMap f = true) : k.addressesBitMap f = true := by
  cases a with
  | newThread =>
    rw [← Option.some.inj hstep] at hbit
    exact hbit
  | newSpace h exe =>
    obtain ⟨t, -, -, rfl⟩ := newSpace_eq_some hstep
    exact hbit
  | destroy h =>
    obtain ⟨-, bits, mem, rfl, hfreed⟩ := destroy_eq_some hstep
    exact ((hfreed f hf).1.mp hbit).1
  | switch next =>
    simp only [Vm.step, Vm.switch, Option.bind_eq_bind, Option.bind_eq_some_iff, Option.pure_def,
      Option.some.injEq] at hstep
    obtain ⟨t, -, rfl⟩ := hstep
    obtain ⟨pt, tlb, hsave⟩ : ∃ pt tlb, k.saveState = { k with pageTable := pt, tlb := tlb } :=
      saveSlots_eq
    rw [hsave] at hbit
    split at hbit <;> split at hbit <;> exact hbit
  | read addr w victim => exact absurd rfl (hread addr w victim)
  | write addr w value victim => exact absurd rfl (hwrite addr w value victim)

end Bits

/-! ## The invariant -/

/-- **The counts tell the order of the references**, and a frame in use was referenced. -/
structure Recent (s : Lru) : Prop where
  frames : FrameInv s.vm none
  counted : s.referencesDone ≤ uintMax
  recency : Recency s.references s.lastUseCounter s.referencesDone
  referenced : ∀ f, f < numPhysPages → s.vm.addressesBitMap f = true → f ∈ s.references

section Invariant
variable {s s' : Lru} {vm : Vm} {addr : ℕ} {w : Width}

theorem recent_initial (data : ℤ → ℕ) (pageTable : ℕ → ℕ → TranslationEntry)
    (tlb : ℕ → TranslationEntry) (coreMap : ℕ → CoreMapEntry) :
    Recent (initial (Vm.initial data pageTable tlb coreMap)) where
  frames := frameInv_initial data pageTable tlb coreMap
  counted := Nat.zero_le _
  recency := Recency.nil 0
  referenced f _ hf := by cases hf

/-- The virtual memory changes, and no frame is marked that was not referenced. -/
theorem Recent.withVm (h : Recent s) (hi : FrameInv vm none)
    (hbits : ∀ f, f < numPhysPages → vm.addressesBitMap f = true →
      s.vm.addressesBitMap f = true ∨ f ∈ s.references) : Recent { s with vm := vm } where
  frames := hi
  counted := h.counted
  recency := h.recency
  referenced f hf hbit := (hbits f hf hbit).elim (h.referenced f hf) id

theorem count_referencesDone (hlt : s.referencesDone < uintMax) :
    s.count.referencesDone = s.referencesDone + 1 :=
  Nat.mod_eq_of_lt (Nat.succ_lt_succ hlt)

theorem Recent.count (h : Recent s) (hlt : s.referencesDone < uintMax) : Recent s.count where
  frames := h.frames
  counted := by
    rw [count_referencesDone hlt]
    exact hlt
  recency := by
    rw [count_referencesDone hlt]
    exact h.recency.later (Nat.le_succ _)
  referenced := h.referenced

theorem Recent.refer (h : Recent s) (hlt : s.referencesDone < uintMax) (f : ℕ) :
    Recent (s.count.refer f) where
  frames := h.frames
  counted := (h.count hlt).counted
  recency := by
    have hnew : s.referencesDone < s.count.referencesDone := by
      rw [count_referencesDone hlt]
      exact Nat.lt_succ_self _
    exact h.recency.refer hnew f
  referenced g hg hbit := List.mem_append_left _ (h.referenced g hg hbit)

/-- **A lookup.** -/
theorem Recent.translate (h : Recent s) (hr : s.vm.InRange addr w)
    (hlt : s.referencesDone < uintMax) :
    Recent (s.translate addr w) ∧ (s.translate addr w).referencesDone = s.referencesDone + 1 := by
  have heq : s.translate addr w = s.retrievePageEntry (addr / pageSize) :=
    if_neg (not_not.mpr hr.1)
  rw [heq]
  unfold Lru.retrievePageEntry
  split
  · exact ⟨h.refer hlt _, count_referencesDone hlt⟩
  · exact ⟨h.count hlt, count_referencesDone hlt⟩

/-- **A page fault.** -/
theorem Recent.pageFaultHandler (h : Recent s) {sp : AddressSpace}
    (hs : s.vm.space s.vm.currentThread = some sp) (hv : addr / pageSize < sp.numPages)
    (hmiss : s.vm.Misses (addr / pageSize))
    (hlt : s.Absent addr → s.referencesDone < uintMax)
    (heq : s.pageFaultHandler addr = some s') : Recent s' := by
  unfold Lru.pageFaultHandler at heq
  split at heq
  · rename_i habsent
    have hlt := hlt habsent
    simp only [Option.bind_eq_bind, Option.bind_eq_some_iff, Option.pure_def,
      Option.some.injEq] at heq
    cases hfind : s.vm.find with
    | some r =>
      obtain ⟨hf, -, -⟩ := find_eq_some hfind
      rw [hfind] at heq
      obtain ⟨vm, hvm, rfl⟩ := heq
      obtain ⟨vm', hvm', hi⟩ := h.frames.pageFaultHandler hs hv hf hmiss
      rw [hvm, Option.some.injEq] at hvm'
      refine (h.refer hlt r.1).withVm (hvm' ▸ hi) fun g _ hbit => ?_
      rcases pageFaultHandler_bits h.frames hs hf hvm hbit with hold | ⟨-, r', hr', rfl⟩
      · exact Or.inl hold
      · rw [hfind, Option.some.injEq] at hr'
        subst hr'
        exact Or.inr (List.mem_append_right _ (List.mem_singleton_self _))
    | none =>
      rw [hfind] at heq
      dsimp only at heq
      rw [pickVictim_snd hlt] at heq
      obtain ⟨vm, hvm, rfl⟩ := heq
      obtain ⟨vm', hvm', hi⟩ := h.frames.pageFaultHandler hs hv pickVictim_lt hmiss
      rw [hvm, Option.some.injEq] at hvm'
      refine (h.refer hlt _).withVm (hvm' ▸ hi) fun g _ hbit => ?_
      rcases pageFaultHandler_bits h.frames hs pickVictim_lt hvm hbit with hold | ⟨-, r, hr, -⟩
      · exact Or.inl hold
      · rw [hfind] at hr
        cases hr
  · rename_i hin
    simp only [Option.bind_eq_bind, Option.bind_eq_some_iff, Option.pure_def,
      Option.some.injEq] at heq
    have hzero : 0 < numPhysPages := by decide
    obtain ⟨vm, hvm, rfl⟩ := heq
    obtain ⟨vm', hvm', hi⟩ := h.frames.pageFaultHandler hs hv hzero hmiss
    rw [hvm, Option.some.injEq] at hvm'
    refine h.withVm (hvm' ▸ hi) fun g _ hbit => ?_
    rcases pageFaultHandler_bits h.frames hs hzero hvm hbit with hold | ⟨hout, -⟩
    · exact Or.inl hold
    · exact absurd hout hin

/-- An access that can be counted. -/
theorem Recent.access (h : Recent s) (hr : s.vm.InRange addr w)
    (hlt : s.referencesDone < uintMax) (hlt' : s.Absent addr → s.referencesDone + 1 < uintMax)
    (writing : Bool) {attempt : ℕ × Vm → Vm}
    (hattempt : ∀ r : ℕ × Vm, Agrees r.2 (attempt r))
    (heq : (s.translate addr w).afterAttempt addr
      ((s.vm.translate addr w writing).map attempt) = some s') : Recent s' := by
  obtain ⟨htranslated, hcount⟩ := h.translate hr hlt
  have hvm : (s.translate addr w).vm = s.vm := translate_vm addr w
  rcases h.frames.translate_eq hr writing with ⟨hfault, hmiss⟩ | ⟨i, -, -, -, hok⟩
  · rw [hfault] at heq
    obtain ⟨sp, hs, -⟩ := hr.2
    have hv := hr.page_lt hs
    rw [← hvm] at hs hmiss
    refine htranslated.pageFaultHandler hs hv hmiss (fun habsent => ?_) heq
    rw [hcount]
    apply hlt'
    unfold Absent at habsent
    rwa [hvm] at habsent
  · rw [hok] at heq
    rw [← Option.some.inj heq]
    have ha : Agrees s.vm (attempt ((s.vm.tlb i).physicalPage * pageSize + addr % pageSize,
        s.vm.touch i writing)) := agrees_touch.trans (hattempt (_, s.vm.touch i writing))
    refine htranslated.withVm (h.frames.of_agree ha) fun f _ hbit => Or.inl ?_
    rw [ha.bits] at hbit
    rw [hvm]
    exact hbit

/-- What is no access counts nothing. -/
theorem Recent.other {a : Action} (h : Recent s) (ha : s.vm.Allowed a)
    (hstep : s.vm.step a = some vm) (hread : ∀ addr w victim, a ≠ .read addr w victim)
    (hwrite : ∀ addr w value victim, a ≠ .write addr w value victim) :
    Recent { s with vm := vm } :=
  h.withVm (h.frames.step ha hstep) fun _ hf hbit =>
    Or.inl (step_bits hstep hread hwrite hf hbit)

/-- **Every step that can be counted keeps the invariant.** -/
theorem Recent.step {a : Action} (h : Recent s) (ha : s.vm.Allowed a) (hc : s.Counts a)
    (hstep : s.step a = some s') : Recent s' := by
  cases a with
  | read addr w victim =>
    have hread : (s.vm.readMem addr w).map Prod.snd =
        (s.vm.translate addr w false).map Prod.snd := by
      unfold Vm.readMem
      cases s.vm.translate addr w false <;> rfl
    apply h.access ha.1 hc.1 hc.2 false (fun _ => Agrees.refl)
    rw [← hread]
    exact hstep
  | write addr w value victim =>
    have hwrite : s.vm.writeMem addr w value = (s.vm.translate addr w true).map fun r =>
        { r.2 with mainMemory := blit r.2.mainMemory r.1 w.bytes (storeByte value) } := by
      unfold Vm.writeMem
      cases s.vm.translate addr w true <;> rfl
    apply h.access ha.1 hc.1 hc.2 true (fun r => ?_)
    · rw [← hwrite]
      exact hstep
    · exact ⟨rfl, rfl, fun _ => rfl, rfl, rfl, rfl, fun _ _ _ _ _ => rfl, fun _ _ hv => ⟨hv, rfl⟩⟩
  | newThread =>
    have hvm : s.vm.step .newThread = some s.vm.newThread := rfl
    rw [← Option.some.inj hstep]
    exact h.other ha hvm (by intros; simp) (by intros; simp)
  | newSpace t exe =>
    obtain ⟨vm, hvm, heq⟩ := Option.bind_eq_some_iff.mp hstep
    rw [← Option.some.inj heq]
    exact h.other ha hvm (by intros; simp) (by intros; simp)
  | destroy t =>
    obtain ⟨vm, hvm, heq⟩ := Option.bind_eq_some_iff.mp hstep
    rw [← Option.some.inj heq]
    exact h.other ha hvm (by intros; simp) (by intros; simp)
  | switch next =>
    obtain ⟨vm, hvm, heq⟩ := Option.bind_eq_some_iff.mp hstep
    rw [← Option.some.inj heq]
    exact h.other ha hvm (by intros; simp) (by intros; simp)

end Invariant

/-! ## Runs -/

section Runs
variable {data : ℤ → ℕ} {pageTable : ℕ → ℕ → TranslationEntry} {tlb : ℕ → TranslationEntry}
  {coreMap : ℕ → CoreMapEntry} {s : Lru}

theorem Runs.recent {tr : List Unit} (h : Runs (fun s a => s.vm.Allowed a ∧ s.Counts a)
    (Vm.initial data pageTable tlb coreMap) tr s) : Recent s := by
  refine Run.invariant (I := fun _ s => Recent s) (recent_initial data pageTable tlb coreMap) ?_ h
  intro _ s a s' hi hg hstep
  exact hi.step hg.1 hg.2 hstep

/-- **`PickVictim` takes the least recently used frame while the counter does not run over.**  In
every run in which each access finds the counter less than `UINT_MAX`, and
one less than that if its page is not in memory, whenever the access has to evict, every
other frame was referenced since the last reference to the frame that is picked. -/
theorem pickVictim_leastRecent {tr : List Unit} {addr : ℕ} {w : Width}
    (h : Runs (fun s a => s.vm.Allowed a ∧ s.Counts a) (Vm.initial data pageTable tlb coreMap) tr s)
    (hr : s.vm.InRange addr w) (hc : s.Counts (.read addr w 0)) (he : s.Evicts addr w) :
    LeastRecent frames (s.translate addr w).references (s.translate addr w).pickVictim.1 := by
  obtain ⟨htranslated, hcount⟩ := h.recent.translate hr hc.1
  obtain ⟨-, habsent, hfull⟩ := he
  have hlt : (s.translate addr w).referencesDone < uintMax := by
    rw [hcount]
    exact hc.2 habsent
  apply htranslated.recency.leastRecent
  · intro g hg
    apply htranslated.referenced g hg
    rw [translate_vm]
    exact find_eq_none hfull hg
  · exact pickVictim_lt
  · intro g hg
    exact pickVictim_le hlt htranslated.recency.le hg

end Runs

/-! ## All counts start again -/

section Again
variable {s s' : Lru}

instance (s : Lru) (a : Action) : Decidable (s.Counts a) :=
  match a with
  | .read addr _ _ => inferInstanceAs (Decidable
      (s.referencesDone < uintMax ∧ (s.Absent addr → s.referencesDone + 1 < uintMax)))
  | .write addr _ _ _ => inferInstanceAs (Decidable
      (s.referencesDone < uintMax ∧ (s.Absent addr → s.referencesDone + 1 < uintMax)))
  | .newThread => .isTrue trivial
  | .newSpace _ _ => .isTrue trivial
  | .destroy _ => .isTrue trivial
  | .switch _ => .isTrue trivial

/-- The first page of a process of seventeen pages is in frame 0 and in the TLB, and was used; its
last page is not in memory, and no frame is free. -/
def Full (vm : Vm) : Prop :=
  vm.retrievePageEntry 0 = some 0 ∧ (vm.tlb 0).physicalPage = 0 ∧ (vm.tlb 0).readOnly = false ∧
    (vm.tlb 0).use = true ∧ vm.InRange 0 .byte ∧ vm.InRange 2048 .byte ∧
    vm.retrievePageEntry 16 = none ∧ vm.find.isNone = true ∧
    (vm.pageTable vm.currentThread 16).physicalPage = intMax

instance (vm : Vm) : Decidable (Full vm) := by
  unfold Full
  infer_instance

theorem Full.evicts (h : Full s.vm) : s.Evicts 2048 .byte := by
  obtain ⟨-, -, -, -, -, -, hmiss, hfind, habsent⟩ := h
  refine ⟨?_, habsent, Option.isNone_iff_eq_none.mp hfind⟩
  have hvpn : 2048 / pageSize = 16 := rfl
  have haligned : 2048 % Width.byte.bytes = 0 := rfl
  unfold Vm.translate
  rw [haligned, if_neg (by simp), hvpn, hmiss]

/-- The first page is read again: it is counted, and nothing else happens. -/
theorem Full.step (h : Full s.vm) : s.step (.read 0 .byte 0) = some (s.count.refer 0) := by
  obtain ⟨hhit, hframe, hro, huse, -⟩ := h
  have htouch : s.vm.touch 0 false = s.vm := by
    have hentry : { s.vm.tlb 0 with use := true, dirty := (s.vm.tlb 0).dirty || false } =
        s.vm.tlb 0 := by
      rw [Bool.or_false, ← huse]
    unfold touch
    dsimp only
    rw [hentry, Function.update_eq_self]
  have hvpn : 0 / pageSize = 0 := rfl
  have htranslate : s.vm.translate 0 .byte false = .ok (0 * pageSize + 0 % pageSize, s.vm) := by
    unfold Vm.translate
    rw [if_neg (by simp), hvpn, hhit]
    dsimp only
    rw [hro, hframe, htouch]
    rfl
  have hcounted : s.translate 0 .byte = s.count.refer 0 := by
    unfold Lru.translate retrievePageEntry
    rw [if_neg (by simp), hvpn, hhit]
    dsimp only
    rw [hframe]
  have hread : s.vm.readMem 0 .byte =
      .ok (Width.byte.load s.vm.mainMemory (0 * pageSize + 0 % pageSize), s.vm) := by
    unfold Vm.readMem
    rw [htranslate]
    rfl
  unfold Lru.step
  dsimp only
  rw [hcounted, hread]
  rfl

/-- The first page is read `n` times. -/
theorem Full.again {tr : List Unit} (h : Full s.vm)
    (hrun : Runs (fun s a => s.vm.Allowed a) started tr s) (n : ℕ)
    (hn : s.referencesDone + n ≤ uintMax) (hlast : ∃ refs, s.references = refs ++ [0]) :
    ∃ tr' s', Runs (fun s a => s.vm.Allowed a) started tr' s' ∧ s'.vm = s.vm ∧
      s'.referencesDone = s.referencesDone + n ∧ ∃ refs, s'.references = refs ++ [0] := by
  induction n with
  | zero => exact ⟨tr, s, hrun, rfl, rfl, hlast⟩
  | succ n ih =>
    obtain ⟨tr', s', hrun', hvm, hcount, -⟩ := ih (by omega)
    have h' : Full s'.vm := by
      rw [hvm]
      exact h
    have hlt : s'.referencesDone < uintMax := by omega
    refine ⟨_, s'.count.refer 0, hrun'.next (.read 0 .byte 0) ?_ h'.step, hvm, ?_, _, rfl⟩
    · obtain ⟨-, -, -, -, hr, -⟩ := h'
      exact ⟨hr, by decide⟩
    · have hrefer : (s'.count.refer 0).referencesDone = s'.referencesDone + 1 :=
        count_referencesDone hlt
      rw [hrefer, hcount, Nat.add_assoc]

/-- After the reset, all frames look the same and frame 0 comes first. -/
theorem pickVictim_reset (hmax : s.referencesDone = uintMax) : s.pickVictim.1 = 0 := by
  unfold pickVictim
  dsimp only
  rw [if_pos hmax]
  have hround : ∀ n, n < numPhysPages → (List.range (n + 1)).foldl (pickRound fun f =>
      if f < numPhysPages then 0 else s.lastUseCounter f) (uintMax, 0) = (0, 0) := by
    intro n hn
    induction n with
    | zero => rfl
    | succ n ih =>
      rw [List.range_succ, List.foldl_append, ih (by omega), List.foldl_cons, List.foldl_nil]
      exact if_neg (Nat.not_lt_zero _)
  exact congrArg Prod.snd (hround 15 (by decide))

end Again

/-- A process of seventeen pages reads the first sixteen of them, and then the first one again. -/
def sixteenReads : List Action :=
  .newSpace 0 seventeenPages :: (List.range 16).map (fun i => .read (i * pageSize) .byte 0) ++
    [.read 0 .byte 0, .read 0 .byte 0]

theorem play_sixteenReads :
    (play (fun s a => if decide (s.vm.Allowed a ∧ s.Counts a) = true then step s a else none)
      (fun _ _ => ([] : List Unit)) (initial started) sixteenReads).map (fun r =>
        decide (Full r.2.vm ∧ r.2.referencesDone = 34 ∧ r.2.references.getLast? = some 0 ∧
          (r.2.translate 2048 .byte).pickVictim.1 = 1)) = some true := by
  decide +kernel

theorem sixteenReads_full : ∃ tr s,
    Runs (fun s a => s.vm.Allowed a ∧ s.Counts a) started tr s ∧ Full s.vm ∧
      s.referencesDone = 34 ∧ (∃ refs, s.references = refs ++ [0]) ∧
      (s.translate 2048 .byte).pickVictim.1 = 1 := by
  obtain ⟨r, hr, hall⟩ := Option.map_eq_some_iff.mp play_sixteenReads
  obtain ⟨hfull, hcount, hlast, hpick⟩ := of_decide_eq_true hall
  have hrun : Runs (fun s a => s.vm.Allowed a ∧ s.Counts a) started r.1 r.2 :=
    (Run.start.play hr).of_restrict.mono fun _ _ _ h => of_decide_eq_true h
  exact ⟨r.1, r.2, hrun, hfull, hcount, List.getLast?_eq_some_iff.mp hlast, hpick⟩

/-- Before the counter runs over, frame 1 is picked, as it should be. -/
theorem pickVictim_leastRecent_sixteenReads : ∃ s : Lru, s.Evicts 2048 .byte ∧
    LeastRecent frames (s.translate 2048 .byte).references 1 := by
  obtain ⟨tr, s, hrun, hfull, hcount, -, hpick⟩ := sixteenReads_full
  have hr : s.vm.InRange 2048 .byte := by
    obtain ⟨-, -, -, -, -, hr, -⟩ := hfull
    exact hr
  have hc : s.Counts (.read 2048 .byte 0) := by
    unfold Counts
    rw [hcount]
    exact ⟨by decide, fun _ => by decide⟩
  refine ⟨s, hfull.evicts, ?_⟩
  rw [← hpick]
  exact pickVictim_leastRecent hrun hr hc hfull.evicts

/-- **The frame of the page that was read last is evicted.**  The first page is read until
`references_done` is one less than `UINT_MAX`; the lookup of the last page makes it `UINT_MAX`, and
`PickVictim` sets all counts to 0. -/
theorem pickVictim_not_leastRecent : ¬ ∀ tr s addr w,
    Runs (fun s a => s.vm.Allowed a) started tr s → s.vm.InRange addr w → s.Evicts addr w →
      LeastRecent frames (s.translate addr w).references (s.translate addr w).pickVictim.1 := by
  intro hall
  obtain ⟨tr, s, hrun, hfull, hcount, hlast, -⟩ := sixteenReads_full
  obtain ⟨tr', s', hrun', hvm, hcount', refs, hrefs⟩ := hfull.again
    (hrun.mono fun _ _ _ h => h.1) (uintMax - 35) (by rw [hcount]; decide) hlast
  have hfull' : Full s'.vm := by
    rw [hvm]
    exact hfull
  have hbefore : s'.referencesDone + 1 = uintMax := by
    rw [hcount', hcount]
    rfl
  obtain ⟨-, -, -, -, -, hr, hmiss, -⟩ := id hfull'
  have hlookup : s'.translate 2048 .byte = s'.count := by
    have hvpn : 2048 / pageSize = 16 := rfl
    unfold Lru.translate retrievePageEntry
    rw [if_neg (by simp [Width.bytes]), hvpn, hmiss]
  have hmax : (s'.translate 2048 .byte).referencesDone = uintMax := by
    rw [hlookup, count_referencesDone (by omega), hbefore]
  have h := hall tr' s' 2048 .byte hrun' hr hfull'.evicts
  rw [pickVictim_reset hmax, hlookup] at h
  have hreferences : s'.count.references = refs ++ [0] := hrefs
  rw [hreferences] at h
  have hone : 1 ∈ frames := by
    unfold frames
    decide
  exact not_leastRecent_last hone (by decide) h

end Lru
end PaldOs
