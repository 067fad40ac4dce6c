import PaldOs.PagingTransparency
import PaldOs.SystemCalls

/-! # Copying to and from user memory

`WriteBufferToUser` and `ReadBufferFromUser` go through `WriteMem` and `ReadMem` a byte at a
time.  A try that ends in a page fault loads the page, and is made again at most
`NUMBER_OF_TRIES` times; the address goes on only after a try that ends well.  In range the
second try always does, so what the loops do can be said of the flat memory: one copies bytes up
to and with the first zero byte, whatever is asked for after it, and the other all of them.
-/
namespace PaldOs
namespace Vm

/-! ## The bytes a process has -/

/-- **The byte at address `a` of the process of thread `h`**: in the frame of its page, else in the
swap file if the page is dirty, else in the executable. -/
def userByte (k : Vm) (h a : ℕ) : UInt8 :=
  let entry := k.pageTable h (a / pageSize)
  if entry.physicalPage ≠ intMax then k.mainMemory (entry.physicalPage * pageSize + a % pageSize)
  else if entry.dirty then (k.openSwapFile h).byte a
  else ((k.space h).map fun s => image s.exeFile a).getD 0

/-- Address `a` is in the address space of thread `h`. -/
def HasAddress (k : Vm) (h a : ℕ) : Prop :=
  ∃ s, k.space h = some s ∧ a < s.numPages * pageSize

/-- **The bytes of a process are those of its flat memory.** -/
theorem Content.userByte_eq {k : Vm} {mem : ℕ → ℕ → UInt8} (hc : Content k mem)
    (hi : FrameInv k none) {h a : ℕ} (ha : k.HasAddress h a) : k.userByte h a = mem h a := by
  obtain ⟨s, hs, hlt⟩ := ha
  have hsize : 0 < pageSize := by decide
  have hv : a / pageSize < s.numPages := (Nat.div_lt_iff_lt_mul hsize).mpr hlt
  have ho : a % pageSize < pageSize := Nat.mod_lt _ hsize
  have hat : a / pageSize * pageSize + a % pageSize = a := by rw [Nat.mul_comm, Nat.div_add_mod]
  have hentry := hi.entry h s _ hs hv
  unfold userByte
  dsimp only
  split
  · rename_i hin
    have hlt := hentry.2.2.resolve_left hin
    rw [hc.inFrame h _ _ ⟨s, hs, hv, rfl⟩ hlt _ ho, hat]
  · rename_i hout
    have hm : k.Maps h (a / pageSize) intMax := ⟨s, hs, hv, not_not.mp hout⟩
    split
    · rename_i hd
      have := (hc.inSwap h _ hm hd).2 _ ho
      rwa [hat] at this
    · rename_i hd
      -- a page with a slot of the TLB is in a frame
      have hslots : ∀ i, i < tlbSize → (k.tlb i).valid = true → h = k.currentThread →
          (k.tlb i).virtualPage = a / pageSize → (k.tlb i).dirty = false := by
        rintro i hil hiv rfl hvp
        obtain ⟨⟨_, _, _, h1⟩, hlt, -⟩ := hi.slot i hil hiv
        obtain ⟨_, _, _, h2⟩ := hm
        rw [hvp, h2] at h1
        rw [← h1] at hlt
        exact absurd hlt (by decide)
      have := hc.clean h s _ hs hv (by simpa using hd) hslots _ ho
      rw [hat] at this
      rw [hs, this]
      rfl

/-! ## The copying loops -/

/-- `NUMBER_OF_TRIES`. -/
def numberOfTries : ℕ := 3

section Loops
variable (pick : Vm → Fin numPhysPages)

/-- The tries to write one byte, by `Machine::WriteMem`: the next address.  `pick` is the victim of
an eviction. -/
def tryWrite (value : ℤ) : ℕ → ℕ → Vm → Option (ℕ × Vm)
  | 0, userAddress, k => some (userAddress, k)
  | tries + 1, userAddress, k =>
      match k.writeMem userAddress .byte value with
      | .ok k => some (userAddress + 1, k)
      | .error .pageFault => do
          let k ← k.pageFaultHandler userAddress (pick k)
          tryWrite value tries userAddress k
      | .error _ => none

/-- The tries to read one byte, by `Machine::ReadMem`: `temp` after them, and the next address. -/
def tryRead (temp : ℤ) : ℕ → ℕ → Vm → Option (ℤ × ℕ × Vm)
  | 0, userAddress, k => some (temp, userAddress, k)
  | tries + 1, userAddress, k =>
      match k.readMem userAddress .byte with
      | .ok (value, k) => some (value, userAddress + 1, k)
      | .error .pageFault => do
          let k ← k.pageFaultHandler userAddress (pick k)
          tryRead temp tries userAddress k
      | .error _ => none

/-- The loop of `WriteBufferToUser`, with byte `i` of the buffer next and `left` to go.  The value
is an `int` read from the buffer, of which `WriteMem` takes the first byte. -/
def writeLoop (buffer : ℕ → UInt8) : ℕ → ℕ → ℕ → Vm → Option Vm
  | 0, _, _, k => some k
  | left + 1, i, userAddress, k => do
      let (userAddress, k) ← tryWrite pick (Width.word.load buffer i) numberOfTries userAddress k
      if buffer i ≠ 0 then writeLoop buffer left (i + 1) userAddress k else return k

/-- `WriteBufferToUser`. -/
def writeBufferToUser (buffer : ℕ → UInt8) (userAddress byteCount : ℕ) (k : Vm) : Option Vm :=
  if userAddress ≠ 0 ∧ 0 < byteCount ∧ byteCount ≤ SystemCalls.lsdirOutput then
    writeLoop pick buffer byteCount 0 userAddress k
  else none

/-- The loop of `ReadBufferFromUser`, with `left` bytes to go. -/
def readLoop : ℕ → ℤ → ℕ → Vm → Option (List UInt8 × Vm)
  | 0, _, _, k => some ([], k)
  | left + 1, temp, userAddress, k => do
      let (temp, userAddress, k) ← tryRead pick temp numberOfTries userAddress k
      let (bytes, k) ← readLoop left temp userAddress k
      return (storeByte temp 0 :: bytes, k)

/-- `ReadBufferFromUser`: what it leaves in `outBuffer`, with a zero byte at the end.  `temp` is not
set at first. -/
def readBufferFromUser (temp : ℤ) (userAddress byteCount : ℕ) (k : Vm) :
    Option (List UInt8 × Vm) := do
  if userAddress ≠ 0 ∧ 0 < byteCount ∧ byteCount ≤ SystemCalls.lsdirOutput then
    let (bytes, k) ← readLoop pick byteCount temp userAddress k
    return (bytes ++ [0], k)
  else none

end Loops

/-! ## One byte -/

/-- A byte comes back from what is the same modulo 256. -/
theorem storeByte_of_emod {value : ℤ} {b : UInt8} (h : value % 256 = b.toNat) :
    storeByte value 0 = b := by
  rw [storeByte, pow_zero, Int.ediv_one, h, Int.toNat_natCast, UInt8.ofNat_toNat]

/-- The first byte of a word. -/
theorem storeByte_word (buffer : ℕ → UInt8) (i : ℕ) :
    storeByte (Width.word.load buffer i) 0 = buffer i := by
  apply storeByte_of_emod
  have hlt := (buffer i).toNat_lt
  unfold Width.load
  rw [← Int.emod_emod_of_dvd _ (show (256 : ℤ) ∣ (2 ^ 32 : ℕ) by decide), Int.bmod_emod,
    Int.emod_emod_of_dvd _ (by decide)]
  omega

theorem storeByte_byte (memory : ℕ → UInt8) (a : ℕ) :
    storeByte (Width.byte.load memory a) 0 = memory a := by
  apply storeByte_of_emod
  have hlt := (memory a).toNat_lt
  unfold Width.load
  have hmod : Int.bmod (memory a).toNat 256 % (256 : ℕ) = (memory a).toNat % (256 : ℕ) :=
    Int.bmod_emod
  dsimp only
  omega

/-- Nothing has changed but what is in memory. -/
structure SameSpaces (k k' : Vm) : Prop where
  current : k'.currentThread = k.currentThread
  space : ∀ h, k'.space h = k.space h

theorem SameSpaces.trans {k k₁ k₂ : Vm} (h : SameSpaces k k₁) (h' : SameSpaces k₁ k₂) :
    SameSpaces k k₂ :=
  ⟨h'.current.trans h.current, fun t => (h'.space t).trans (h.space t)⟩

theorem SameSpaces.hasAddress {k k' : Vm} (h : SameSpaces k k') {t a : ℕ} :
    k'.HasAddress t a ↔ k.HasAddress t a := by
  simp only [HasAddress, h.space]

/-- A write that ends well is one through the TLB. -/
theorem writeMem_sameSpaces {k k' : Vm} {addr : ℕ} {w : Width} {value : ℤ}
    (h : k.writeMem addr w value = .ok k') : SameSpaces k k' := by
  unfold writeMem translate at h
  split at h
  · cases h
  · split at h
    · cases h
    · dsimp only at h
      split at h
      · cases h
      · split at h
        · cases h
        · cases h
          exact ⟨rfl, fun _ => rfl⟩

/-- The handler keeps the address spaces. -/
theorem FrameInv.handled_sameSpaces {k k' : Vm} (hi : FrameInv k none) {addr victim : ℕ}
    {w : Width} (hr : k.InRange addr w) (hvictim : victim < numPhysPages)
    (hmiss : k.Misses (addr / pageSize)) (h : k.pageFaultHandler addr victim = some k') :
    SameSpaces k k' := by
  obtain ⟨s, hs, -⟩ := hr.2
  obtain ⟨t, k1, k2, -, -, hl, heq⟩ := hi.handler_cases hs (hr.page_lt hs) hvictim hmiss
  rw [heq, Option.some.injEq] at h
  subst h
  refine ⟨hl.fillSlot_space.1, fun u => ?_⟩
  have ht := hl.thread
  by_cases hu : u = k.currentThread
  · rw [hu]
    exact hl.fillSlot_space.2
  · have hne : u ≠ k2.currentThread := by rwa [hl.current]
    have hthread : (k2.fillSlot t (addr / pageSize)).thread u = k2.thread u := by
      simp only [Vm.fillSlot, Function.update_of_ne hne]
      split <;> rfl
    rw [Vm.space, hthread, hl.threads, Vm.space]

/-- A relation to flat memories in which writes can be followed.  `Content` is one, and so is the
relation that says nothing. -/
class Follows (C : Vm → (ℕ → ℕ → UInt8) → Prop) : Prop where
  written : ∀ {k mem addr w} (value : ℤ), FrameInv k none → C k mem → k.InRange addr w →
    (∃ k', k.writeMem addr w value = .ok k' ∧ k'.currentThread = k.currentThread ∧
        FrameInv k' none ∧ C k' (Function.update mem k.currentThread
          (blit (mem k.currentThread) addr w.bytes (storeByte value)))) ∨
      (k.writeMem addr w value = .error .pageFault ∧ k.Misses (addr / pageSize))
  handled : ∀ {k mem addr w victim}, FrameInv k none → C k mem → k.InRange addr w →
    victim < numPhysPages → k.Misses (addr / pageSize) →
    ∃ k', k.pageFaultHandler addr victim = some k' ∧ k'.currentThread = k.currentThread ∧
      FrameInv k' none ∧ C k' mem ∧ k'.InRange addr w ∧ ¬ k'.Misses (addr / pageSize)

instance : Follows Content where
  written value hi hc hr := hc.writeMem_cases hi hr value
  handled hi hc hr hvictim hmiss := hi.handled hc hr hvictim hmiss

/-- Without looking at the bytes. -/
def Blind (_ : Vm) (_ : ℕ → ℕ → UInt8) : Prop := True

instance : Follows Blind where
  written value hi _ hr := by
    rcases hi.writeMem_cases hr value with ⟨i, -, -, -, hok, hi'⟩ | hmiss
    · exact Or.inl ⟨_, hok, rfl, hi', trivial⟩
    · exact Or.inr hmiss
  handled hi _ hr hvictim hmiss := by
    obtain ⟨k', heq, hcur, hi', hr', hhit⟩ := hi.handler_ends hr hvictim hmiss
    exact ⟨k', heq, hcur, hi', trivial, hr', hhit⟩

section Copy
variable {pick : Vm → Fin numPhysPages} {k : Vm} {mem : ℕ → ℕ → UInt8} {a : ℕ}
  {C : Vm → (ℕ → ℕ → UInt8) → Prop}

theorem HasAddress.inRange (h : k.HasAddress k.currentThread a) : k.InRange a .byte :=
  ⟨Nat.mod_one a, h⟩

/-- **One byte is written**, at the first try or after a page fault at the second. -/
theorem tryWrite_ends [Follows C] (hi : FrameInv k none) (hc : C k mem)
    (ha : k.HasAddress k.currentThread a) (value : ℤ) :
    ∃ k', tryWrite pick value numberOfTries a k = some (a + 1, k') ∧ SameSpaces k k' ∧
      FrameInv k' none ∧ C k' (Function.update mem k.currentThread
        (Function.update (mem k.currentThread) a (storeByte value 0))) := by
  have hblit : ∀ memory : ℕ → UInt8, blit memory a Width.byte.bytes (storeByte value) =
      Function.update memory a (storeByte value 0) := by
    intro memory
    funext x
    have hone : Width.byte.bytes = 1 := rfl
    rw [blit, hone]
    by_cases hx : x = a
    · rw [if_pos (by omega), hx, Nat.sub_self, Function.update_self]
    · rw [if_neg (by omega), Function.update_of_ne hx]
  rcases Follows.written value hi hc ha.inRange with ⟨k', hok, -, hi', hc'⟩ | ⟨hfault, hmiss⟩
  · refine ⟨k', ?_, writeMem_sameSpaces hok, hi', by rwa [hblit] at hc'⟩
    simp only [numberOfTries, tryWrite, hok]
  · obtain ⟨k₁, hhandler, hcur, hi₁, hc₁, hr₁, hhit⟩ :=
      Follows.handled hi hc ha.inRange (pick k).isLt hmiss
    have hsame := hi.handled_sameSpaces ha.inRange (pick k).isLt hmiss hhandler
    obtain ⟨k', hok, -, hi', hc'⟩ :=
      (Follows.written value hi₁ hc₁ hr₁).resolve_right fun h => hhit h.2
    rw [hcur, hblit] at hc'
    refine ⟨k', ?_, hsame.trans (writeMem_sameSpaces hok), hi', hc'⟩
    simp only [numberOfTries, tryWrite, hfault, hhandler, hok, Option.bind_eq_bind,
      Option.bind_some]

/-- **One byte is read** in the same way. -/
theorem tryRead_ends (hi : FrameInv k none) (hc : Content k mem)
    (ha : k.HasAddress k.currentThread a) (temp : ℤ) :
    ∃ k', tryRead pick temp numberOfTries a k =
        some (Width.byte.load (mem k.currentThread) a, a + 1, k') ∧ SameSpaces k k' ∧
      FrameInv k' none ∧ Content k' mem := by
  rcases hc.readMem_cases hi ha.inRange with ⟨i, hok⟩ | ⟨hfault, hmiss⟩
  · refine ⟨k.touch i false, ?_, ⟨rfl, fun _ => rfl⟩, hi.of_agree agrees_touch, hc.touch⟩
    simp only [numberOfTries, tryRead, hok]
  · obtain ⟨k₁, hhandler, hcur, hi₁, hc₁, hr₁, hhit⟩ :=
      hi.handled hc ha.inRange (pick k).isLt hmiss
    have hsame := hi.handled_sameSpaces ha.inRange (pick k).isLt hmiss hhandler
    obtain ⟨i, hok⟩ := (hc₁.readMem_cases hi₁ hr₁).resolve_right fun h => hhit h.2
    rw [hcur] at hok
    refine ⟨k₁.touch i false, ?_, hsame.trans ⟨rfl, fun _ => rfl⟩, hi₁.of_agree agrees_touch,
      hc₁.touch⟩
    simp only [numberOfTries, tryRead, hfault, hhandler, hok, Option.bind_eq_bind,
      Option.bind_some]

end Copy

/-! ## The loops -/

/-- **The memory after `n` bytes of the buffer are copied to it**, up to the first zero byte. -/
def copied (memory buffer : ℕ → UInt8) (start n : ℕ) : ℕ → UInt8 := fun x =>
  if start ≤ x ∧ x < start + n ∧ ∀ z, z < x - start → buffer z ≠ 0 then buffer (x - start)
  else memory x

theorem copied_zero (memory buffer : ℕ → UInt8) (start : ℕ) :
    copied memory buffer start 0 = memory := by
  funext x
  exact if_neg (by omega)

/-- A turn of the loop. -/
theorem copied_succ (memory buffer : ℕ → UInt8) (start n : ℕ) :
    copied memory buffer start (n + 1) =
      if buffer 0 ≠ 0 then
        copied (Function.update memory start (buffer 0)) (fun z => buffer (z + 1)) (start + 1) n
      else Function.update memory start (buffer 0) := by
  funext x
  have hstart : copied memory buffer start (n + 1) start = buffer 0 := by
    have hhere : start ≤ start ∧ start < start + (n + 1) ∧
        ∀ z, z < start - start → buffer z ≠ 0 := ⟨le_rfl, by omega, fun z hz => by omega⟩
    rw [copied, if_pos hhere, Nat.sub_self]
  by_cases hx : x = start
  · subst hx
    rw [hstart]
    split
    · rw [copied, if_neg (by omega), Function.update_self]
    · rw [Function.update_self]
  by_cases hzero : buffer 0 = 0
  · rw [if_neg (not_not.mpr hzero), Function.update_of_ne hx, copied, if_neg]
    rintro ⟨h1, -, h3⟩
    exact h3 0 (by omega) hzero
  · rw [if_pos hzero, copied, copied, Function.update_of_ne hx]
    by_cases hin : start < x
    · have heq : x - start = x - (start + 1) + 1 := by omega
      rw [heq]
      refine if_congr ?_ rfl rfl
      constructor
      · rintro ⟨-, h2, h3⟩
        exact ⟨by omega, by omega, fun z hz => h3 (z + 1) (by omega)⟩
      · rintro ⟨-, h2, h3⟩
        refine ⟨by omega, by omega, fun z hz => ?_⟩
        cases z with
        | zero => exact hzero
        | succ z => exact h3 z (by omega)
    · rw [if_neg (by omega), if_neg (by omega)]

section Loops
variable {pick : Vm → Fin numPhysPages} {k : Vm} {mem : ℕ → ℕ → UInt8} {a n : ℕ}
  {C : Vm → (ℕ → ℕ → UInt8) → Prop}

/-- All of `n` bytes from address `a` on are in the address space of the running thread. -/
def HasRange (k : Vm) (a n : ℕ) : Prop :=
  ∀ i, i < n → k.HasAddress k.currentThread (a + i)

theorem HasRange.next (h : k.HasRange a (n + 1)) {k' : Vm} (hs : SameSpaces k k') :
    k'.HasRange (a + 1) n := by
  intro i hi
  rw [hs.current, hs.hasAddress, Nat.add_assoc, Nat.add_comm 1 i]
  exact h (i + 1) (by omega)

/-- **The loop of `WriteBufferToUser`.** -/
theorem writeLoop_ends [Follows C] (hi : FrameInv k none) (hc : C k mem) (hr : k.HasRange a n)
    (buffer : ℕ → UInt8) (i : ℕ) :
    ∃ k', writeLoop pick buffer n i a k = some k' ∧ SameSpaces k k' ∧ FrameInv k' none ∧
      C k' (Function.update mem k.currentThread
        (copied (mem k.currentThread) (fun z => buffer (z + i)) a n)) := by
  induction n generalizing k mem a i with
  | zero =>
    refine ⟨k, rfl, ⟨rfl, fun _ => rfl⟩, hi, ?_⟩
    rw [copied_zero, Function.update_eq_self]
    exact hc
  | succ n ih =>
    have ha : k.HasAddress k.currentThread a := hr 0 (by omega)
    obtain ⟨k₁, hwrite, hs₁, hi₁, hc₁⟩ :
        ∃ k₁, tryWrite pick (Width.word.load buffer i) numberOfTries a k = some (a + 1, k₁) ∧ _ :=
      tryWrite_ends hi hc ha _
    rw [storeByte_word] at hc₁
    have hstep : writeLoop pick buffer (n + 1) i a k =
        if buffer i ≠ 0 then writeLoop pick buffer n (i + 1) (a + 1) k₁ else some k₁ := by
      rw [writeLoop, hwrite]
      rfl
    rw [hstep, copied_succ, Nat.zero_add]
    split
    · obtain ⟨k', hloop, hs', hi', hc'⟩ := ih hi₁ hc₁ (hr.next hs₁) (i + 1)
      refine ⟨k', hloop, hs₁.trans hs', hi', ?_⟩
      rw [hs₁.current, Function.update_self, Function.update_idem] at hc'
      simpa only [Nat.add_right_comm _ 1 i, Nat.add_assoc] using hc'
    · exact ⟨k₁, rfl, hs₁, hi₁, hc₁⟩

/-- **The loop of `ReadBufferFromUser`.** -/
theorem readLoop_ends (hi : FrameInv k none) (hc : Content k mem) (hr : k.HasRange a n)
    (temp : ℤ) :
    ∃ k', readLoop pick n temp a k =
        some ((List.range n).map fun i => mem k.currentThread (a + i), k') := by
  induction n generalizing k a temp with
  | zero => exact ⟨k, rfl⟩
  | succ n ih =>
    have ha : k.HasAddress k.currentThread a := hr 0 (by omega)
    obtain ⟨k₁, hread, hs₁, hi₁, hc₁⟩ : ∃ k₁, tryRead pick temp numberOfTries a k =
        some (Width.byte.load (mem k.currentThread) a, a + 1, k₁) ∧ _ :=
      tryRead_ends hi hc ha temp
    obtain ⟨k', hloop⟩ := ih hi₁ hc₁ (hr.next hs₁) (Width.byte.load (mem k.currentThread) a)
    refine ⟨k', ?_⟩
    simp only [readLoop, hread, hloop, Option.bind_eq_bind, Option.bind_some, storeByte_byte,
      hs₁.current]
    simp [List.range_succ_eq_map, Nat.add_assoc, Nat.add_comm 1, Function.comp_def]

/-- **`WriteBufferToUser`** changes the bytes of the running process that it copies to. -/
theorem writeBufferToUser_ends (hi : FrameInv k none) (hc : Content k mem) (hr : k.HasRange a n)
    (ha : a ≠ 0) (hn : 0 < n) (hn' : n ≤ SystemCalls.lsdirOutput) (buffer : ℕ → UInt8) :
    ∃ k', writeBufferToUser pick buffer a n k = some k' ∧ SameSpaces k k' ∧ FrameInv k' none ∧
      (∃ mem', Content k' mem') ∧ ∀ h x, k.HasAddress h x → k'.userByte h x =
        if h = k.currentThread then copied (k.userByte h) buffer a n x else k.userByte h x := by
  obtain ⟨k', hloop, hs, hi', hc'⟩ := writeLoop_ends hi hc hr buffer 0
  refine ⟨k', ?_, hs, hi', ⟨_, hc'⟩, fun h x hx => ?_⟩
  · rw [writeBufferToUser, if_pos ⟨ha, hn, hn'⟩]
    exact hloop
  · rw [hc'.userByte_eq hi' (hs.hasAddress.mpr hx)]
    by_cases hh : h = k.currentThread
    · subst hh
      rw [if_pos rfl, Function.update_self, copied, copied, hc.userByte_eq hi hx]
      rfl
    · rw [if_neg hh, Function.update_of_ne hh, hc.userByte_eq hi hx]

/-- **`ReadBufferFromUser`** returns the bytes of the running process. -/
theorem readBufferFromUser_ends (hi : FrameInv k none) (hc : Content k mem) (hr : k.HasRange a n)
    (ha : a ≠ 0) (hn : 0 < n) (hn' : n ≤ SystemCalls.lsdirOutput) (temp : ℤ) :
    ∃ k', readBufferFromUser pick temp a n k =
      some ((List.range n).map (fun i => k.userByte k.currentThread (a + i)) ++ [0], k') := by
  obtain ⟨k', hloop⟩ := readLoop_ends hi hc hr temp
  refine ⟨k', ?_⟩
  have hbytes : (List.range n).map (fun i => k.userByte k.currentThread (a + i)) =
      (List.range n).map fun i => mem k.currentThread (a + i) := by
    refine List.map_congr_left fun i hi' => ?_
    exact hc.userByte_eq hi (hr i (List.mem_range.mp hi'))
  rw [readBufferFromUser, if_pos ⟨ha, hn, hn'⟩, hloop, hbytes]
  rfl

/-- **What comes back is what went out exactly if** every byte after a zero byte was in user memory
already. -/
theorem copy_round_trip (hi : FrameInv k none) (hc : Content k mem) (hr : k.HasRange a n)
    (ha : a ≠ 0) (hn : 0 < n) (hn' : n ≤ SystemCalls.lsdirOutput) (buffer : ℕ → UInt8) (temp : ℤ) :
    ∃ k₁ k₂ outBuffer, writeBufferToUser pick buffer a n k = some k₁ ∧
      readBufferFromUser pick temp a n k₁ = some (outBuffer, k₂) ∧
      (outBuffer = (List.range n).map buffer ++ [0] ↔
        ∀ i, i < n → (∃ z, z < i ∧ buffer z = 0) →
          k.userByte k.currentThread (a + i) = buffer i) := by
  obtain ⟨k₁, hwrite, hs, hi₁, ⟨mem₁, hc₁⟩, hbyte⟩ :=
    writeBufferToUser_ends hi hc hr ha hn hn' buffer
  have hr₁ : k₁.HasRange a n := by
    intro i hin
    rw [hs.current, hs.hasAddress]
    exact hr i hin
  obtain ⟨k₂, hread⟩ := readBufferFromUser_ends hi₁ hc₁ hr₁ ha hn hn' temp
  refine ⟨k₁, k₂, _, hwrite, hread, ?_⟩
  rw [List.append_cancel_right_eq, List.map_inj_left]
  refine forall_congr' fun i => ?_
  rw [List.mem_range]
  refine imp_congr_right fun hin => ?_
  rw [hs.current, hbyte _ _ (hr i hin), if_pos rfl, copied, Nat.add_sub_cancel_left]
  by_cases hzero : ∃ z, z < i ∧ buffer z = 0
  · obtain ⟨z, hz, hz0⟩ := hzero
    rw [if_neg fun h => h.2.2 z hz hz0]
    exact ⟨fun h _ => h, fun h => h ⟨z, hz, hz0⟩⟩
  · rw [if_pos ⟨by omega, by omega, fun z hz h0 => hzero ⟨z, hz, h0⟩⟩]
    exact ⟨fun _ h => absurd h hzero, fun _ => rfl⟩

end Loops

end Vm
end PaldOs
