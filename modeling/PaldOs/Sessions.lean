import PaldOs.Removing

/-! # Sessions

A single thread uses the file system: it makes one call after the other, and keeps the open files
it got from `Open` until it closes them.  Files that are not directories are in good order,
since they are only written from where their open files are: that is the discipline `strict`.
-/
namespace PaldOs

open Sys

/-! ## Files written in order -/

section Cursor
variable {disk disk' : ℕ → Sector} {hs hs' : List ℕ} {o : OpenFile} {p : ℕ}

/-- An open file stays where it is when the file grows. -/
theorem CursorAt.grow (hcur : CursorAt disk hs o p) (hok : FileOk disk hs) (hok' : FileOk disk' hs')
    (hchain : hs <+: hs') (hlen : fileLength disk hs ≤ fileLength disk' hs') :
    CursorAt disk' hs' o p := by
  obtain ⟨i, hi, hcurrent, hp, hseek⟩ := hcur
  have hle := hchain.length_le
  refine ⟨i, by omega, hcurrent.trans (getD_of_chain hchain hi).symm, hp, ?_⟩
  by_cases hlast : i + 1 < hs'.length
  · rw [hok'.full i hlast]
    exact hseek.trans (hok.headers i hi).numBytes_le
  · -- the last header of both
    have hsame : hs'.length = hs.length := by omega
    have hi' : i = hs.length - 1 := by omega
    rw [fileLength, fileLength, hsame, ← hi'] at hlen
    omega

theorem CursorAt.congr (hcur : CursorAt disk hs o p)
    (h : ∀ i, i < hs.length → headerOf disk' hs i = headerOf disk hs i) :
    CursorAt disk' hs o p := by
  obtain ⟨i, hi, hcurrent, hp, hseek⟩ := hcur
  exact ⟨i, hi, hcurrent, hp, by rw [h i hi]; exact hseek⟩

/-- Where an open file is. -/
def positionOf (hs : List ℕ) (o : OpenFile) : ℕ :=
  headerBytes * hs.idxOf o.currentSector + o.seekPosition

theorem CursorAt.position_eq (hcur : CursorAt disk hs o p) (hf : Sound disk hs) :
    positionOf hs o = p := by
  obtain ⟨i, hi, hcurrent, hp, -⟩ := hcur
  have hindex : hs.idxOf o.currentSector = i := by
    rw [hcurrent, List.getD_eq_getElem _ _ hi]
    exact hf.nodup.idxOf_getElem i hi
  rw [positionOf, hindex, hp]

end Cursor

/-- **Files in good order**, with the open files somewhere in them. -/
def Discipline.strict : Discipline where
  ok := FileOk
  cursor disk hs o := ∃ p, CursorAt disk hs o p
  ok_of_fileOk _ _ h := h
  ok_congr _ _ _ _ hsame hok := hok.congr hsame
  cursor_congr _ _ _ _ _ hsame hcur := by
    obtain ⟨p, hcur⟩ := hcur
    exact ⟨p, hcur.congr fun i hi => headerOf_of_uses hsame hi⟩
  cursor_new _ _ _ hf _ := ⟨0, 0, hf.pos, rfl, rfl, Nat.zero_le _⟩

section Writing
variable {V : Volume} {s : System} {f h n p : ℕ} {chain : List ℕ}

/-- A file that is not a directory changes, and the tree does not. -/
theorem TreeOk.putRegular (ht : TreeOk V) (hi : V.files h = some ⟨chain, none⟩) {V' : Volume}
    {chain' : List ℕ} (hself : V'.files h = some ⟨chain', none⟩)
    (hother : ∀ h', h' ≠ h → V'.files h' = V.files h') :
    TreeOk V' ∧ (∀ h' q, V'.slot h' q = V.slot h' q) ∧ ∀ h', V'.kind h' = V.kind h' := by
  have hslot : ∀ h' q, V'.slot h' q = V.slot h' q := by
    intro h' q
    rcases eq_or_ne h' h with rfl | hne
    · rw [slot_of_regular hself, slot_of_regular hi]
    · rw [Volume.slot, hother h' hne, Volume.slot]
  have hkind : ∀ h', V'.kind h' = V.kind h' := by
    intro h'
    rcases eq_or_ne h' h with rfl | hne
    · rw [kind_of_files hself, kind_of_files hi]
    · rw [Volume.kind, hother h' hne, Volume.kind]
  refine ⟨ht.of_slots hslot hkind fun h' chain₁ t₁ hi₁ => ?_, hslot, hkind⟩
  have hne : h' ≠ h := by
    rintro rfl
    rw [hself] at hi₁
    cases hi₁
  rw [hother h' hne] at hi₁
  exact ht.long h' chain₁ t₁ hi₁

/-- After `k` of `n` bytes are written at byte `p` of the file at `h`. -/
structure Wrote (V : Volume) (s : System) (f h : ℕ) (chain : List ℕ) (p : ℕ) (src : ℕ → UInt8)
    (n k : ℕ) (V' : Volume) (s' : System) : Prop where
  ready : Ready .strict V' s'
  map : V'.map = V.map
  handles : V'.handles = V.handles
  extra : V'.extra = V.extra
  slot : ∀ h' q, V'.slot h' q = V.slot h' q
  kind : ∀ h', V'.kind h' = V.kind h'
  other : ∀ h', h' ≠ h → V'.files h' = V.files h'
  freeMapFile : s'.freeMapFile = s.freeMapFile
  directoryFile : s'.directoryFile = s.directoryFile
  directorySize : s'.directorySize = s.directorySize
  createLock : s'.held filesysCreateLock = s.held filesysCreateLock
  roomy : Roomy s.disk chain (mapOn s.disk V.map) p n → ∀ x, V'.leaked x → V.leaked x
  ample : Ample s.disk chain (mapOn s.disk V.map) p n → k = n
  count : Roomy s.disk chain (mapOn s.disk V.map) p n → ∀ chain', V'.files h = some ⟨chain', none⟩ →
    (mapOn s'.disk V.map).countClear + (sectorCount s'.disk chain' + chain'.length) =
      (mapOn s.disk V.map).countClear + (sectorCount s.disk chain + chain.length)
  file : ∃ chain', V'.files h = some ⟨chain', none⟩ ∧ Holds s.disk chain p src k s'.disk chain' ∧
    CursorAt s'.disk chain' (s'.openFile f) (p + k)
  grown : ∃ chain' reserved, V'.files h = some ⟨chain', none⟩ ∧
    Grown V s.disk chain s'.disk chain' reserved ∧
    (Roomy s.disk chain (mapOn s.disk V.map) p n ↔ reserved = []) ∧
    ∀ x ∈ reserved, x < numSectors ∧ V'.leaked x

/-- A `Write` that takes sectors in vain loses them. -/
theorem Wrote.wasteful {src : ℕ → UInt8} {k : ℕ} {V' : Volume} {s' : System}
    (hw : Wrote V s f h chain p src n k V' s')
    (hwaste : Wasteful s.disk chain (mapOn s.disk V.map) p n) :
    ∃ x, x < numSectors ∧ V'.leaked x := by
  obtain ⟨chain', reserved, -, -, hroomy, hlost⟩ := hw.grown
  obtain ⟨x, hx⟩ := List.exists_mem_of_ne_nil _ fun hnil => hwaste.not_roomy (hroomy.mpr hnil)
  exact ⟨x, hlost x hx⟩

/-- What `write_ends` asks for of a file of a volume. -/
theorem DiskOk.stored {D : Discipline} (hd : DiskOk D V s.disk) {i : FileInfo}
    (hi : V.files h = some i) (hok : FileOk s.disk i.chain) :
    Stored V.map s.disk i.chain (mapOn s.disk V.map) :=
  ⟨hok, fun _ _ => rfl,
    fun _ hx => (hd.owned_marked ⟨h, i, hi, hok.owned_iff_uses.mp hx⟩).2, hd.map_marked,
    fun hx => (hd.reserved h i hi).2 (hok.owned_iff_uses.mp hx), hd.zero_marked⟩

/-- The lock of a file that is open is there, and is free. -/
theorem HandlesOk.writeLock_free {D : Discipline} (hh : HandlesOk D V s) (hf : (f, h) ∈ V.handles) :
    ∃ l, (s.openFilesTable h).writeLock = some l ∧ s.held l = false := by
  have hcount : (s.openFilesTable h).count ≠ 0 := by
    rw [hh.counts h]
    have hpos : 0 < V.handles.countP (fun p => p.2 == h) :=
      List.countP_pos_iff.mpr ⟨(f, h), hf, by simp⟩
    omega
  obtain ⟨l, hl⟩ := (hh.locked h hcount).write
  refine ⟨l, hl, hh.locks.free l ?_⟩
  rintro rfl
  exact hh.locks.writeLock h hl

/-- **`Write`** to a file of a volume. -/
theorem Ready.write (hr : Ready .strict V s) (hf : (f, h) ∈ V.handles)
    (hi : V.files h = some ⟨chain, none⟩) (hcur : CursorAt s.disk chain (s.openFile f) p)
    (hn : 0 < n) (src : ℕ → UInt8) :
    s.Ends (OpenFile.write f src n false)
      (fun k s' => ∃ V', Wrote V s f h chain p src n k V' s') := by
  have hd := hr.disk
  have hok : FileOk s.disk chain := (hd.file h _ hi).regular rfl
  have hsome : (V.files h).isSome = true := by
    rw [hi]
    rfl
  have hne := hr.ne_freeMapFile hf hsome
  have hsec := hr.handles.sector f h hf
  obtain ⟨l, hl, hfree⟩ := hr.handles.writeLock_free hf
  have hrewound : CursorAt s.disk chain ((s.openFile f).rewound false) p := hcur
  refine (write_ends hr.handles.freeMap hne (hd.stored hi hok) (by rw [hsec]; exact hl) hfree
    hrewound hn).mono ?_
  rintro k _ ⟨map₀, disk', chain', freeMap, reserved, o, rfl, hosec, hmap, hout, hroomy, -, -,
    hample, -⟩
  have hp := hout.progress
  have hg := hp.grown hok hmap
  have hhead : chain'.getD 0 0 = h :=
    (getD_of_chain hp.chain hok.pos).trans (hd.file h _ hi).head
  have hnew : FileOn .strict disk' h ⟨chain', none⟩ := .ofRegular hhead hp.ok.sound hp.ok
  have hself : (V.grown h ⟨chain', none⟩ reserved).files h = some ⟨chain', none⟩ := put_files_self
  have hother : ∀ h', h' ≠ h → (V.grown h ⟨chain', none⟩ reserved).files h' = V.files h' :=
    fun h' hne' => put_files_of_ne hne'
  obtain ⟨htree, hslot, hkind⟩ := hr.tree.putRegular hi hself hother
  have hlen : fileLength s.disk chain ≤ fileLength disk' chain' := by
    rw [hout.holds.length]
    exact Nat.le_max_left ..
  refine ⟨V.grown h ⟨chain', none⟩ reserved, ⟨hd.grow hi hg hnew, htree, ?_⟩, rfl, rfl, rfl, hslot,
    hkind, hother, rfl, rfl, rfl, rfl, fun hr' x hx => ?_, hample,
    fun hr' chain₁ hi₁ => ?_, ⟨chain', hself, hout.holds, ?_⟩,
    ⟨chain', reserved, hself, hg, hroomy, fun x hx => ⟨hp.reserved_lt x hx, Or.inr hx⟩⟩⟩
  · refine hr.handles.grow hd hf hi hg (hosec.trans hsec) fun _ g hg' => ?_
    rcases eq_or_ne g f with rfl | hgf
    · rw [System.writing_self]
      exact ⟨_, hout.cursor⟩
    · have hopen : (s.writing f disk' o).openFile g = s.openFile g := Function.update_of_ne hgf ..
      obtain ⟨q, hq⟩ := hr.handles.cursor g h chain hg' hi
      rw [hopen]
      exact ⟨q, hq.grow hok hp.ok hp.chain hlen⟩
  · rw [hroomy.mp hr'] at hx
    exact hx.elim id fun hc => nomatch hc
  · have hchain : chain₁ = chain' := by
      rw [hself, Option.some.injEq, FileInfo.mk.injEq] at hi₁
      exact hi₁.1.symm
    have hcount := hp.free
    rw [hroomy.mp hr', List.length_nil, Nat.add_zero, Bitmap.countClear_congr hmap,
      ← Bitmap.countClear_congr hp.onDisk] at hcount
    rw [hchain]
    exact hcount
  · rw [System.writing_self]
    exact hout.cursor

end Writing

/-! ## Calls -/

/-- The calls a thread makes.  Between two of them the memory that new tables get may become other
memory, with what was left in it. -/
inductive Call where
  | create (name : List UInt8)
  | createDir (name : List UInt8)
  | changeDir (name : List UInt8)
  | openFile (name : List UInt8)
  | write (f : ℕ) (src : ℕ → UInt8) (n : ℕ)
  | close (f : ℕ)
  | remove (name : List UInt8)
  | removeDir (name : List UInt8)
  | reuse (heap : ℕ → UInt8)

/-- The file system and the open files the thread has. -/
structure World where
  sys : System
  handles : List ℕ

namespace World

/-- The state after a program. -/
def after {α : Type} (w : World) (p : Sys α) : Option World :=
  (p.run System.act w.sys).map fun r => { w with sys := r.2 }

/-- **A call**, `none` if it does not come back. -/
def perform (w : World) : Call → Option World
  | .create name => w.after (FileSystem.create name)
  | .createDir name => w.after (FileSystem.createDir name)
  | .changeDir name => w.after (FileSystem.changeDir name true)
  | .openFile name => ((FileSystem.openFile name).run System.act w.sys).map fun r =>
      ⟨r.2, r.1.toList ++ w.handles⟩
  | .write f src n => w.after (OpenFile.write f src n false)
  | .close f => ((OpenFile.close f).run System.act w.sys).map fun r => ⟨r.2, w.handles.erase f⟩
  | .remove name => w.after (FileSystem.remove name false)
  | .removeDir name => w.after (FileSystem.removeDir name)
  | .reuse heap => some { w with sys := { w.sys with heap := heap } }

/-- The sector of the current directory. -/
def current (w : World) : ℕ := (w.sys.openFile w.sys.directoryFile).sector

/-- Paths are short enough; what is written is a file that is open and not a directory, and what is
closed is open.  Memory stays as it is. -/
def Legal (w : World) : Call → Prop
  | .create name | .createDir name => CreateFits name
  | .changeDir name => PathFits name
  | .write f _ _ => f ∈ w.handles ∧ ∃ path, Found w.sys.disk path (w.sys.openFile f).sector false
  | .close f => f ∈ w.handles
  | .reuse _ => False
  | _ => True

/-- **Legal with any memory**, if no new file gets the mark of a directory from it. -/
def Typed (w : World) : Call → Prop
  | .create name => CreateFits name ∧
      CreateTyped w.sys.heap w.sys.disk w.current w.sys.directorySize name
  | .reuse _ => True
  | call => w.Legal call

/-- Nobody has to be waited for, and something is to be written. -/
def Proceeds (w : World) : Call → Prop
  | .write _ _ n => 0 < n
  | .remove name => ∀ x, removeTarget w.sys.disk w.current name false = some x →
      (w.sys.openFilesTable x).count = 0
  | .removeDir name => ∀ x, removeTarget w.sys.disk w.current name true = some x →
      (w.sys.openFilesTable x).count = 0
  | _ => True

/-- **No sector is lost** for lack of space. -/
def Keeps (w : World) : Call → Prop
  | .create name => CreateKeeps w.sys.disk w.current w.sys.directorySize name 0
  | .createDir name => CreateKeeps w.sys.disk w.current w.sys.directorySize name 3
  | .write f _ n =>
      let chain := chainOn w.sys.disk (w.sys.openFile f).sector
      Roomy w.sys.disk chain (mapAt w.sys.disk) (positionOf chain (w.sys.openFile f)) n
  | .remove name => ∀ x, removeTarget w.sys.disk w.current name false = some x →
      RemoveKeeps w.sys.disk w.current x w.sys.directorySize
  | .removeDir name => ∀ x, removeTarget w.sys.disk w.current name true = some x →
      RemoveKeeps w.sys.disk w.current x w.sys.directorySize
  | _ => True

/-- **No handle is lost**: an absolute path leads to a directory, and a directory that is created
with one has enough space. -/
def Returns (w : World) : Call → Prop
  | .create name => CreateReturns w.sys.disk name 0
  | .createDir name => CreateReturns w.sys.disk name 3
  | .changeDir name => name.head? = some slash →
      (destination (tableAt w.sys.disk) w.current name).isSome = true
  | _ => True

end World

/-- **Between two calls.** -/
structure Live (w : World) (V : Volume) (c : ℕ) (rest : List (ℕ × ℕ)) : Prop where
  idle : Idle .strict V w.sys c rest
  handles : (rest.map Prod.fst).Perm (w.sys.freeMapFile :: w.handles)

/-- What a call does to the volume. -/
structure Steps (w : World) (call : Call) (V : Volume) (w' : World) (V' : Volume) : Prop where
  map : V'.map = V.map
  keeps : w.Keeps call → ∀ x, V'.leaked x → V.leaked x
  returns : w.Returns call → ∀ x, V'.extra x ≤ V.extra x
  lost : ¬ w.Returns call → ∃ x, V'.extra x ≠ 0

/-- A call that loses no handle. -/
theorem Steps.of_returns {w w' : World} {call : Call} {V V' : Volume} (hret : w.Returns call)
    (hmap : V'.map = V.map) (hkeeps : w.Keeps call → ∀ x, V'.leaked x → V.leaked x)
    (hextra : ∀ x, V'.extra x ≤ V.extra x) : Steps w call V w' V' :=
  ⟨hmap, hkeeps, fun _ => hextra, fun hlost => absurd hret hlost⟩

/-- The call comes back, between two calls again. -/
def Lands (w : World) (call : Call) (V : Volume) : Prop :=
  ∃ w' V' c' rest', w.perform call = some w' ∧ Live w' V' c' rest' ∧ Steps w call V w' V'

section Steps
variable {w : World} {V : Volume} {c f : ℕ} {rest : List (ℕ × ℕ)} {name : List UInt8}

theorem Idle.current_eq (hi : Idle .strict V w.sys c rest) : w.current = c := by
  refine hi.ready.handles.sector _ _ ?_
  rw [hi.handles]
  exact List.mem_cons_self

theorem World.after_of_ends {α : Type} {p : Sys α} {Q : α → System → Prop} (h : w.sys.Ends p Q) :
    ∃ a s', w.after p = some { w with sys := s' } ∧ Q a s' := by
  obtain ⟨a, s', hrun, hq⟩ := h
  refine ⟨a, s', ?_, hq⟩
  rw [World.after, hrun]
  rfl

theorem World.after_of_yields {α : Type} {p : Sys α} (h : w.sys.Yields p fun _ _ => False) :
    w.after p = none := by
  rw [World.after, Option.map_eq_none_iff]
  cases hrun : p.run System.act w.sys with
  | none => rfl
  | some r => exact (h r.1 r.2 hrun).elim

/-- The files of the volume and the current directory stay. -/
theorem Live.same (hl : Live w V c rest) {s' : System} (hs : Same w.sys s')
    (hr : Ready .strict V s') : Live { w with sys := s' } V c rest where
  idle := hl.idle.of_same hs hr
  handles := by
    show (rest.map Prod.fst).Perm (s'.freeMapFile :: w.handles)
    rw [hs.freeMapFile]
    exact hl.handles

theorem Live.createWith (hl : Live w V c rest) {isDirectory : Bool} {more : ℕ}
    {store : ℕ → Bitmap → Directory → Sys (Option Bool)}
    (hstore : StoreOk .strict isDirectory more store) (hfits : CreateFits name)
    (htyped : isDirectory = false →
      CreateTyped w.sys.heap w.sys.disk c w.sys.directorySize name) :
    ∃ r s' V' c', w.after (FileSystem.createWith isDirectory store name) =
      some { w with sys := s' } ∧ Live { w with sys := s' } V' c' rest ∧
      Created .strict V w.sys c rest isDirectory more name r V' c' s' := by
  obtain ⟨r, s', hafter, V', c', hc⟩ :=
    World.after_of_ends (hl.idle.createWith hstore hfits htyped)
  refine ⟨r, s', V', c', hafter, ⟨hc.idle, ?_⟩, hc⟩
  show (rest.map Prod.fst).Perm (s'.freeMapFile :: w.handles)
  rw [hc.freeMapFile]
  exact hl.handles

theorem Live.create (hl : Live w V c rest) (htyped : w.Typed (.create name)) :
    Lands w (.create name) V := by
  have hcurrent := hl.idle.current_eq
  obtain ⟨r, s', V', c', hafter, hlive, hc⟩ := hl.createWith (storeFile_ok _) htyped.1
    fun _ => hcurrent ▸ htyped.2
  refine ⟨_, V', c', rest, hafter, hlive, hc.map, fun hk => hc.keeps ?_,
    fun hret => (hc.returns hret).2,
    hc.lost⟩
  rw [← hcurrent]
  exact hk

theorem Live.createDir (hl : Live w V c rest) (hfits : CreateFits name) :
    Lands w (.createDir name) V := by
  obtain ⟨r, s', V', c', hafter, hlive, hc⟩ := hl.createWith (storeDirectory_ok _) hfits
    fun h => nomatch h
  refine ⟨_, V', c', rest, hafter, hlive, hc.map, fun hk => hc.keeps ?_,
    fun hret => (hc.returns hret).2,
    hc.lost⟩
  rw [← hl.idle.current_eq]
  exact hk

/-- Other memory is used. -/
theorem Live.reuse (hl : Live w V c rest) (heap : ℕ → UInt8) :
    Live { w with sys := { w.sys with heap := heap } } V c rest :=
  hl.same ⟨rfl, rfl, rfl, rfl, rfl⟩ (hl.idle.ready.setHeap heap)

theorem Live.changeDir (hl : Live w V c rest) (hfits : PathFits name) :
    Lands w (.changeDir name) V := by
  have hi := hl.idle
  obtain ⟨chain, t, ha⟩ := hi.dir
  have hhandle : (w.sys.directoryFile, c) ∈ (w.sys.directoryFile, c) :: rest := List.mem_cons_self
  have hends := hi.ready_handles.changeDir (ha.relabel V.extra hhandle) hfits
  obtain ⟨r, s', hafter, hcases⟩ := World.after_of_ends hends
  have hdestination := hi.ready.disk.destination_eq hi.ready.tree hi.kind name
  rcases hcases with ⟨c', -, hsome, hm⟩ | ⟨-, hnone, hs, extra, hr, hextra, hlost⟩
  · obtain ⟨chain', t', ha', -⟩ := hm.atDir
    refine ⟨_, { V with handles := (s'.directoryFile, c') :: rest }, c', rest, hafter, ⟨⟨hm.ready,
      rfl, ⟨chain', t', ha'⟩, AllReached.relabel hi.reached _ _,
      hm.kept.createLock.trans hi.unlocked⟩, ?_⟩,
      .of_returns (fun _ => ?_) rfl (fun _ _ hx => hx) fun _ => le_rfl⟩
    · show (rest.map Prod.fst).Perm (s'.freeMapFile :: w.handles)
      rw [hm.kept.freeMapFile]
      exact hl.handles
    · rw [hi.current_eq, hdestination, hsome]
      rfl
  · refine ⟨_, { V with handles := (w.sys.directoryFile, c) :: rest, extra := extra }, c, rest,
      hafter, ⟨⟨hr, ?_, ⟨chain, t, (ha.of_same hs).relabel extra ?_⟩,
      AllReached.relabel hi.reached _ _, hs.createLock.trans hi.unlocked⟩, ?_⟩, rfl,
      fun _ _ hx => hx, fun hret x => ?_,
      fun hret => ?_⟩
    · show (w.sys.directoryFile, c) :: rest = (s'.directoryFile, c) :: rest
      rw [hs.directoryFile]
    · rw [hs.directoryFile]
      exact hhandle
    · show (rest.map Prod.fst).Perm (s'.freeMapFile :: w.handles)
      rw [hs.freeMapFile]
      exact hl.handles
    · -- only an absolute path that leads nowhere loses a handle
      by_cases hslash : name.head? = some slash
      · have hsome := hret hslash
        rw [hi.current_eq, hdestination, hnone] at hsome
        cases hsome
      · rw [hextra hslash]
    · apply hlost
      by_contra hslash
      exact hret fun habs => absurd habs hslash

/-- **`Open`** between two calls. -/
theorem Live.opened (hl : Live w V c rest) (name : List UInt8) : ∃ r s',
    w.perform (.openFile name) = some ⟨s', r.toList ++ w.handles⟩ ∧ Same w.sys s' ∧
    (r = none ∧ (tableAt w.sys.disk c).find name = none ∧ Live ⟨s', w.handles⟩ V c rest ∨
      ∃ f x, r = some f ∧ (tableAt w.sys.disk c).find name = some x ∧
        Live ⟨s', f :: w.handles⟩ { V with handles := (s'.directoryFile, c) :: (f, x) :: rest } c
          ((f, x) :: rest)) := by
  have hi := hl.idle
  obtain ⟨chain, t, ha⟩ := hi.dir
  rw [hi.ready.disk.tableAt_eq ha.file]
  obtain ⟨r, s', hrun, hs, hcases⟩ := hi.ready.openFile ha name
  refine ⟨r, s', ?_, hs, ?_⟩
  · show ((FileSystem.openFile name).run System.act w.sys).map _ = _
    rw [hrun]
    rfl
  rcases hcases with ⟨rfl, hnone, hr⟩ | ⟨f, x, rfl, hsome, hr⟩
  · exact Or.inl ⟨rfl, hnone, hl.same hs hr⟩
  · have hperm : ((f, x) :: V.handles).Perm ((s'.directoryFile, c) :: (f, x) :: rest) := by
      rw [hi.handles, hs.directoryFile]
      exact List.Perm.swap ..
    refine Or.inr ⟨f, x, rfl, hsome, ⟨hr.perm hperm, rfl, ⟨chain, t, (ha.of_same hs).relabel V.extra
      List.mem_cons_self⟩, AllReached.relabel hi.reached _ _, hs.createLock.trans hi.unlocked⟩, ?_⟩
    show (f :: rest.map Prod.fst).Perm (s'.freeMapFile :: f :: w.handles)
    rw [hs.freeMapFile]
    exact (hl.handles.cons f).trans (List.Perm.swap ..)

theorem Live.openFile (hl : Live w V c rest) (name : List UInt8) : Lands w (.openFile name) V := by
  obtain ⟨r, s', hperform, -, hcases⟩ := hl.opened name
  rcases hcases with ⟨rfl, -, hl'⟩ | ⟨f, x, rfl, -, hl'⟩
  · exact ⟨_, _, c, rest, hperform, hl', .of_returns trivial rfl (fun _ _ hx => hx) fun _ => le_rfl⟩
  · exact ⟨_, _, c, _, hperform, hl', .of_returns trivial rfl (fun _ _ hx => hx) fun _ => le_rfl⟩

/-- An open file of the thread is a handle of the volume, on a file. -/
theorem Live.handle (hl : Live w V c rest) (hf : f ∈ w.handles) :
    (f, (w.sys.openFile f).sector) ∈ rest ∧
      (V.files (w.sys.openFile f).sector).isSome = true := by
  have hmem : f ∈ rest.map Prod.fst := hl.handles.mem_iff.mpr (List.mem_cons_of_mem _ hf)
  obtain ⟨⟨g, h⟩, hg, rfl⟩ := List.mem_map.mp hmem
  have hV : (g, h) ∈ V.handles := by
    rw [hl.idle.handles]
    exact List.mem_cons_of_mem _ hg
  have hsector := hl.idle.ready.handles.sector g h hV
  refine ⟨by rw [hsector]; exact hg, ?_⟩
  rw [hsector]
  refine (hl.idle.ready.handles.on g h hV).resolve_left ?_
  rintro rfl
  have hnodup : (rest.map Prod.fst).Nodup := by
    have hn := hl.idle.ready.handles.nodup
    rw [hl.idle.handles, List.map_cons, List.nodup_cons] at hn
    exact hn.2
  exact (List.nodup_cons.mp (hl.handles.nodup_iff.mp hnodup)).1 hf

/-- **`Close`** between two calls. -/
theorem Live.closed (hl : Live w V c rest) (hf : f ∈ w.handles) : ∃ s' rest',
    w.perform (.close f) = some ⟨s', w.handles.erase f⟩ ∧ Same w.sys s' ∧
      Live ⟨s', w.handles.erase f⟩ { V with handles := (w.sys.directoryFile, c) :: rest' } c
        rest' := by
  have hi := hl.idle
  obtain ⟨hmem, hsome⟩ := hl.handle hf
  obtain ⟨h, hh⟩ : ∃ h, h = (w.sys.openFile f).sector := ⟨_, rfl⟩
  rw [← hh] at hmem hsome
  have hrest : rest.Perm ((f, h) :: rest.erase (f, h)) := List.perm_cons_erase hmem
  have hperm : V.handles.Perm ((f, h) :: (w.sys.directoryFile, c) :: rest.erase (f, h)) := by
    rw [hi.handles]
    exact (hrest.cons _).trans (List.Perm.swap ..)
  obtain ⟨r, s', hrun, hs, hr⟩ := hi.ready.close hperm hsome
  obtain ⟨chain, t, ha⟩ := hi.dir
  have hperform : w.perform (.close f) = some ⟨s', w.handles.erase f⟩ := by
    show ((OpenFile.close f).run System.act w.sys).map _ = _
    rw [hrun]
    rfl
  refine ⟨s', rest.erase (f, h), hperform, hs, ⟨⟨hr, ?_,
    ⟨chain, t, (ha.of_same hs).relabel V.extra ?_⟩,
    AllReached.relabel hi.reached _ _, hs.createLock.trans hi.unlocked⟩, ?_⟩⟩
  · show (w.sys.directoryFile, c) :: _ = (s'.directoryFile, c) :: _
    rw [hs.directoryFile]
  · rw [hs.directoryFile]
    exact List.mem_cons_self
  · show ((rest.erase (f, h)).map Prod.fst).Perm (s'.freeMapFile :: w.handles.erase f)
    rw [hs.freeMapFile]
    refine List.Perm.cons_inv (a := f) ?_
    have hmap : (rest.map Prod.fst).Perm (f :: (rest.erase (f, h)).map Prod.fst) :=
      hrest.map Prod.fst
    refine (hmap.symm.trans hl.handles).trans ?_
    exact ((List.perm_cons_erase hf).cons _).trans (List.Perm.swap ..)

theorem Live.close (hl : Live w V c rest) (hf : f ∈ w.handles) : Lands w (.close f) V := by
  obtain ⟨s', rest', hperform, -, hl'⟩ := hl.closed hf
  exact ⟨_, _, c, rest', hperform, hl', .of_returns trivial rfl (fun _ _ hx => hx) fun _ => le_rfl⟩

/-- A file that is found and is not a directory. -/
theorem DiskOk.found_regular {D : Discipline} {disk : ℕ → Sector} (hd : DiskOk D V disk)
    (ht : TreeOk V) {path : List ℕ} {h : ℕ} (hf : Found disk path h false) :
    ∃ chain, V.files h = some ⟨chain, none⟩ := by
  have hk := hd.found ht hf
  rw [Volume.kind, Option.map_eq_some_iff] at hk
  obtain ⟨⟨chain, table⟩, hi, hnone⟩ := hk
  have htable : table = none := by simpa using hnone
  exact ⟨chain, htable ▸ hi⟩

theorem Idle.wrote {s' : System} {V' : Volume} {h p n k : ℕ} {chain : List ℕ} {src : ℕ → UInt8}
    (hi : Idle .strict V w.sys c rest) (hw : Wrote V w.sys f h chain p src n k V' s') :
    Idle .strict V' s' c rest := by
  obtain ⟨chain₀, t, ha⟩ := hi.dir
  have hk : V'.kind c = some true := (hw.kind c).trans hi.kind
  refine ⟨hw.ready, ?_, ⟨chain₀, t, ?_, ?_, ?_, ?_⟩, fun h' i hi' => ?_,
    hw.createLock.trans hi.unlocked⟩
  · rw [hw.handles, hw.directoryFile]
    exact hi.handles
  · rw [hw.handles, hw.directoryFile]
    exact ha.handle
  · obtain ⟨chain₁, t₁, hi₁⟩ := kind_true_iff.mp hk
    obtain ⟨chain₂, hi₂, -⟩ := hw.file
    have hne : c ≠ h := by
      rintro rfl
      rw [hi₁] at hi₂
      cases hi₂
    exact (hw.other c hne).trans ha.file
  · exact ha.le.trans hw.directorySize.ge
  · exact hw.directorySize.le.trans ha.size_le
  · have hk' : V.kind h' = some i.table.isSome := (hw.kind h').symm.trans (kind_of_files hi')
    rw [Volume.kind, Option.map_eq_some_iff] at hk'
    obtain ⟨i₀, hi₀, -⟩ := hk'
    exact (hi.reached h' i₀ hi₀).mono fun h q _ => hw.slot h q

/-- **`Write`** between two calls. -/
theorem Live.wrote (hl : Live w V c rest) {path : List ℕ} (hf : f ∈ w.handles)
    (hfound : Found w.sys.disk path (w.sys.openFile f).sector false) (src : ℕ → UInt8) {n : ℕ}
    (hn : 0 < n) :
    let chain := chainOn w.sys.disk (w.sys.openFile f).sector
    ∃ k s' V', w.perform (.write f src n) = some { w with sys := s' } ∧
      Live { w with sys := s' } V' c rest ∧
      Wrote V w.sys f (w.sys.openFile f).sector chain (positionOf chain (w.sys.openFile f)) src n k
        V' s' := by
  have hi := hl.idle
  obtain ⟨hmem, -⟩ := hl.handle hf
  obtain ⟨chain, hfile⟩ := hi.ready.disk.found_regular hi.ready.tree hfound
  have hV : (f, (w.sys.openFile f).sector) ∈ V.handles := by
    rw [hi.handles]
    exact List.mem_cons_of_mem _ hmem
  obtain ⟨p, hcur⟩ := hi.ready.handles.cursor f _ chain hV hfile
  have hchain := hi.ready.disk.chainOn_eq hfile
  dsimp only at hchain ⊢
  rw [hchain, hcur.position_eq (hi.ready.disk.file _ _ hfile).sound]
  obtain ⟨k, s', hafter, V', hw⟩ := World.after_of_ends (hi.ready.write hV hfile hcur hn src)
  refine ⟨k, s', V', hafter, ⟨hi.wrote hw, ?_⟩, hw⟩
  show (rest.map Prod.fst).Perm (s'.freeMapFile :: w.handles)
  rw [hw.freeMapFile]
  exact hl.handles

theorem Live.write (hl : Live w V c rest) {path : List ℕ} (hf : f ∈ w.handles)
    (hfound : Found w.sys.disk path (w.sys.openFile f).sector false) (src : ℕ → UInt8) {n : ℕ}
    (hn : 0 < n) : Lands w (.write f src n) V := by
  obtain ⟨k, s', V', hperform, hlive, hw⟩ := hl.wrote hf hfound src hn
  refine ⟨_, V', c, rest, hperform, hlive,
    .of_returns trivial hw.map (fun hk => hw.roomy ?_) fun x => ?_⟩
  · rw [← hl.idle.ready.disk.mapAt_eq]
    exact hk
  · rw [hw.extra]

theorem World.write_zero (w : World) (f : ℕ) (src : ℕ → UInt8) :
    w.perform (.write f src 0) = none := by
  refine World.after_of_yields (p := OpenFile.write f src 0 false) ?_
  unfold OpenFile.write
  exact Prog.yields_bind.mpr (yields_assert.mpr fun h => absurd h (Nat.lt_irrefl 0))

/-- A file is removed between two calls. -/
theorem Live.removed (hl : Live w V c rest) {x : ℕ} {s' : System} {V' : Volume}
    (hrem : Removed .strict V w.sys c x V' s') : Live { w with sys := s' } V' c rest where
  idle := hl.idle.removed hrem
  handles := by
    show (rest.map Prod.fst).Perm (s'.freeMapFile :: w.handles)
    rw [hrem.freeMapFile]
    exact hl.handles

theorem Live.remove (hl : Live w V c rest) (name : List UInt8) : Lands w (.remove name) V ∨
    ¬ w.Proceeds (.remove name) ∧ w.perform (.remove name) = none := by
  have hi := hl.idle
  have hcurrent := hi.current_eq
  cases hx : removeTarget w.sys.disk c name false with
  | none =>
    obtain ⟨r, s', hafter, -, hs, hr⟩ := World.after_of_ends (hi.remove_refused hx)
    exact Or.inl ⟨_, V, c, rest, hafter, hl.same hs hr,
      .of_returns trivial rfl (fun _ _ hx => hx) fun _ => le_rfl⟩
  | some x =>
    by_cases hcount : (w.sys.openFilesTable x).count = 0
    · obtain ⟨r, s', hafter, -, V', hrem⟩ :=
        World.after_of_ends (hi.remove hx (hi.target_regular hx) hcount)
      refine Or.inl ⟨_, V', c, rest, hafter, hl.removed hrem,
        .of_returns trivial hrem.map (fun hk => hrem.keeps ?_) fun y => ?_⟩
      · have := hk x (by rw [hcurrent]; exact hx)
        rwa [hcurrent] at this
      · rw [hrem.extra]
    · refine Or.inr ⟨fun hp => hcount (hp x ?_), World.after_of_yields (hi.remove_waits hx hcount)⟩
      rw [hcurrent]
      exact hx

theorem Live.removeDir (hl : Live w V c rest) (name : List UInt8) : Lands w (.removeDir name) V ∨
    ¬ w.Proceeds (.removeDir name) ∧ w.perform (.removeDir name) = none := by
  have hi := hl.idle
  have hcurrent := hi.current_eq
  by_cases hdir : (tableAt w.sys.disk c).findDir name = true
  · obtain ⟨x, -, hx, -⟩ := hi.removeDir_run hdir
    by_cases hused : (tableAt w.sys.disk x).any DirectoryEntry.inUse = true
    · obtain ⟨r, s', hafter, -, hs, hr⟩ := World.after_of_ends (hi.removeDir_nonempty hdir hx hused)
      exact Or.inl ⟨_, V, c, rest, hafter, hl.same hs hr,
        .of_returns trivial rfl (fun _ _ hx => hx) fun _ => le_rfl⟩
    · by_cases hcount : (w.sys.openFilesTable x).count = 0
      · obtain ⟨r, s', hafter, -, V', hrem⟩ :=
          World.after_of_ends (hi.removeDir hdir hx hused hcount)
        refine Or.inl ⟨_, V', c, rest, hafter, hl.removed hrem,
          .of_returns trivial hrem.map (fun hk => hrem.keeps ?_) fun y => ?_⟩
        · have := hk x (by rw [hcurrent]; exact hx)
          rwa [hcurrent] at this
        · rw [hrem.extra]
      · refine Or.inr ⟨fun hp => hcount (hp x ?_),
          World.after_of_yields (hi.removeDir_waits hdir hx hused hcount)⟩
        rw [hcurrent]
        exact hx
  · obtain ⟨r, s', hafter, -, hs, hr⟩ := World.after_of_ends (hi.removeDir_refused hdir)
    exact Or.inl ⟨_, V, c, rest, hafter, hl.same hs hr,
      .of_returns trivial rfl (fun _ _ hx => hx) fun _ => le_rfl⟩

/-- **Every legal call** comes back, between two calls again, or it waits for somebody or has
nothing to write. -/
theorem Live.perform (hl : Live w V c rest) {call : Call} (hlegal : w.Typed call) :
    Lands w call V ∨ ¬ w.Proceeds call ∧ w.perform call = none := by
  cases call with
  | create name => exact Or.inl (hl.create hlegal)
  | createDir name => exact Or.inl (hl.createDir hlegal)
  | changeDir name => exact Or.inl (hl.changeDir hlegal)
  | openFile name => exact Or.inl (hl.openFile name)
  | write f src n =>
    obtain ⟨hf, path, hfound⟩ := hlegal
    rcases Nat.eq_zero_or_pos n with rfl | hn
    · exact Or.inr ⟨Nat.lt_irrefl 0, w.write_zero f src⟩
    · exact Or.inl (hl.write hf hfound src hn)
  | close f => exact Or.inl (hl.close hlegal)
  | remove name => exact hl.remove name
  | removeDir name => exact hl.removeDir name
  | reuse heap =>
    exact Or.inl ⟨_, V, c, rest, rfl, hl.reuse heap,
      .of_returns trivial rfl (fun _ _ hx => hx) fun _ => le_rfl⟩

end Steps

/-! ## Memory that reads as zero -/

section Zero
variable {w w' : World} {call : Call}

/-- An entry of zeroes is not that of a directory. -/
theorem createTyped_zero {disk : ℕ → Sector} {c size : ℕ} {name : List UInt8} :
    CreateTyped (fun _ => 0) disk c size name := by
  intro p n base _ _ _ _
  rfl

theorem World.Legal.typed (hlegal : w.Legal call) (hheap : w.sys.heap = fun _ => 0) :
    w.Typed call := by
  cases call with
  | create name =>
    refine ⟨hlegal, ?_⟩
    rw [hheap]
    exact createTyped_zero
  | reuse heap => exact hlegal.elim
  | _ => exact hlegal

theorem World.after_heap {α : Type} {p : Sys α} (h : w.after p = some w') :
    w'.sys.heap = w.sys.heap := by
  obtain ⟨r, hrun, rfl⟩ := Option.map_eq_some_iff.mp h
  exact yields_heap p w.sys r.1 r.2 hrun

/-- A legal call leaves memory as it is. -/
theorem World.Legal.heap_eq (hlegal : w.Legal call) (hp : w.perform call = some w') :
    w'.sys.heap = w.sys.heap := by
  cases call with
  | openFile name =>
    obtain ⟨r, hrun, rfl⟩ := Option.map_eq_some_iff.mp hp
    exact yields_heap _ w.sys r.1 r.2 hrun
  | close f =>
    obtain ⟨r, hrun, rfl⟩ := Option.map_eq_some_iff.mp hp
    exact yields_heap _ w.sys r.1 r.2 hrun
  | reuse heap => exact hlegal.elim
  | _ => exact World.after_heap hp

end Zero
end PaldOs
