import Mathlib.Tactic.NormNum
import PaldOs.Runs

/-! # The time of a disk request

The disk turns past the head by one sector each `ROTATION_TIME`, and the head moves by one track
each `SEEK_TIME`.  How long a request takes, `ComputeLatency` calculates when it is made, from the
clock and two numbers that `UpdateLast` keeps: the last sector requested, and when the head reached
its track.  From then on everything that passes the head is kept in the track buffer, and a sector
that is there is read in the time of one transfer.

The disk itself is told by the requests alone: where its head is at a time (`head`), and which
sector passes it.  Every request is then carried out by the disk before its interrupt comes, and no
later than at the first chance (`requests_carried_out`): also what is read from the track buffer has
passed the head of a disk that stayed on its track.

`bufferInit` is an `int` and the clock is not, so this is so for the first 2³¹ ticks.
-/
namespace PaldOs

/-- `ROTATION_TIME`. -/
def rotationTime : ℕ := 500

/-- `SEEK_TIME`. -/
def seekTime : ℕ := 500

/-- `SECTORS_PER_TRACK`. -/
def sectorsPerTrack : ℕ := 32

/-- `NUM_TRACKS`. -/
def numTracks : ℕ := 32

/-- A number as an `unsigned`. -/
def asUnsigned (n : ℤ) : ℕ := (n % 2 ^ 32).toNat

/-- What is known of the disk: the clock, the last request, and when its interrupt is due. -/
structure Drive where
  totalTicks : ℕ
  lastSector : ℕ
  bufferInit : ℤ
  active : Bool
  due : ℕ

namespace Drive

/-! ## The latency -/

/-- `Diff`. -/
def diff (a b : ℕ) : ℕ := if a > b then a - b else b - a

/-- `ModuloDiff`. -/
def moduloDiff (toSector fromSector : ℕ) : ℕ :=
  let toOffset := toSector % sectorsPerTrack
  let fromOffset := fromSector % sectorsPerTrack
  asUnsigned (toOffset - fromOffset + sectorsPerTrack) % sectorsPerTrack

variable (d : Drive)

/-- `TimeToSeek`: the time of the seek, and from then on to the next sector. -/
def timeToSeek (newSector : ℕ) : ℕ × ℕ :=
  let newTrack := newSector / sectorsPerTrack
  let oldTrack := d.lastSector / sectorsPerTrack
  let seek := asUnsigned (diff newTrack oldTrack * seekTime)
  let past := (d.totalTicks + seek) % rotationTime
  (seek, if past > 0 then rotationTime - past else 0)

/-- `ComputeLatency`.  `bufferInit` is divided as an `unsigned long`. -/
def computeLatency (newSector : ℕ) (writing : Bool) : ℕ :=
  let seek := (d.timeToSeek newSector).1
  let rotation := (d.timeToSeek newSector).2
  let timeAfter := asUnsigned (d.totalTicks + seek + rotation)
  if !writing ∧ seek = 0 ∧ asUnsigned (timeAfter - d.bufferInit) / rotationTime >
      moduloDiff newSector (asUnsigned ((d.bufferInit % 2 ^ 64).toNat / rotationTime : ℕ)) then
    rotationTime
  else
    let rotation := rotation + moduloDiff newSector (timeAfter / rotationTime) * rotationTime
    seek + rotation + rotationTime

/-- `UpdateLast`. -/
def updateLast (newSector : ℕ) : Drive :=
  let seek := (d.timeToSeek newSector).1
  let rotate := (d.timeToSeek newSector).2
  { d with
    bufferInit :=
      if seek ≠ 0 then Int.bmod (d.totalTicks + seek + rotate) (2 ^ 32) else d.bufferInit
    lastSector := newSector }

/-- `ReadRequest` and `WriteRequest`, up to the bytes of the sector. -/
def request (newSector : ℕ) (writing : Bool) : Option Drive :=
  let ticks := d.computeLatency newSector writing
  if d.active = false ∧ newSector < sectorsPerTrack * numTracks then
    some { d.updateLast newSector with active := true, due := d.totalTicks + ticks }
  else none

/-- `HandleInterrupt`, when the interrupt is due. -/
def handleInterrupt : Option Drive :=
  if d.active = true ∧ d.due ≤ d.totalTicks then some { d with active := false } else none

/-! ## Runs -/

/-- What happens: the clock advances, a sector is requested, the interrupt comes. -/
inductive Action where
  | advance (ticks : ℕ)
  | request (newSector : ℕ) (writing : Bool)
  | interrupt

/-- A request is recorded with the time it is made at and the time it takes. -/
structure Request where
  now : ℕ
  sector : ℕ
  writing : Bool
  latency : ℕ
deriving DecidableEq

/-- One step. -/
def step : Action → Option Drive
  | .advance ticks => some { d with totalTicks := d.totalTicks + ticks }
  | .request newSector writing => d.request newSector writing
  | .interrupt => d.handleInterrupt

/-- The requests that are recorded. -/
def emit : Action → List Request
  | .request newSector writing =>
      [⟨d.totalTicks, newSector, writing, d.computeLatency newSector writing⟩]
  | .advance _ | .interrupt => []

/-- No `int` overflows: a request takes less than 2¹⁶ ticks. -/
def InTime (_ : List Request) (d : Drive) : Action → Prop
  | .request _ _ => d.totalTicks + 2 ^ 16 < 2 ^ 31
  | _ => True

/-- `Disk::Disk`. -/
def initial : Drive := ⟨0, 0, 0, false, 0⟩

/-! ## The disk -/

/-- The track of a sector. -/
def track (sector : ℕ) : ℕ := sector / sectorsPerTrack

/-- How long the head moves from a track to another. -/
def seekFrom (oldTrack newTrack : ℕ) : ℕ := diff newTrack oldTrack * seekTime

/-- **The track the head is on**, at a time: `none` while it moves.  It starts on `start`, and each
request moves it. -/
def head (start : ℕ) : List Request → ℕ → Option ℕ
  | [], _ => some start
  | r :: rs, t =>
      if t < r.now then some start
      else if t < r.now + seekFrom start (track r.sector) then none
      else head (track r.sector) rs t

/-- The sector passes the head as a whole in the `k`th turn by a sector, and the head is on its
track. -/
def PassesIn (rs : List Request) (sector k : ℕ) : Prop :=
  k % sectorsPerTrack = sector % sectorsPerTrack ∧
    ∀ t, k * rotationTime ≤ t → t < (k + 1) * rotationTime → head 0 rs t = some (track sector)

/-! ## What the latency is -/

theorem asUnsigned_of_lt {n : ℕ} (h : n < 2 ^ 32) : asUnsigned n = n := by
  unfold asUnsigned
  omega

theorem moduloDiff_eq (a b : ℕ) :
    moduloDiff a b = (a % sectorsPerTrack + sectorsPerTrack - b % sectorsPerTrack) %
      sectorsPerTrack := by
  unfold moduloDiff asUnsigned sectorsPerTrack
  dsimp only
  omega

section Latency
variable {d : Drive} {newSector : ℕ} {writing : Bool}

theorem track_lt (h : newSector < sectorsPerTrack * numTracks) : track newSector < numTracks := by
  unfold track
  exact Nat.div_lt_of_lt_mul h

theorem seekFrom_le {a b : ℕ} (ha : a < numTracks) (hb : b < numTracks) :
    seekFrom a b ≤ 31 * 500 := by
  unfold numTracks at ha hb
  unfold seekFrom diff seekTime
  split
  · omega
  · omega

theorem eq_of_seekFrom_eq_zero {a b : ℕ} (h : seekFrom a b = 0) : b = a := by
  unfold seekFrom diff seekTime at h
  split at h
  · omega
  · omega

/-- The seek ends before its rotation does, and that at the beginning of a sector. -/
theorem timeToSeek_spec (hlast : d.lastSector < sectorsPerTrack * numTracks)
    (hnew : newSector < sectorsPerTrack * numTracks) :
    (d.timeToSeek newSector).1 = seekFrom (track d.lastSector) (track newSector) ∧
      (d.timeToSeek newSector).2 < rotationTime ∧
      ∃ a, d.totalTicks + (d.timeToSeek newSector).1 + (d.timeToSeek newSector).2 =
        a * rotationTime := by
  have hseek := seekFrom_le (track_lt hlast) (track_lt hnew)
  have hfirst : (d.timeToSeek newSector).1 = seekFrom (track d.lastSector) (track newSector) :=
    asUnsigned_of_lt (by unfold seekFrom track at hseek; omega)
  have hsecond : (d.timeToSeek newSector).2 =
      if (d.totalTicks + (d.timeToSeek newSector).1) % rotationTime > 0 then
        rotationTime - (d.totalTicks + (d.timeToSeek newSector).1) % rotationTime else 0 := rfl
  refine ⟨hfirst, ?_, ?_⟩
  · rw [hsecond]
    unfold rotationTime
    split
    · omega
    · omega
  · refine ⟨(d.totalTicks + (d.timeToSeek newSector).1 + (d.timeToSeek newSector).2) /
      rotationTime, ?_⟩
    generalize (d.timeToSeek newSector).1 = seek at hsecond ⊢
    rw [hsecond]
    unfold rotationTime
    split
    · omega
    · omega

/-- How a request ends up: with what is in the track buffer since turn `b`, or with the first whole
sector after the seek. -/
def Served (d : Drive) (q : Request) (b : ℕ) : Prop :=
  (q.writing = false ∧ track q.sector = track d.lastSector ∧ q.latency = rotationTime ∧
      ∃ k, k % sectorsPerTrack = q.sector % sectorsPerTrack ∧ b ≤ k ∧
        (k + 1) * rotationTime < q.now + rotationTime) ∨
    ∃ k, k % sectorsPerTrack = q.sector % sectorsPerTrack ∧
      q.now + seekFrom (track d.lastSector) (track q.sector) ≤ k * rotationTime ∧
      q.now + q.latency = (k + 1) * rotationTime ∧
      ∀ j, j % sectorsPerTrack = q.sector % sectorsPerTrack →
        q.now + seekFrom (track d.lastSector) (track q.sector) ≤ j * rotationTime → k ≤ j

/-- **How long a request takes**: one transfer, when the sector has passed the head since
`bufferInit`, and else until the sector has passed the head after the seek. -/
theorem computeLatency_served (hlast : d.lastSector < sectorsPerTrack * numTracks)
    (hnew : newSector < sectorsPerTrack * numTracks) (htime : d.totalTicks + 2 ^ 16 < 2 ^ 31)
    {b : ℕ} (hbuffer : d.bufferInit = (b * rotationTime : ℕ))
    (hbegun : b * rotationTime ≤ d.totalTicks) :
    Served d ⟨d.totalTicks, newSector, writing, d.computeLatency newSector writing⟩ b := by
  have hbound := seekFrom_le (track_lt hlast) (track_lt hnew)
  obtain ⟨hseek, hrotation, a, ha⟩ := timeToSeek_spec hlast hnew
  unfold Served computeLatency
  dsimp only
  generalize d.timeToSeek newSector = p at hseek hrotation ha ⊢
  obtain ⟨seek, rotation⟩ := p
  dsimp only at hseek hrotation ha ⊢
  have hstays := @eq_of_seekFrom_eq_zero (track d.lastSector) (track newSector)
  rw [← hseek] at hbound hstays ⊢
  unfold rotationTime at *
  have hearly : a * 500 < 2 ^ 32 := by omega
  have hb : b * 500 < 2 ^ 31 :=
    lt_of_le_of_lt hbegun (lt_of_le_of_lt (Nat.le_add_right _ _) htime)
  have hpow : 2 ^ 31 < 2 ^ 32 := Nat.pow_lt_pow_right (by decide) (by decide)
  have hdiv : ∀ n, n * 500 / 500 = n := fun n => Nat.mul_div_cancel n (by decide)
  have hafter : asUnsigned (d.totalTicks + seek + rotation) = a * 500 := by
    have hcast : (d.totalTicks + seek + rotation : ℤ) = (a * 500 : ℕ) := by
      rw [← ha]
      push_cast
      rfl
    rw [hcast]
    exact asUnsigned_of_lt hearly
  have hsince : asUnsigned ((a * 500 : ℕ) - d.bufferInit) = (a - b) * 500 := by
    have hcast : ((a * 500 : ℕ) - (b * 500 : ℕ) : ℤ) = ((a - b) * 500 : ℕ) := by omega
    rw [hbuffer, hcast]
    exact asUnsigned_of_lt
      (lt_of_le_of_lt (Nat.mul_le_mul_right 500 (Nat.sub_le a b)) hearly)
  have hfirst : asUnsigned ((d.bufferInit % 2 ^ 64).toNat / 500 : ℕ) = b := by
    have hlong : d.bufferInit % 2 ^ 64 = (b * 500 : ℕ) := by
      rw [hbuffer]
      apply Int.emod_eq_of_lt (Int.natCast_nonneg _)
      exact_mod_cast lt_trans hb (by norm_num)
    rw [hlong, Int.toNat_natCast, hdiv]
    have hle : b ≤ b * 500 := Nat.le_mul_of_pos_right b (by decide)
    exact asUnsigned_of_lt (lt_of_le_of_lt hle (lt_trans hb hpow))
  rw [hafter, hsince, hfirst, hdiv, hdiv, moduloDiff_eq, moduloDiff_eq]
  clear hafter hsince hfirst
  unfold sectorsPerTrack
  split
  case isTrue hbuffered =>
    obtain ⟨hreading, hstill, hpassed⟩ := hbuffered
    have hreads : writing = false := (Bool.not_eq_true' writing).mp hreading
    refine .inl ⟨hreads, hstays hstill, rfl, b + (newSector % 32 + 32 - b % 32) % 32, ?_⟩
    omega
  case isFalse =>
    refine .inr ⟨a + (newSector % 32 + 32 - a % 32) % 32, ?_, ?_, ?_, fun j hj hlate => ?_⟩
    all_goals omega

theorem seekFrom_self (a : ℕ) : seekFrom a a = 0 := by simp [seekFrom, diff]

/-- **The track buffer starts** when a seek has ended, at the beginning of a sector. -/
theorem updateLast_bufferInit (hlast : d.lastSector < sectorsPerTrack * numTracks)
    (hnew : newSector < sectorsPerTrack * numTracks) (htime : d.totalTicks + 2 ^ 16 < 2 ^ 31)
    {b : ℕ} (hbuffer : d.bufferInit = (b * rotationTime : ℕ)) :
    ∃ b' : ℕ, (d.updateLast newSector).bufferInit = (b' * rotationTime : ℕ) ∧
      (track newSector = track d.lastSector ∧ b' = b ∨
        d.totalTicks + seekFrom (track d.lastSector) (track newSector) ≤ b' * rotationTime ∧
        b' * rotationTime <
          d.totalTicks + seekFrom (track d.lastSector) (track newSector) + rotationTime ∧
        track newSector ≠ track d.lastSector) := by
  have hbound := seekFrom_le (track_lt hlast) (track_lt hnew)
  obtain ⟨hseek, hrotation, a, ha⟩ := timeToSeek_spec hlast hnew
  unfold updateLast
  generalize d.timeToSeek newSector = p at hseek hrotation ha ⊢
  obtain ⟨seek, rotation⟩ := p
  dsimp only at hseek hrotation ha ⊢
  by_cases hstill : seek = 0
  · refine ⟨b, ?_, .inl ⟨eq_of_seekFrom_eq_zero (hseek.symm.trans hstill), rfl⟩⟩
    rw [if_neg (not_not_intro hstill)]
    exact hbuffer
  · have hcast : (d.totalTicks + seek + rotation : ℤ) = (a * rotationTime : ℕ) := by
      rw [← ha]
      push_cast
      rfl
    refine ⟨a, ?_, .inr ⟨by omega, by omega, fun hsame => ?_⟩⟩
    · unfold rotationTime at hrotation hcast ⊢
      have hlate : a * 500 < 2 ^ 31 := by
        unfold rotationTime at ha
        omega
      rw [if_pos hstill, hcast]
      apply Int.bmod_eq_of_le
      · norm_num
        omega
      · norm_num
        omega
    · rw [hsame, seekFrom_self] at hseek
      exact hstill hseek

end Latency

/-! ## Where the head is -/

/-- The track of the last request. -/
def lastTrack (start : ℕ) (rs : List Request) : ℕ := rs.foldl (fun _ r => track r.sector) start

/-- All seeks have ended by the time `T`. -/
def Settled (start : ℕ) : List Request → ℕ → Prop
  | [], _ => True
  | r :: rs, T => r.now + seekFrom start (track r.sector) ≤ T ∧ Settled (track r.sector) rs T

section Head
variable {start t T T' : ℕ} {rs : List Request} {r : Request}

theorem lastTrack_concat : lastTrack start (rs ++ [r]) = track r.sector := by
  rw [lastTrack, List.foldl_append]
  rfl

theorem Settled.mono (h : Settled start rs T) (hT : T ≤ T') : Settled start rs T' := by
  induction rs generalizing start with
  | nil => trivial
  | cons q rs ih => exact ⟨le_trans h.1 hT, ih h.2⟩

theorem Settled.concat (h : Settled start rs T)
    (hr : r.now + seekFrom (lastTrack start rs) (track r.sector) ≤ T) :
    Settled start (rs ++ [r]) T := by
  induction rs generalizing start with
  | nil => exact ⟨hr, trivial⟩
  | cons q rs ih => exact ⟨h.1, ih h.2 hr⟩

/-- A request moves nothing before it is made. -/
theorem head_concat_before (h : t < r.now) : head start (rs ++ [r]) t = head start rs t := by
  induction rs generalizing start with
  | nil => exact if_pos h
  | cons q rs ih => rw [List.cons_append, head, head, ih]

/-- It moves the head from the last track to its own. -/
theorem head_concat_after (hs : Settled start rs T) (hT : T ≤ t) (ht : r.now ≤ t) :
    head start (rs ++ [r]) t =
      if t < r.now + seekFrom (lastTrack start rs) (track r.sector) then none
      else some (track r.sector) := by
  induction rs generalizing start with
  | nil =>
    rw [List.nil_append, head, if_neg (Nat.not_lt.mpr ht)]
    rfl
  | cons q rs ih =>
    have hended : q.now + seekFrom start (track q.sector) ≤ t := le_trans hs.1 hT
    rw [List.cons_append, head, if_neg (by omega), if_neg (by omega)]
    exact ih hs.2

end Head

/-! ## The invariant -/

/-- **The disk carries out a request**, by the time its interrupt is due: the sector passes the
head, as a whole and on its track, and what is written does so after the request.  The time is that
of the first such sector after the seek, at the latest. -/
def CarriedOut (rs before : List Request) (r : Request) : Prop :=
  ∃ k, PassesIn rs r.sector k ∧ (k + 1) * rotationTime ≤ r.now + r.latency ∧
    (r.writing = true → r.now ≤ k * rotationTime) ∧
    ∀ j, j % sectorsPerTrack = r.sector % sectorsPerTrack →
      r.now + seekFrom (lastTrack 0 before) (track r.sector) ≤ j * rotationTime →
      r.now + r.latency ≤ (j + 1) * rotationTime

/-- **What is known of the disk.** -/
structure Inv (rs : List Request) (d : Drive) : Prop where
  sector : d.lastSector < sectorsPerTrack * numTracks
  last : lastTrack 0 rs = track d.lastSector
  buffer : ∃ b : ℕ, d.bufferInit = (b * rotationTime : ℕ) ∧ b * rotationTime ≤ d.due ∧
    ∀ t, b * rotationTime ≤ t → head 0 rs t = some (track d.lastSector)
  settled : Settled 0 rs d.due
  idle : d.active = false → d.due ≤ d.totalTicks
  ended : ∀ r ∈ rs, r.now + r.latency ≤ d.due
  apart : rs.Pairwise fun q r => q.now + q.latency ≤ r.now
  carriedOut : ∀ before r after, rs = before ++ r :: after → CarriedOut rs before r

section Steps
variable {rs before : List Request} {r q : Request} {d d' : Drive}

theorem inv_initial : Inv [] initial where
  sector := by decide
  last := rfl
  buffer := ⟨0, rfl, Nat.le_refl _, fun _ _ => rfl⟩
  settled := trivial
  idle _ := Nat.le_refl _
  ended _ hr := by cases hr
  apart := .nil
  carriedOut before r after h := by
    cases before with
    | nil => cases h
    | cons => cases h

/-- A request that comes afterwards changes nothing. -/
theorem CarriedOut.concat (h : CarriedOut rs before r) (hq : r.now + r.latency ≤ q.now) :
    CarriedOut (rs ++ [q]) before r := by
  obtain ⟨k, ⟨hsector, hhead⟩, hended, hwritten, hfirst⟩ := h
  refine ⟨k, ⟨hsector, fun t hfrom hto => ?_⟩, hended, hwritten, hfirst⟩
  rw [head_concat_before (by omega)]
  exact hhead t hfrom hto

/-- Where the head is, with a request more. -/
theorem Inv.head_concat (h : Inv rs d) (hidle : d.active = false) (hnow : q.now = d.totalTicks)
    {t : ℕ} (ht : q.now + seekFrom (track d.lastSector) (track q.sector) ≤ t) :
    head 0 (rs ++ [q]) t = some (track q.sector) := by
  have hdue := h.idle hidle
  rw [head_concat_after h.settled (by omega) (by omega), h.last, if_neg (by omega)]

/-- The seek is over, and the next sector begins. -/
theorem Served.seek_le {b : ℕ} (h : Served d q b) :
    q.now + seekFrom (track d.lastSector) (track q.sector) ≤ q.now + q.latency := by
  rcases h with ⟨-, hsame, hlatency, -⟩ | ⟨k, -, hlate, hended, -⟩
  · rw [hsame, seekFrom_self]
    exact Nat.add_le_add_left (Nat.zero_le _) _
  · rw [hended]
    exact le_trans hlate (Nat.mul_le_mul_right _ (Nat.le_succ k))

/-- **The disk carries the request out.** -/
theorem Inv.carries {b b' : ℕ} (h : Inv rs d) (hserved : Served d q b)
    (hseen : ∀ t, b' * rotationTime ≤ t → head 0 (rs ++ [q]) t = some (track q.sector))
    (hkept : track q.sector = track d.lastSector → b' = b) (hidle : d.active = false)
    (hnow : q.now = d.totalTicks) : CarriedOut (rs ++ [q]) rs q := by
  rcases hserved with ⟨hreads, hsame, hlatency, k, hk, hbuffered, hpassed⟩ |
    ⟨k, hk, hlate, hended, hfirst⟩
  · refine ⟨k, ⟨hk, fun t hfrom _ => hseen t ?_⟩, ?_, fun hwrites => ?_, fun j _ hj => ?_⟩
    · rw [hkept hsame]
      exact le_trans (Nat.mul_le_mul_right _ hbuffered) hfrom
    · rw [hlatency]
      exact hpassed.le
    · rw [hreads] at hwrites
      cases hwrites
    · rw [hlatency, Nat.succ_mul]
      exact Nat.add_le_add_right (le_trans (Nat.le_add_right _ _) hj) _
  · refine ⟨k, ⟨hk, fun t hfrom _ => h.head_concat hidle hnow (le_trans hlate hfrom)⟩, hended.ge,
      fun _ => le_trans (Nat.le_add_right _ _) hlate, fun j hj hjlate => ?_⟩
    rw [h.last] at hjlate
    rw [hended]
    exact Nat.mul_le_mul_right _ (Nat.succ_le_succ (hfirst j hj hjlate))

/-- Where the head is from the time the track buffer starts. -/
theorem Inv.head_since {b b' : ℕ} (h : Inv rs d) (hidle : d.active = false)
    (hnow : q.now = d.totalTicks)
    (hhead : ∀ t, b * rotationTime ≤ t → head 0 rs t = some (track d.lastSector))
    (hstarts : track q.sector = track d.lastSector ∧ b' = b ∨
      q.now + seekFrom (track d.lastSector) (track q.sector) ≤ b' * rotationTime) {t : ℕ}
    (ht : b' * rotationTime ≤ t) : head 0 (rs ++ [q]) t = some (track q.sector) := by
  rcases hstarts with ⟨hsame, rfl⟩ | hlate
  · by_cases hbefore : t < q.now
    · rw [head_concat_before hbefore, hsame]
      exact hhead t ht
    · apply h.head_concat hidle hnow
      rw [hsame, seekFrom_self]
      exact Nat.not_lt.mp hbefore
  · exact h.head_concat hidle hnow (le_trans hlate ht)

/-- **A request is made.** -/
theorem Inv.request {newSector : ℕ} {writing : Bool} (h : Inv rs d)
    (htime : d.totalTicks + 2 ^ 16 < 2 ^ 31) (hs : d.request newSector writing = some d') :
    Inv (rs ++ [⟨d.totalTicks, newSector, writing, d.computeLatency newSector writing⟩]) d' := by
  unfold Drive.request at hs
  dsimp only at hs
  split at hs
  case isFalse => cases hs
  case isTrue hallowed =>
    obtain ⟨hidle, hnew⟩ := hallowed
    cases hs
    obtain ⟨b, hbuffer, hbdue, hhead⟩ := h.buffer
    have hdue := h.idle hidle
    obtain ⟨b', hbuffer', hstarts⟩ := updateLast_bufferInit h.sector hnew htime hbuffer
    generalize hq : (⟨d.totalTicks, newSector, writing, d.computeLatency newSector writing⟩ :
      Request) = q
    have hnow : q.now = d.totalTicks := by rw [← hq]
    have hsector : q.sector = newSector := by rw [← hq]
    have hlatency : q.latency = d.computeLatency newSector writing := by rw [← hq]
    have hserved : Served d q b := by
      rw [← hq]
      exact computeLatency_served h.sector hnew htime hbuffer (le_trans hbdue hdue)
    rw [← hsector] at hnew hbuffer' hstarts hlatency ⊢
    rw [← hlatency]
    rw [← hnow] at hdue hstarts ⊢
    have hseek := hserved.seek_le
    have hlater : d.due ≤ q.now + q.latency := le_trans hdue (Nat.le_add_right _ _)
    have hseen : ∀ t, b' * rotationTime ≤ t → head 0 (rs ++ [q]) t = some (track q.sector) :=
      fun t ht => h.head_since hidle hnow hhead (hstarts.imp id And.left) ht
    have hended : b' * rotationTime ≤ q.now + q.latency := by
      rcases hstarts with ⟨-, rfl⟩ | ⟨-, hsoon, hmoved⟩
      · omega
      · rcases hserved with ⟨-, hsame, -⟩ | ⟨k, -, hlate, hturn, -⟩
        · exact absurd hsame hmoved
        · rw [hturn, Nat.succ_mul]
          omega
    refine ⟨hnew, lastTrack_concat, ⟨b', hbuffer', hended, hseen⟩, ?_, nofun, ?_, ?_, ?_⟩
    · refine (h.settled.mono hlater).concat ?_
      rw [h.last]
      exact hseek
    · intro r hr
      rcases List.mem_append.mp hr with hold | hlast
      · exact le_trans (h.ended r hold) hlater
      · rw [List.mem_singleton.mp hlast]
    · refine List.pairwise_append.mpr ⟨h.apart, List.pairwise_singleton _ _, fun r hr q' hq' => ?_⟩
      rw [List.mem_singleton.mp hq']
      exact le_trans (h.ended r hr) hdue
    · intro before r after hsplit
      rcases List.eq_nil_or_concat after with rfl | ⟨after, q', rfl⟩
      · obtain ⟨rfl, hlast⟩ := List.append_inj' hsplit rfl
        cases hlast
        refine h.carries hserved hseen (fun hsame => ?_) hidle hnow
        rcases hstarts with ⟨-, hkept⟩ | ⟨-, -, hmoved⟩
        · exact hkept
        · exact absurd hsame hmoved
      · rw [List.concat_eq_append, ← List.cons_append, ← List.append_assoc] at hsplit
        obtain ⟨hrest, hlast⟩ := List.append_inj' hsplit rfl
        have hmem : r ∈ rs := by
          rw [hrest]
          exact List.mem_append_right _ List.mem_cons_self
        exact (h.carriedOut before r after hrest).concat (le_trans (h.ended r hmem) hdue)

/-- **Every step keeps the invariant.** -/
theorem Inv.step {a : Action} (h : Inv rs d) (ha : InTime rs d a) (hs : d.step a = some d') :
    Inv (rs ++ d.emit a) d' := by
  cases a with
  | advance ticks =>
    cases hs
    rw [emit, List.append_nil]
    exact ⟨h.sector, h.last, h.buffer, h.settled,
      fun hidle => le_trans (h.idle hidle) (Nat.le_add_right _ _), h.ended, h.apart, h.carriedOut⟩
  | request newSector writing => exact h.request ha hs
  | interrupt =>
    simp only [Drive.step, handleInterrupt] at hs
    split at hs
    case isFalse => cases hs
    case isTrue hdue =>
      cases hs
      rw [emit, List.append_nil]
      exact ⟨h.sector, h.last, h.buffer, h.settled, fun _ => hdue.2, h.ended, h.apart,
        h.carriedOut⟩

end Steps

theorem Runs.inv {rs : List Request} {d : Drive} (h : Run step emit InTime initial rs d) :
    Inv rs d :=
  h.invariant inv_initial fun _ _ _ _ hi ha hs => hi.step ha hs

/-- **Every request is carried out.**  In each run of the disk, whatever is requested and whenever:
a sector is read or written only when it has passed the head as a whole, on the track the head is
really on, before the request is said to be done; what is written passes after the request is made,
what is read may have passed before that and be in the track buffer; no request takes longer than to
the end of the first such sector after the seek; and one request is done before the next is made. -/
theorem requests_carried_out {rs : List Request} {d : Drive}
    (h : Run step emit InTime initial rs d) :
    (∀ before r after, rs = before ++ r :: after → CarriedOut rs before r) ∧
      (rs.Pairwise fun q r => q.now + q.latency ≤ r.now) ∧
      (d.active = false → ∀ r ∈ rs, r.now + r.latency ≤ d.totalTicks) := by
  have hinv := Runs.inv h
  exact ⟨hinv.carriedOut, hinv.apart,
    fun hidle r hr => le_trans (hinv.ended r hr) (hinv.idle hidle)⟩

instance (rs : List Request) (d : Drive) (a : Action) : Decidable (InTime rs d a) :=
  match a with
  | .request _ _ => inferInstanceAs (Decidable (_ < _))
  | .advance _ | .interrupt => .isTrue trivial

/-- A sector is read and read again, the second time from the track buffer, and another is written
on the next track. -/
def readsTwice : List Action :=
  [.request 3 false, .advance 2100, .interrupt, .request 3 false, .advance 500, .interrupt,
    .request 40 true]

theorem playChecked_readsTwice :
    (playChecked step emit (fun rs d a => decide (InTime rs d a)) [] initial readsTwice).map
      Prod.fst = some [⟨0, 3, false, 2000⟩, ⟨2100, 3, false, 500⟩, ⟨2600, 40, true, 1900⟩] := by
  decide +kernel

theorem requests_carried_out_buffered : ∃ rs d, Run step emit InTime initial rs d ∧
    rs = [⟨0, 3, false, 2000⟩, ⟨2100, 3, false, 500⟩, ⟨2600, 40, true, 1900⟩] ∧
    CarriedOut rs [⟨0, 3, false, 2000⟩] ⟨2100, 3, false, 500⟩ := by
  obtain ⟨r, hr, hrequests⟩ := Option.map_eq_some_iff.mp playChecked_readsTwice
  have hrun : Run step emit InTime initial r.1 r.2 :=
    (Run.start.playChecked hr).mono fun _ _ _ h => of_decide_eq_true h
  refine ⟨r.1, r.2, hrun, hrequests, ?_⟩
  exact (requests_carried_out hrun).1 _ _ [⟨2600, 40, true, 1900⟩] hrequests

end Drive
end PaldOs
