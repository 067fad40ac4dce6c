import PaldOs.PostOffice

/-! # The delivery of mail

The invariant of the post offices has two parts.  `Synchronized` is about the semaphores: one packet
is sent at a time on each machine, and `messageAvailable` is raised when a packet has been buffered,
for the postal worker to take out.  `Delivers` is about what the machines hold: what the network has
carried to a machine is what has been put into its mailboxes, followed by what is on the way, in
order; and what has been put into a mailbox is what has been taken out, followed by what it holds.
-/
namespace PaldOs
namespace PostalService
variable {T : Type} [DecidableEq T] {o : PostalService}

/-! ## Locks and phases -/

/-- The lock a phase needs. -/
def needs : PostPhase → Option ℕ
  | .acquiringSend _ _ _ _ => some sendLock
  | .sending => some sendLock
  | .acquiringBox box => some (boxLock box)
  | .waitingBox box => some (boxLock box)
  | .puttingMail mail => some (boxLock mail.mailHdr.destination)
  | .signallingBox box => some (boxLock box)
  | _ => none

omit [DecidableEq T] in
theorem disciplined : (o.client (T := T)).Disciplined needs where
  fits p := by cases p <;> simp [needs, client, call, Ideal.Fits, Kernel.Call.primitive]
  brings {m t x p d v} h := by
    have hpop : ∀ box, Ideal.holding (needs (pop m t box d).phase) (call (pop m t box d).phase) =
        some (boxLock box) := by
      intro box
      unfold pop
      split <;> rfl
    cases p with
    | outside =>
      simp only [client, proceed] at h
      split at h
      · split at h <;> cases h
        rfl
      · split at h <;> cases h
        rfl
    | acquiringSend =>
      simp only [client, proceed, Option.bind_eq_bind, Option.bind_eq_some_iff] at h
      obtain ⟨r, -, h⟩ := h
      cases h
      rfl
    | acquiringBox box | waitingBox box =>
      cases h
      exact hpop box
    | releasingBox | delivering =>
      simp only [client, proceed] at h
      split at h <;> cases h
      rfl
    | sending | releasingSend | postalHelper | puttingMail | signallingBox | releasingPut =>
      cases h
      rfl

/-- The phases of the postal worker. -/
def postal : PostPhase → Bool
  | .postalHelper => true
  | .delivering => true
  | .puttingMail _ => true
  | .signallingBox _ => true
  | .releasingPut _ => true
  | _ => false

variable {a : Ideal NetworkAddress T PostPhase (NetworkAddress → PostOffice)}
  {m m' : NetworkAddress} {t u : T}

omit [DecidableEq T] in
/-- No phase does a `V`: that is for the interrupts. -/
theorem call_ne_v (n : ℕ) (p : PostPhase) : (o.client (T := T)).call p ≠ some (.v n) := by
  cases p <;> exact nofun

omit [DecidableEq T] in
/-- Who waits for a packet to be sent. -/
theorem sending_of_call {p : PostPhase}
    (h : (o.client (T := T)).call p = some (.p messageSent)) : p = .sending := by
  cases p <;> first | rfl | cases h

omit [DecidableEq T] in
/-- Who waits for a packet to arrive. -/
theorem delivering_of_call {p : PostPhase}
    (h : (o.client (T := T)).call p = some (.p messageAvailable)) : p = .delivering := by
  cases p <;> first | rfl | cases h

/-- **The semaphores of the post offices.** -/
structure Synchronized (o : PostalService) (worker : T)
    (a : Ideal NetworkAddress T PostPhase (NetworkAddress → PostOffice)) : Prop where
  roles : ∀ m t, postal (a.phase (m, t)) = true ↔ t = worker
  notBusy : ∀ m, (a.data m).sendBusy = false
  sends : ∀ m, (a.prims m).Completion messageSent (a.data m).sendsDue
  arrivals : ∀ m, (a.prims m).Arrival messageAvailable
    (Ideal.Past (o.client (T := T)) messageAvailable a m) (decide ((a.data m).inHdr.length ≠ 0))

section Synchronized
variable {worker : T} {v : Move PostPhase (NetworkAddress → PostOffice) (PostEvent T)}
  {w : Handling (NetworkAddress → PostOffice) (PostEvent T)}

/-- A thread moves. -/
theorem Synchronized.moved (h : Synchronized o worker a) (hg : a.Guarded o.client needs)
    (hp : (a.prims m).pending t = none) (hrole : postal v.phase = postal (a.phase (m, t)))
    (hbusy : ∀ m', (v.data m').sendBusy = (a.data m').sendBusy)
    (hdue : ∀ m', (m' ≠ m ∨ v.phase ≠ .sending) →
      (v.data m').sendsDue = (a.data m').sendsDue)
    (hsend : v.phase = .sending → needs (a.phase (m, t)) = some sendLock ∧
      (v.data m).sendsDue = (a.data m).sendsDue + 1)
    (hin : ∀ m', (m' ≠ m ∨ a.phase (m, t) ≠ .delivering) →
      (v.data m').inHdr.length = (a.data m').inHdr.length)
    (htake : a.phase (m, t) = .delivering → (v.data m).inHdr.length = 0) :
    Synchronized o worker (a.moved o.client m t v) where
  roles m' u := by
    by_cases hmu : (m', u) = (m, t)
    · cases hmu
      rw [Ideal.moved_phase, Function.update_self, hrole]
      exact h.roles m t
    · rw [(Ideal.moved_other (a := a) (c := o.client) (v := v) hmu).1]
      exact h.roles m' u
  notBusy m' := (hbusy m').trans (h.notBusy m')
  sends m' := by
    show (((a.moved o.client m t v).prims m')).Completion messageSent (v.data m').sendsDue
    by_cases hs : m' = m ∧ v.phase = .sending
    · obtain ⟨rfl, hs⟩ := hs
      obtain ⟨hneeds, hcount⟩ := hsend hs
      have hno := hg.nobody_waiting (n := messageSent) hneeds hp fun p hcall => by
        rw [sending_of_call hcall]
        rfl
      obtain ⟨hzero, hreq⟩ := (h.sends m').request (t := t) hno
      rw [Ideal.moved_prims, hcount, hzero, hs]
      exact hreq
    · rw [hdue m' (not_and_or.mp hs)]
      exact Ideal.completion_moved (h.sends m') hp fun hm hcall =>
        hs ⟨hm, sending_of_call (o := o) (T := T) hcall⟩
  arrivals m' := by
    show (((a.moved o.client m t v).prims m')).Arrival messageAvailable _
      (decide ((v.data m').inHdr.length ≠ 0))
    by_cases hd : m' = m ∧ a.phase (m, t) = .delivering
    · obtain ⟨rfl, hd⟩ := hd
      have hpast : Ideal.Past (o.client (T := T)) messageAvailable a m' t :=
        ⟨by rw [hd]; rfl, hp⟩
      rw [htake hd, decide_eq_false (not_not_intro rfl)]
      exact (Ideal.arrival_taken (h.arrivals m') hpast).2
    · rw [hin m' (not_and_or.mp hd)]
      exact Ideal.arrival_moved (h.arrivals m') fun hm ht =>
        hd ⟨hm, delivering_of_call (o := o) (T := T) ht.1⟩

/-- A call takes effect. -/
theorem Synchronized.effected (h : Synchronized o worker a) (hg : a.Guarded o.client needs)
    {s : Primitives T} (he : Primitives.Effect (a.prims m) t s) :
    Synchronized o worker (a.effected m s) where
  roles := h.roles
  notBusy := h.notBusy
  sends m' := Ideal.completion_effected (h.sends m') hg (call_ne_v messageSent) he
  arrivals m' := Ideal.arrival_effected (h.arrivals m') hg (call_ne_v messageAvailable) he

omit [DecidableEq T] in
/-- A packet has been sent. -/
theorem Synchronized.sendDone (h : Synchronized o worker a) {s : PostOffice}
    (hdone : (a.data m).sendDone = some s) (hdata : w.data = Function.update a.data m s)
    (hraised : w.raised = some messageSent) : Synchronized o worker (a.handled m w) := by
  rw [PostOffice.sendDone] at hdone
  split at hdone
  · cases hdone
  · rename_i hdue
    have hs := (Option.some.inj hdone).symm
    have hone : (a.data m).sendsDue = 0 + 1 := by
      have hle := (h.sends m).le_one
      omega
    have hself : (a.handled m w).data m = s := by
      show w.data m = s
      rw [hdata, Function.update_self]
    have hother : ∀ m', m' ≠ m → (a.handled m w).data m' = a.data m' := by
      intro m' hm
      show w.data m' = _
      rw [hdata, Function.update_of_ne hm]
    refine ⟨h.roles, fun m' => ?_, fun m' => ?_, fun m' => ?_⟩
    · by_cases hm : m' = m
      · subst hm
        rw [hself, hs]
      · rw [hother m' hm]
        exact h.notBusy m'
    · by_cases hm : m' = m
      · subst hm
        have hsends := h.sends m'
        rw [hone] at hsends
        rw [hself, hs, hone, Ideal.handled_prims, hraised]
        exact hsends.raise
      · rw [hother m' hm, Ideal.handled_prims_of_ne hm]
        exact h.sends m'
    · have hlength : ((a.handled m w).data m').inHdr.length = (a.data m').inHdr.length := by
        by_cases hm : m' = m
        · subst hm
          rw [hself, hs]
        · rw [hother m' hm]
      rw [hlength]
      refine (h.arrivals m').congr (fun u => Ideal.past_handled) ?_
      by_cases hm : m' = m
      · subst hm
        rw [Ideal.handled_prims, hraised]
        rfl
      · rw [Ideal.handled_prims_of_ne hm]

omit [DecidableEq T] in
/-- A packet has been read from the socket. -/
theorem Synchronized.incoming (h : Synchronized o worker a) {s : PostOffice}
    (hempty : (a.data m).inHdr.length = 0) (hdata : w.data = Function.update a.data m s)
    (hraised : w.raised = some messageAvailable) (hfull : s.inHdr.length ≠ 0)
    (hbusy : s.sendBusy = (a.data m).sendBusy) (hdue : s.sendsDue = (a.data m).sendsDue) :
    Synchronized o worker (a.handled m w) := by
  have hself : (a.handled m w).data m = s := by
    show w.data m = s
    rw [hdata, Function.update_self]
  have hother : ∀ m', m' ≠ m → (a.handled m w).data m' = a.data m' := by
    intro m' hm
    show w.data m' = _
    rw [hdata, Function.update_of_ne hm]
  refine ⟨h.roles, fun m' => ?_, fun m' => ?_, fun m' => ?_⟩
  · by_cases hm : m' = m
    · subst hm
      rw [hself, hbusy]
      exact h.notBusy m'
    · rw [hother m' hm]
      exact h.notBusy m'
  · by_cases hm : m' = m
    · subst hm
      rw [hself, hdue]
      refine (h.sends m').congr (fun u => ?_) ?_
      · rw [Ideal.handled_seen.2]
      · rw [Ideal.handled_prims, hraised]
        rfl
    · rw [hother m' hm, Ideal.handled_prims_of_ne hm]
      exact h.sends m'
  · by_cases hm : m' = m
    · subst hm
      have harrivals := h.arrivals m'
      rw [hempty, decide_eq_false (not_not_intro rfl)] at harrivals
      rw [hself, decide_eq_true hfull, Ideal.handled_prims, hraised]
      exact harrivals.raise.congr (fun u => Ideal.past_handled) rfl
    · rw [hother m' hm, Ideal.handled_prims_of_ne hm]
      exact (h.arrivals m').congr (fun u => Ideal.past_handled) rfl

omit [DecidableEq T] in
/-- The socket is polled and nothing is read. -/
theorem Synchronized.polled (h : Synchronized o worker a) (hdata : w.data = a.data)
    (hraised : w.raised = none) : Synchronized o worker (a.handled m w) := by
  have hsame : (a.handled m w).data = a.data := hdata
  have hprims : (a.handled m w).prims = a.prims := by
    show Function.update a.prims m (Ideal.raised (a.prims m) w.raised) = _
    rw [hraised]
    exact Function.update_eq_self ..
  refine ⟨h.roles, fun m' => ?_, fun m' => ?_, fun m' => ?_⟩
  · rw [hsame]
    exact h.notBusy m'
  · rw [hsame, hprims]
    exact h.sends m'
  · rw [hsame, hprims]
    exact (h.arrivals m').congr (fun u => Ideal.past_handled) rfl

end Synchronized

/-! ## The flow of mail -/

/-- Mail that machine `b` can deliver. -/
structure Deliverable (o : PostalService) (b : NetworkAddress) (mail : Mail) : Prop where
  destination : mail.pktHdr.destination = b
  length : mail.pktHdr.length.toNat = sizeofMailHeader + mail.mailHdr.length.toNat
  short : mail.mailHdr.length.toNat ≤ maxMailSize
  box : o.legalBox mail.mailHdr.destination

/-- The mail of a machine: what is on the way into its mailboxes, and what these hold. -/
structure Stock where
  onTheWay : List Mail
  boxes : MailBoxAddress → List Mail

/-- The mail of a machine whose postal worker is in phase `p`. -/
def stock (p : PostPhase) (s : PostOffice) : Stock := ⟨inFlight p s, s.boxes⟩

/-- All of it can be delivered, or has been. -/
structure Stock.Deliverable (o : PostalService) (b : NetworkAddress) (k : Stock) : Prop where
  onTheWay : ∀ mail ∈ k.onTheWay, PostalService.Deliverable o b mail
  boxes : ∀ box, ∀ mail ∈ k.boxes box, PostalService.Deliverable o b mail

/-- **Nothing is lost, duplicated or overtaken** between two moments: what was on the way and what
the network has carried is what has been put into the mailboxes and what is on the way now; what a
mailbox held and what has been put into it is what has been taken out and what it holds now. -/
structure Stock.Flow (b : NetworkAddress) (es : List (PostEvent T)) (k k' : Stock) : Prop where
  onTheWay : k.onTheWay ++ carried b es = delivered b es ++ k'.onTheWay
  boxes : ∀ box, k.boxes box ++
      (delivered b es).filter (fun mail => mail.mailHdr.destination = box) =
    received b box es ++ k'.boxes box

namespace Stock
variable {b : NetworkAddress} {es es' : List (PostEvent T)} {k k' k'' : Stock}

omit [DecidableEq T] in
/-- Where nothing happens to the mail. -/
theorem Flow.none (hcarried : carried b es = []) (hdelivered : delivered b es = [])
    (hreceived : ∀ box, received b box es = []) : Flow b es k k where
  onTheWay := by rw [hcarried, hdelivered, List.append_nil, List.nil_append]
  boxes box := by rw [hdelivered, hreceived, List.filter_nil, List.append_nil, List.nil_append]

omit [DecidableEq T] in
/-- One moment after the other. -/
theorem Flow.append (h : Flow b es k k') (h' : Flow b es' k' k'') :
    Flow b (es ++ es') k k'' where
  onTheWay := by
    have hcarried : carried b (es ++ es') = carried b es ++ carried b es' := List.filterMap_append
    have hdelivered : delivered b (es ++ es') = delivered b es ++ delivered b es' :=
      List.filterMap_append
    rw [hcarried, hdelivered, ← List.append_assoc, h.onTheWay, List.append_assoc, h'.onTheWay,
      List.append_assoc]
  boxes box := by
    have hdelivered : delivered b (es ++ es') = delivered b es ++ delivered b es' :=
      List.filterMap_append
    have hreceived : received b box (es ++ es') = received b box es ++ received b box es' :=
      List.filterMap_append
    rw [hdelivered, hreceived, List.filter_append, ← List.append_assoc, h.boxes, List.append_assoc,
      h'.boxes, List.append_assoc]

omit [DecidableEq T] in
/-- What flows can be delivered. -/
theorem Flow.deliverable (h : Flow b es k k') {o : PostalService} (hk : k.Deliverable o b)
    (hes : ∀ mail ∈ carried b es, PostalService.Deliverable o b mail) : k'.Deliverable o b := by
  have hall : ∀ mail ∈ delivered b es ++ k'.onTheWay, PostalService.Deliverable o b mail := by
    intro mail hmem
    rw [← h.onTheWay, List.mem_append] at hmem
    exact hmem.elim (hk.onTheWay mail) (hes mail)
  refine ⟨fun mail hmem => hall mail (List.mem_append_right _ hmem), fun box mail hmem => ?_⟩
  have hmem' : mail ∈ received b box es ++ k'.boxes box := List.mem_append_right _ hmem
  rw [← h.boxes box, List.mem_append, List.mem_filter] at hmem'
  rcases hmem' with hmem' | ⟨hmem', -⟩
  · exact hk.boxes box mail hmem'
  · exact hall mail (List.mem_append_left _ hmem')

end Stock

/-! ## The delivery -/

/-- What a thread has prepared in its routine. -/
def Prepared (o : PostalService) (m : NetworkAddress) : PostPhase → Prop
  | .acquiringSend pktHdr mailHdr data buffer =>
      pktHdr.source = m ∧ Deliverable o pktHdr.destination (.make pktHdr mailHdr data) ∧
        ∃ heap, buffer = mailHdr.pack heap data
  | .releasingBox _ mail => mail.mailHdr.length.toNat ≤ maxMailSize
  | _ => True

/-- **What the post offices do.** -/
structure Delivers (o : PostalService) (worker : T) (tr : List (PostEvent T))
    (a : Ideal NetworkAddress T PostPhase (NetworkAddress → PostOffice)) : Prop where
  prepared : ∀ m t, Prepared o m (a.phase (m, t))
  deliverable : ∀ b, (stock (a.phase (b, worker)) (a.data b)).Deliverable o b
  flow : ∀ b, Stock.Flow b tr ⟨[], fun _ => []⟩ (stock (a.phase (b, worker)) (a.data b))

section Delivers
variable {worker : T} {tr : List (PostEvent T)}
  {v : Move PostPhase (NetworkAddress → PostOffice) (PostEvent T)}
  {w : Handling (NetworkAddress → PostOffice) (PostEvent T)}

omit [DecidableEq T] in
/-- What a step has to do with the mail. -/
theorem Delivers.next (h : Delivers o worker tr a) {es : List (PostEvent T)}
    {a' : Ideal NetworkAddress T PostPhase (NetworkAddress → PostOffice)}
    (hprepared : ∀ m t, Prepared o m (a'.phase (m, t)))
    (hflow : ∀ b, Stock.Flow b es (stock (a.phase (b, worker)) (a.data b))
      (stock (a'.phase (b, worker)) (a'.data b)))
    (hcarried : ∀ b, ∀ mail ∈ carried b es, Deliverable o b mail) :
    Delivers o worker (tr ++ es) a' where
  prepared := hprepared
  deliverable b := (hflow b).deliverable (h.deliverable b) (hcarried b)
  flow b := (h.flow b).append (hflow b)

omit [DecidableEq T] in
/-- A step after which the mail is where it was. -/
theorem Delivers.quiet (h : Delivers o worker tr a) {es : List (PostEvent T)}
    {a' : Ideal NetworkAddress T PostPhase (NetworkAddress → PostOffice)}
    (hprepared : ∀ m t, Prepared o m (a'.phase (m, t))) (hes : es = [])
    (hstock : ∀ b, stock (a'.phase (b, worker)) (a'.data b) =
      stock (a.phase (b, worker)) (a.data b)) :
    Delivers o worker (tr ++ es) a' := by
  subst hes
  apply h.next hprepared
  · intro b
    rw [hstock]
    exact .none rfl rfl fun _ => rfl
  · intro b mail hmem
    cases hmem

/-- What a thread has prepared, in a move of one. -/
theorem prepared_moved (h : ∀ m t, Prepared o m (a.phase (m, t))) (hv : Prepared o m v.phase)
    (m' : NetworkAddress) (u : T) :
    Prepared o m' ((a.moved (o.client (T := T)) m t v).phase (m', u)) := by
  by_cases hmu : (m', u) = (m, t)
  · cases hmu
    rw [Ideal.moved_phase, Function.update_self]
    exact hv
  · rw [(Ideal.moved_other (c := o.client (T := T)) (v := v) hmu).1]
    exact h m' u

/-- What the postal worker has in its hands, in a move of a thread. -/
theorem held_moved (hv : held v.phase = held (a.phase (m, t))) (b : NetworkAddress) :
    held ((a.moved (o.client (T := T)) m t v).phase (b, worker)) = held (a.phase (b, worker)) := by
  by_cases hb : (b, worker) = (m, t)
  · cases hb
    rw [Ideal.moved_phase, Function.update_self]
    exact hv
  · rw [(Ideal.moved_other (c := o.client (T := T)) (v := v) hb).1]

omit [DecidableEq T] in
/-- The stock depends on what the postal worker has in its hands. -/
theorem stock_congr {p p' : PostPhase} (h : held p = held p') (s : PostOffice) :
    stock p s = stock p' s := by
  rw [stock, stock, inFlight, inFlight, h]

/-- A thread goes from one routine to the next. -/
theorem Delivers.passed (h : Delivers o worker tr a) (hdata : v.data = a.data)
    (hes : v.events = []) (hheld : held v.phase = held (a.phase (m, t)))
    (hv : Prepared o m v.phase) :
    Delivers o worker (tr ++ v.events) (a.moved o.client m t v) := by
  refine h.quiet (prepared_moved h.prepared hv) hes fun b => ?_
  rw [Ideal.moved_data, hdata]
  exact stock_congr (held_moved hheld b) _

omit [DecidableEq T] in
/-- What `Network::Send` does on each machine. -/
theorem networkSend_spec {random : ℕ} {heap data : ℕ → UInt8} {hdr : PacketHeader}
    {d : NetworkAddress → PostOffice} {r : (NetworkAddress → PostOffice) × Bool}
    (h : o.networkSend m random heap hdr data d = some r) (b : NetworkAddress) :
    r.1 b = { d b with
      sendsDue := (d b).sendsDue + if b = m then 1 else 0
      sock := (d b).sock ++
        if r.2 = false ∧ hdr.destination = b then [hdr.pack heap data] else [] } := by
  have hown : Function.update d m { d m with sendsDue := (d m).sendsDue + 1 } b =
      { d b with sendsDue := (d b).sendsDue + if b = m then 1 else 0 } := by
    by_cases hb : b = m
    · subst hb
      simp
    · simp [hb]
  unfold networkSend at h
  split at h
  · split at h
    · cases h
      simp [hown]
    · split at h
      · cases h
        by_cases hb : b = hdr.destination
        · subst hb
          simp [hown]
        · simp [hb, Ne.symm hb, hown]
      · cases h
  · cases h

/-- A packet is sent, or lost. -/
theorem Delivers.sent (h : Delivers o worker tr a) {random : ℕ} {heap data buffer : ℕ → UInt8}
    {pktHdr : PacketHeader} {mailHdr : MailHeader} {lost : Bool}
    (hphase : a.phase (m, t) = .acquiringSend pktHdr mailHdr data buffer)
    (hsend : o.networkSend m random heap pktHdr buffer a.data = some (v.data, lost))
    (hnew : v.phase = .sending)
    (hes : v.events = [.sent m t (.make pktHdr mailHdr data) lost]) :
    Delivers o worker (tr ++ v.events) (a.moved o.client m t v) := by
  have hprepared := h.prepared m t
  rw [hphase] at hprepared
  obtain ⟨-, hmail, heap', rfl⟩ := hprepared
  have hpacket : Mail.ofPacket (pktHdr.pack heap (mailHdr.pack heap' data)) =
      .make pktHdr mailHdr data := (Mail.ofPacket_pack hmail.length).2
  have hcarried : ∀ b, carried b v.events =
      if lost = false ∧ pktHdr.destination = b then [.make pktHdr mailHdr data] else [] := by
    intro b
    rw [hes]
    simp only [carried, List.filterMap_cons, List.filterMap_nil, Mail.make]
    by_cases hb : lost = false ∧ pktHdr.destination = b <;> simp [hb]
  apply h.next
  · apply prepared_moved h.prepared
    rw [hnew]
    trivial
  · intro b
    have hheld : held ((a.moved (o.client (T := T)) m t v).phase (b, worker)) =
        held (a.phase (b, worker)) := held_moved (by rw [hnew, hphase]; rfl) b
    have hnow : v.data b = _ := networkSend_spec hsend b
    rw [stock_congr hheld, Ideal.moved_data, hnow]
    have hdelivered : delivered b v.events = [] := by rw [hes]; rfl
    have hreceived : ∀ box, received b box v.events = [] := by
      intro box
      rw [hes]
      rfl
    refine ⟨?_, fun box => ?_⟩
    · rw [hcarried, hdelivered]
      simp only [stock, inFlight, buffered, List.map_append, List.nil_append, List.append_assoc]
      by_cases hb : lost = false ∧ pktHdr.destination = b <;> simp [hb, hpacket]
    · rw [hdelivered, hreceived]
      simp [stock]
  · intro b mail hmem
    rw [hcarried] at hmem
    split at hmem
    · rename_i hb
      rw [List.mem_singleton] at hmem
      rw [hmem, ← hb.2]
      exact hmail
    · cases hmem

/-- Mail is taken out of a mailbox. -/
theorem Delivers.popped (h : Delivers o worker tr a) {box : MailBoxAddress} {mail : Mail}
    {rest : List Mail} (hbox : (a.data m).boxes box = mail :: rest)
    (hheld : held (a.phase (m, t)) = [])
    (hdata : v.data = Function.update a.data m
      { a.data m with boxes := Function.update (a.data m).boxes box rest })
    (hnew : v.phase = .releasingBox box mail) (hes : v.events = [.received m t box mail]) :
    Delivers o worker (tr ++ v.events) (a.moved o.client m t v) := by
  have hmail : Deliverable o m mail := by
    refine (h.deliverable m).boxes box mail ?_
    show mail ∈ (a.data m).boxes box
    rw [hbox]
    exact List.mem_cons_self
  apply h.next
  · apply prepared_moved h.prepared
    rw [hnew]
    exact hmail.short
  · intro b
    have hsame : held ((a.moved (o.client (T := T)) m t v).phase (b, worker)) =
        held (a.phase (b, worker)) := held_moved (by rw [hnew, hheld]; rfl) b
    rw [stock_congr hsame, Ideal.moved_data, hdata, hes]
    by_cases hb : b = m
    · subst hb
      rw [Function.update_self]
      refine ⟨by simp [stock, inFlight, buffered, carried, delivered], fun box' => ?_⟩
      by_cases hbox' : box' = box
      · subst hbox'
        simp [stock, delivered, received, hbox]
      · simp [stock, delivered, received, hbox', Ne.symm hbox']
    · rw [Function.update_of_ne hb]
      refine .none rfl rfl fun box' => ?_
      simp [received, Ne.symm hb]
  · intro b mail' hmem
    rw [hes] at hmem
    cases hmem

/-- The postal worker takes mail out of the device. -/
theorem Delivers.taken (h : Delivers o worker tr a) (ht : t = worker)
    (hphase : a.phase (m, t) = .delivering) (hfull : (a.data m).inHdr.length ≠ 0)
    (hdata : v.data = Function.update a.data m (a.data m).networkReceive.2)
    (hnew : v.phase = .puttingMail (Mail.ofPayload (a.data m).networkReceive.1
      (a.data m).networkReceive.2.buffer)) (hes : v.events = []) :
    Delivers o worker (tr ++ v.events) (a.moved o.client m t v) ∧
      Deliverable o m (Mail.ofPayload (a.data m).networkReceive.1
        (a.data m).networkReceive.2.buffer) := by
  subst ht
  have hbuffered : buffered (a.data m) = [Mail.ofPayload (a.data m).inHdr (a.data m).inbox] :=
    if_neg hfull
  have hmail : Deliverable o m (Mail.ofPayload (a.data m).inHdr (a.data m).inbox) := by
    refine (h.deliverable m).onTheWay _ ?_
    simp [stock, inFlight, hbuffered]
  -- the mail is in the part of the packet that is copied
  have hsame : Mail.ofPayload (a.data m).networkReceive.1 (a.data m).networkReceive.2.buffer =
      Mail.ofPayload (a.data m).inHdr (a.data m).inbox := by
    refine (Mail.ofPayload_congr fun i hi => ?_).symm
    rw [PostOffice.networkReceive, if_pos hfull]
    have hin : i < (a.data m).inHdr.length.toNat := by
      have hlength : (a.data m).inHdr.length.toNat = _ := hmail.length
      rw [hlength]
      exact hi
    have hcopied : blit (a.data m).buffer 0 (a.data m).inHdr.length.toNat (a.data m).inbox (0 + i) =
        (a.data m).inbox i := blit_add hin
    rw [Nat.zero_add] at hcopied
    exact hcopied.symm
  rw [hsame] at hnew ⊢
  refine ⟨h.quiet (prepared_moved h.prepared (by rw [hnew]; trivial)) hes fun b => ?_, hmail⟩
  rw [Ideal.moved_data, hdata]
  by_cases hb : b = m
  · subst hb
    rw [Ideal.moved_phase, Function.update_self, Function.update_self, hnew, hphase]
    have hempty : buffered (a.data b).networkReceive.2 = [] := if_pos rfl
    rw [stock, stock, inFlight, inFlight, hbuffered, hempty]
    rfl
  · rw [Function.update_of_ne hb, Ideal.moved_phase, Function.update_of_ne]
    intro he
    exact hb (congrArg Prod.fst he)

/-- The postal worker puts mail into a mailbox. -/
theorem Delivers.appended (h : Delivers o worker tr a) (ht : t = worker) {mail : Mail}
    (hphase : a.phase (m, t) = .puttingMail mail)
    (hdata : v.data = Function.update a.data m { a.data m with
      boxes := Function.update (a.data m).boxes mail.mailHdr.destination
        ((a.data m).boxes mail.mailHdr.destination ++ [mail]) })
    (hnew : v.phase = .signallingBox mail.mailHdr.destination)
    (hes : v.events = [.delivered m mail]) :
    Delivers o worker (tr ++ v.events) (a.moved o.client m t v) := by
  subst ht
  apply h.next
  · apply prepared_moved h.prepared
    rw [hnew]
    trivial
  · intro b
    rw [Ideal.moved_data, hdata, hes]
    by_cases hb : b = m
    · subst hb
      rw [Ideal.moved_phase, Function.update_self, Function.update_self, hnew, hphase]
      refine ⟨by simp [stock, inFlight, held, buffered, carried, delivered], fun box => ?_⟩
      by_cases hbox : mail.mailHdr.destination = box
      · subst hbox
        simp [stock, delivered, received]
      · simp [stock, delivered, received, hbox, Ne.symm hbox]
    · rw [Function.update_of_ne hb, Ideal.moved_phase, Function.update_of_ne]
      · refine .none rfl ?_ fun _ => rfl
        simp [delivered, Ne.symm hb]
      · intro he
        exact hb (congrArg Prod.fst he)
  · intro b mail' hmem
    rw [hes] at hmem
    cases hmem

omit [DecidableEq T] in
/-- A packet is read from the socket, and is what the device expects. -/
theorem Delivers.incoming (h : Delivers o worker tr a) {packet : ℕ → UInt8}
    {rest : List (ℕ → UInt8)} (hsock : (a.data m).sock = packet :: rest) :
    (PacketHeader.ofBytes packet).destination = m ∧
      (PacketHeader.ofBytes packet).length.toNat ≤ maxPacketSize ∧
      (PacketHeader.ofBytes packet).length ≠ 0 ∧
      ∀ inbox, Mail.ofPayload (PacketHeader.ofBytes packet)
        (blit inbox 0 (PacketHeader.ofBytes packet).length.toNat
          fun i => packet (sizeofPacketHeader + i)) = Mail.ofPacket packet := by
  have hmail : Deliverable o m (Mail.ofPacket packet) := by
    refine (h.deliverable m).onTheWay _ ?_
    simp [stock, inFlight, hsock]
  have hlength : (PacketHeader.ofBytes packet).length.toNat =
      sizeofMailHeader + (Mail.ofPacket packet).mailHdr.length.toNat := hmail.length
  have hshort := hmail.short
  have hsizes : sizeofMailHeader + maxMailSize = maxPacketSize := rfl
  refine ⟨hmail.destination, by omega, fun hzero => ?_, fun inbox => ?_⟩
  · rw [hzero] at hlength
    have hzero' : (0 : BitVec 32).toNat = 0 := rfl
    rw [hzero', sizeofMailHeader] at hlength
    omega
  · refine (Mail.ofPayload_congr fun i hi => ?_).symm
    have hin : i < (PacketHeader.ofBytes packet).length.toNat := by
      rw [hlength]
      exact hi
    have hcopied : blit inbox 0 (PacketHeader.ofBytes packet).length.toNat
        (fun i => packet (sizeofPacketHeader + i)) (0 + i) = packet (sizeofPacketHeader + i) :=
      blit_add hin
    rw [Nat.zero_add] at hcopied
    exact hcopied.symm

end Delivers

/-! ## The invariant -/

/-- The invariant of the post offices. -/
structure Inv (o : PostalService) (worker : T) (tr : List (PostEvent T))
    (a : Ideal NetworkAddress T PostPhase (NetworkAddress → PostOffice)) : Prop where
  sync : Synchronized o worker a
  delivers : Delivers o worker tr a

section Inv
variable {worker : T} {tr : List (PostEvent T)}
  {v : Move PostPhase (NetworkAddress → PostOffice) (PostEvent T)}
  {w : Handling (NetworkAddress → PostOffice) (PostEvent T)}

/-- A thread moves that neither sends a packet nor takes one out of the device. -/
theorem Synchronized.passed (h : Synchronized o worker a) (hg : a.Guarded o.client needs)
    (hp : (a.prims m).pending t = none) (hrole : postal v.phase = postal (a.phase (m, t)))
    (hdata : ∀ m', (v.data m').sendBusy = (a.data m').sendBusy ∧
      (v.data m').sendsDue = (a.data m').sendsDue ∧ (v.data m').inHdr = (a.data m').inHdr)
    (hv : v.phase ≠ .sending) (hold : a.phase (m, t) ≠ .delivering) :
    Synchronized o worker (a.moved o.client m t v) := by
  apply h.moved hg hp hrole
  · exact fun m' => (hdata m').1
  · exact fun m' _ => (hdata m').2.1
  · exact fun hs => absurd hs hv
  · intro m' _
    rw [(hdata m').2.2]
  · exact fun hd => absurd hd hold

/-- A thread goes from one routine to the next. -/
theorem Inv.passed (h : Inv o worker tr a) (hg : a.Guarded o.client needs)
    (hp : (a.prims m).pending t = none) (hrole : postal v.phase = postal (a.phase (m, t)))
    (hdata : v.data = a.data) (hes : v.events = []) (hv : v.phase ≠ .sending)
    (hold : a.phase (m, t) ≠ .delivering) (hheld : held v.phase = held (a.phase (m, t)))
    (hprepared : Prepared o m v.phase) :
    Inv o worker (tr ++ v.events) (a.moved o.client m t v) where
  sync := h.sync.passed hg hp hrole (fun m' => by rw [hdata]; exact ⟨rfl, rfl, rfl⟩) hv hold
  delivers := h.delivers.passed hdata hes hheld hprepared

omit [DecidableEq T] in
/-- What `Send` hands to the network can be delivered. -/
theorem deliverable_send {pktHdr : PacketHeader} {mailHdr : MailHeader} {data : ℕ → UInt8}
    (hshort : mailHdr.length.toNat ≤ maxMailSize) (hbox : o.legalBox mailHdr.destination) :
    Deliverable o pktHdr.destination (.make { pktHdr with
      source := m, length := mailHdr.length + BitVec.ofNat 32 sizeofMailHeader } mailHdr data) where
  destination := rfl
  length := by
    have hmax : maxMailSize = 40 := rfl
    have hsize : (BitVec.ofNat 32 sizeofMailHeader).toNat = sizeofMailHeader := rfl
    have hheader : sizeofMailHeader = 12 := rfl
    show (mailHdr.length + BitVec.ofNat 32 sizeofMailHeader).toNat = _
    rw [BitVec.toNat_add, hsize, Nat.mod_eq_of_lt (by omega), Nat.add_comm]
    rfl
  short := hshort
  box := hbox

/-- A thread pops its mailbox. -/
theorem Inv.pop (h : Inv o worker tr a) (hg : a.Guarded o.client needs)
    (hp : (a.prims m).pending t = none) {box : MailBoxAddress}
    (hphase : a.phase (m, t) = .acquiringBox box ∨ a.phase (m, t) = .waitingBox box) :
    Inv o worker (tr ++ (pop m t box a.data).events)
      (a.moved o.client m t (pop m t box a.data)) := by
  have hheld : held (a.phase (m, t)) = [] := by
    rcases hphase with hphase | hphase <;> rw [hphase] <;> rfl
  have hrole : postal (a.phase (m, t)) = false := by
    rcases hphase with hphase | hphase <;> rw [hphase] <;> rfl
  have hold : a.phase (m, t) ≠ .delivering := by
    intro hd
    rw [hd] at hrole
    cases hrole
  cases hbox : (a.data m).boxes box with
  | nil =>
    have hpop : PostalService.pop m t box a.data = ⟨.waitingBox box, a.data, []⟩ := by
      rw [PostalService.pop, hbox]
    rw [hpop]
    exact h.passed hg hp hrole.symm rfl rfl nofun hold hheld.symm trivial
  | cons mail rest =>
    have hpop : PostalService.pop m t box a.data = ⟨.releasingBox box mail,
        Function.update a.data m
          { a.data m with boxes := Function.update (a.data m).boxes box rest },
        [.received m t box mail]⟩ := by
      rw [PostalService.pop, hbox]
    rw [hpop]
    refine ⟨h.sync.passed hg hp hrole.symm (fun m' => ?_) nofun hold,
      h.delivers.popped hbox hheld rfl rfl rfl⟩
    by_cases hm : m' = m
    · subst hm
      simp
    · simp [hm]

/-- A thread sends. -/
theorem Inv.send (h : Inv o worker tr a) (hg : a.Guarded o.client needs)
    (hp : (a.prims m).pending t = none) {random : ℕ} {heap data buffer : ℕ → UInt8}
    {pktHdr : PacketHeader} {mailHdr : MailHeader} {lost : Bool}
    (hphase : a.phase (m, t) = .acquiringSend pktHdr mailHdr data buffer)
    (hsend : o.networkSend m random heap pktHdr buffer a.data = some (v.data, lost))
    (hnew : v.phase = .sending)
    (hes : v.events = [.sent m t (.make pktHdr mailHdr data) lost]) :
    Inv o worker (tr ++ v.events) (a.moved o.client m t v) where
  sync := by
    have hdata : ∀ b, v.data b = _ := networkSend_spec hsend
    apply h.sync.moved hg hp
    · rw [hnew, hphase]
      rfl
    · intro m'
      rw [hdata]
    · intro m' hm
      have hm' : m' ≠ m := hm.resolve_right (not_not_intro hnew)
      rw [hdata]
      simp [hm']
    · intro _
      rw [hphase, hdata]
      exact ⟨rfl, by simp⟩
    · intro m' _
      rw [hdata]
    · intro hd
      rw [hphase] at hd
      cases hd
  delivers := h.delivers.sent hphase hsend hnew hes

/-- A thread that is past `messageAvailable->P()` is the postal worker, and finds a packet. -/
theorem Synchronized.arrived (h : Synchronized o worker a)
    (hphase : a.phase (m, t) = .delivering) (hp : (a.prims m).pending t = none) :
    t = worker ∧ (a.data m).inHdr.length ≠ 0 := by
  refine ⟨(h.roles m t).mp (by rw [hphase]; rfl), ?_⟩
  have hpast : Ideal.Past (o.client (T := T)) messageAvailable a m t :=
    ⟨by rw [hphase]; rfl, hp⟩
  have hfull := (Ideal.arrival_taken
    (v := (⟨.delivering, a.data, []⟩ : Move _ _ (PostEvent T))) (h.arrivals m) hpast).1
  exact of_decide_eq_true hfull

/-- The postal worker takes mail out of the device. -/
theorem Inv.take (h : Inv o worker tr a) (hg : a.Guarded o.client needs)
    (hp : (a.prims m).pending t = none) (hphase : a.phase (m, t) = .delivering)
    (hdata : v.data = Function.update a.data m (a.data m).networkReceive.2)
    (hnew : v.phase = .puttingMail (Mail.ofPayload (a.data m).networkReceive.1
      (a.data m).networkReceive.2.buffer)) (hes : v.events = []) :
    Inv o worker (tr ++ v.events) (a.moved o.client m t v) := by
  obtain ⟨ht, hfull⟩ := h.sync.arrived hphase hp
  refine ⟨?_, (h.delivers.taken ht hphase hfull hdata hnew hes).1⟩
  have hsame : ∀ m', (v.data m').sendBusy = (a.data m').sendBusy ∧
      (v.data m').sendsDue = (a.data m').sendsDue := by
    intro m'
    rw [hdata]
    by_cases hm : m' = m
    · subst hm
      simp [PostOffice.networkReceive]
    · simp [hm]
  apply h.sync.moved hg hp
  · rw [hnew, hphase]
    rfl
  · exact fun m' => (hsame m').1
  · exact fun m' _ => (hsame m').2
  · intro hs
    rw [hnew] at hs
    cases hs
  · intro m' hm
    have hm' : m' ≠ m := hm.resolve_right (not_not_intro hphase)
    rw [hdata, Function.update_of_ne hm']
  · intro _
    rw [hdata, Function.update_self]
    rfl

/-- The postal worker puts mail into a mailbox. -/
theorem Inv.append (h : Inv o worker tr a) (hg : a.Guarded o.client needs)
    (hp : (a.prims m).pending t = none) {mail : Mail} (hphase : a.phase (m, t) = .puttingMail mail)
    (hdata : v.data = Function.update a.data m { a.data m with
      boxes := Function.update (a.data m).boxes mail.mailHdr.destination
        ((a.data m).boxes mail.mailHdr.destination ++ [mail]) })
    (hnew : v.phase = .signallingBox mail.mailHdr.destination)
    (hes : v.events = [.delivered m mail]) :
    Inv o worker (tr ++ v.events) (a.moved o.client m t v) := by
  have ht : t = worker := (h.sync.roles m t).mp (by rw [hphase]; rfl)
  refine ⟨?_, h.delivers.appended ht hphase hdata hnew hes⟩
  apply h.sync.passed hg hp
  · rw [hnew, hphase]
    rfl
  · intro m'
    rw [hdata]
    by_cases hm : m' = m
    · subst hm
      simp
    · simp [hm]
  · rw [hnew]
    nofun
  · rw [hphase]
    nofun

/-- A thread moves. -/
theorem Inv.move (h : Inv o worker tr a) (hg : a.Guarded o.client needs)
    (hp : (a.prims m).pending t = none) {x : PostInput}
    (hv : o.proceed m t x (a.phase (m, t)) a.data = some v) :
    Inv o worker (tr ++ v.events) (a.moved o.client m t v) := by
  cases hphase : a.phase (m, t) with
  | outside =>
    simp only [hphase, proceed] at hv
    split at hv
    · split at hv
      · rename_i hlegal
        cases hv
        exact h.passed hg hp (by rw [hphase]; rfl) rfl rfl nofun (by rw [hphase]; nofun)
          (by rw [hphase]; rfl) ⟨rfl, deliverable_send hlegal.1 hlegal.2, _, rfl⟩
      · cases hv
    · split at hv
      · cases hv
        exact h.passed hg hp (by rw [hphase]; rfl) rfl rfl nofun (by rw [hphase]; nofun)
          (by rw [hphase]; rfl) trivial
      · cases hv
  | acquiringSend pktHdr mailHdr data buffer =>
    simp only [hphase, proceed, Option.bind_eq_bind, Option.bind_eq_some_iff] at hv
    obtain ⟨r, hsend, hv⟩ := hv
    cases hv
    exact h.send hg hp hphase hsend rfl rfl
  | acquiringBox box =>
    rw [hphase] at hv
    cases hv
    exact h.pop hg hp (Or.inl hphase)
  | waitingBox box =>
    rw [hphase] at hv
    cases hv
    exact h.pop hg hp (Or.inr hphase)
  | releasingBox box mail =>
    simp only [hphase, proceed] at hv
    split at hv
    · cases hv
      exact h.passed hg hp (by rw [hphase]; rfl) rfl rfl nofun (by rw [hphase]; nofun)
        (by rw [hphase]; rfl) trivial
    · cases hv
  | delivering =>
    simp only [hphase, proceed] at hv
    split at hv
    · cases hv
      exact h.take hg hp hphase rfl rfl rfl
    · cases hv
  | puttingMail mail =>
    rw [hphase] at hv
    cases hv
    exact h.append hg hp hphase rfl rfl rfl
  | sending | releasingSend | postalHelper | signallingBox | releasingPut =>
    rw [hphase] at hv
    cases hv
    exact h.passed hg hp (by rw [hphase]; rfl) rfl rfl nofun (by rw [hphase]; nofun)
      (by rw [hphase]; rfl) trivial

/-- A call takes effect. -/
theorem Inv.effect (h : Inv o worker tr a) (hg : a.Guarded o.client needs) {s : Primitives T}
    (he : Primitives.Effect (a.prims m) t s) : Inv o worker tr (a.effected m s) where
  sync := h.sync.effected hg he
  delivers := ⟨h.delivers.prepared, h.delivers.deliverable, h.delivers.flow⟩

omit [DecidableEq T] in
/-- An interrupt that leaves the mail where it is. -/
theorem Delivers.handled (h : Delivers o worker tr a) {s : PostOffice}
    (hdata : w.data = Function.update a.data m s) (hes : w.events = [])
    (hstock : ∀ p, stock p s = stock p (a.data m)) :
    Delivers o worker (tr ++ w.events) (a.handled m w) := by
  refine h.quiet h.prepared hes fun b => ?_
  show stock (a.phase (b, worker)) (w.data b) = _
  rw [hdata]
  by_cases hb : b = m
  · subst hb
    rw [Function.update_self]
    exact hstock _
  · rw [Function.update_of_ne hb]

omit [DecidableEq T] in
/-- What polling the socket does: nothing, or a packet is read. -/
theorem checkPktAvail_cases (h : Delivers o worker tr a) :
    (a.data m).checkPktAvail m = some (a.data m, false) ∨
      ∃ s, (a.data m).checkPktAvail m = some (s, true) ∧ (a.data m).inHdr.length = 0 ∧
        s.inHdr.length ≠ 0 ∧ s.sendBusy = (a.data m).sendBusy ∧
        s.sendsDue = (a.data m).sendsDue ∧ ∀ p, stock p s = stock p (a.data m) := by
  unfold PostOffice.checkPktAvail
  split
  · exact Or.inl rfl
  · rename_i hempty
    rw [not_not] at hempty
    split
    · exact Or.inl rfl
    · rename_i packet rest hsock
      obtain ⟨hdest, hlength, hne, hmail⟩ := h.incoming hsock
      rw [if_pos ⟨hdest, hlength⟩]
      refine Or.inr ⟨_, rfl, hempty, hne, rfl, rfl, fun p => ?_⟩
      have hnone : buffered (a.data m) = [] := if_pos hempty
      rw [stock, stock, inFlight, inFlight, hnone, buffered, if_neg hne, hmail, hsock]
      simp

omit [DecidableEq T] in
/-- An interrupt comes. -/
theorem Inv.interrupt (h : Inv o worker tr a) {y : NetworkInterrupt}
    (hw : PostalService.interrupt m y a.data = some w) :
    Inv o worker (tr ++ w.events) (a.handled m w) := by
  cases y with
  | sendDone =>
    simp only [PostalService.interrupt, Option.bind_eq_bind, Option.bind_eq_some_iff] at hw
    obtain ⟨s, hdone, hw⟩ := hw
    cases hw
    refine ⟨h.sync.sendDone hdone rfl rfl, h.delivers.handled rfl rfl fun p => ?_⟩
    rw [PostOffice.sendDone] at hdone
    split at hdone
    · cases hdone
    · rw [← Option.some.inj hdone]
      rfl
  | checkPktAvail =>
    simp only [PostalService.interrupt, Option.bind_eq_bind, Option.bind_eq_some_iff] at hw
    obtain ⟨r, hcheck, hw⟩ := hw
    cases hw
    rcases checkPktAvail_cases (m := m) h.delivers with hnone | ⟨s, hread, hempty, hfull, hs⟩
    · rw [hnone] at hcheck
      cases hcheck
      exact ⟨h.sync.polled (Function.update_eq_self ..) rfl,
        h.delivers.handled rfl rfl fun p => rfl⟩
    · rw [hread] at hcheck
      cases hcheck
      exact ⟨h.sync.incoming hempty rfl rfl hfull hs.1 hs.2.1, h.delivers.handled rfl rfl hs.2.2⟩

end Inv

/-! ## Runs -/

section Runs
variable {worker : T} {multilevel : Bool} {priority : NetworkAddress → T → ℕ}
  {ready : NetworkAddress → List T}
  {memory : NetworkAddress → PacketHeader × (ℕ → UInt8) × (ℕ → UInt8)}
  {tr : List (PostEvent T)} {s : Cluster NetworkAddress T PostPhase (NetworkAddress → PostOffice)}

theorem inv_initial : Inv o worker []
    (.initial (startPhase worker) fun m =>
      opened (memory m).1 (memory m).2.1 (memory m).2.2) where
  sync := by
    refine ⟨fun m t => ?_, fun m => rfl, fun m => .idle nofun rfl,
      fun m => .nothing rfl fun t ht => ?_⟩
    · show postal (startPhase worker (m, t)) = true ↔ t = worker
      by_cases ht : t = worker <;> simp [startPhase, ht, postal]
    · have hcall : call (startPhase worker (m, t)) = some (.p messageAvailable) := ht.1
      by_cases htw : t = worker <;> simp [startPhase, htw, call] at hcall
  delivers := by
    have hstock : ∀ b : NetworkAddress, stock (startPhase worker (b, worker))
        (opened (memory b).1 (memory b).2.1 (memory b).2.2) = ⟨[], fun _ => []⟩ := by
      intro b
      simp [stock, inFlight, startPhase, held, opened, buffered]
    refine ⟨fun m t => ?_, fun b => ?_, fun b => ?_⟩
    · show Prepared o m (startPhase worker (m, t))
      by_cases ht : t = worker <;> simp [startPhase, ht, Prepared]
    · show (stock (startPhase worker (b, worker))
        (opened (memory b).1 (memory b).2.1 (memory b).2.2)).Deliverable o b
      rw [hstock]
      exact ⟨nofun, nofun⟩
    · show Stock.Flow b [] _ (stock (startPhase worker (b, worker))
        (opened (memory b).1 (memory b).2.1 (memory b).2.2))
      rw [hstock]
      exact .none rfl rfl fun _ => rfl

/-- The invariant is kept. -/
theorem keeps : (o.client (T := T)).Keeps needs
    (.initial (startPhase worker) fun m => opened (memory m).1 (memory m).2.1 (memory m).2.2)
    (Inv o worker) where
  start := inv_initial
  move h hg hp hv := h.move hg hp hv
  effect h hg he := h.effect hg he
  interrupt h _ hw := h.interrupt hw

theorem runs_inv (h : o.client.Runs (start multilevel priority ready worker memory) tr s) :
    ∃ a, Inv o worker tr a ∧ a.Guarded o.client needs ∧ s.Implements a := by
  refine Client.invariant disciplined (fun mt => ?_) keeps h
  by_cases ht : mt.2 = worker <;> simp [startPhase, ht, needs]

/-- **The post offices deliver the mail**: on every machine, the mail the network has carried there
is what the postal worker has put into the mailboxes, once each and in that order, followed by what
is on the way; and each mailbox has been given the mail that is addressed to it, which its readers
have taken out in that order but for what it holds.  Headers and data are as they were sent. -/
theorem postOffice_delivers
    (h : o.client.Runs (start multilevel priority ready worker memory) tr s) (b : NetworkAddress) :
    carried b tr = delivered b tr ++ inFlight (s.phase (b, worker)) (s.data b) ∧
      ∀ box, (delivered b tr).filter (fun mail => mail.mailHdr.destination = box) =
        received b box tr ++ (s.data b).boxes box := by
  obtain ⟨a, hinv, -, himp⟩ := runs_inv h
  rw [himp.phase, himp.data]
  have hflow := hinv.delivers.flow b
  exact ⟨hflow.onTheWay, hflow.boxes⟩

end Runs

/-- One mailbox on each machine, and a network that loses nothing. -/
def reliable : PostalService := ⟨1, fun _ => true, fun _ _ => false⟩

/-- The start with two threads on each machine, where thread 0 is the postal worker. -/
def twoThreads : Cluster NetworkAddress ℕ PostPhase (NetworkAddress → PostOffice) :=
  start true (fun _ _ => 0) (fun _ => [0, 1]) 0 fun _ => (⟨0, 0, 0⟩, fun _ => 0, fun _ => 0)

/-- A thread sends two bytes to the mailbox of machine 1. -/
def sends : PostInput where
  call := .send ⟨1, 0, 0⟩ ⟨0, 0, 2⟩ fun i => if i = 0 then 104 else 105
  random := 0
  heap _ := 0

/-- A thread receives from its machine's mailbox. -/
def receives : PostInput where
  call := .receive 0
  random := 0
  heap _ := 0

/-- A thread of machine 0 sends; the postal worker of machine 1 delivers and waits for more, and
another thread receives. -/
def sentAndReceived : List (Cluster.Action NetworkAddress ℕ PostInput NetworkInterrupt) :=
  [.dispatch 0 1, .proceed 0 sends, .run 0, .run 0, .run 0, .proceed 0 sends,
    .interrupt 1 .checkPktAvail, .dispatch 1 0, .proceed 1 receives, .run 1,
    .proceed 1 receives, .run 1, .run 1, .run 1, .proceed 1 receives, .run 1,
    .proceed 1 receives, .run 1, .run 1, .proceed 1 receives, .run 1,
    .dispatch 1 1, .proceed 1 receives, .run 1, .run 1, .run 1, .proceed 1 receives]

/-- The run, with what is received. -/
theorem runs_sentAndReceived : ∃ tr s, reliable.client.Runs twoThreads tr s ∧
    (received 1 0 tr).map Mail.data = [[104, 105]] ∧ s.phase (0, 1) = .sending := by
  obtain ⟨r, hr⟩ : ∃ r, play reliable.client.step reliable.client.emit twoThreads
      sentAndReceived = some r := ⟨_, rfl⟩
  refine ⟨r.1, r.2, Run.start.play hr, ?_⟩
  cases hr
  exact ⟨rfl, rfl⟩

theorem postOffice_delivers_two_bytes : ∃ tr s, reliable.client.Runs twoThreads tr s ∧
    (received 1 0 tr).map Mail.data = [[104, 105]] ∧
      carried 1 tr = delivered 1 tr ++ inFlight (s.phase (1, 0)) (s.data 1) := by
  obtain ⟨tr, s, hrun, hreceived, -⟩ := runs_sentAndReceived
  exact ⟨tr, s, hrun, hreceived, (postOffice_delivers hrun 1).1⟩

end PostalService
end PaldOs
