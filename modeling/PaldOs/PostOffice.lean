import PaldOs.Devices
import PaldOs.Packets

/-! # The post office

The machines are Nachos kernels with a network device each (`machine/network.cc`), and on each a
post office (`network/post.cc`) with its mailboxes.  `Network::Send` hands a packet to the socket of
the machine it is addressed to, or loses it, and interrupts when the next one can be sent.  The
device polls its socket, buffers one packet and interrupts.  Threads call `PostOffice::Send`, which
waits for that interrupt inside a lock, and `PostOffice::Receive`, which takes mail out of a
mailbox; the postal worker of each machine takes packets out of the device and puts the mail into
the mailboxes.  A mailbox is a `SynchList`: a list with a lock, and a condition for those who find
it empty.

The packets on a socket are kept in order.  Everything else is open: which thread runs, when the
interrupts come and the packets are polled, which packets are lost, and what was in memory that is
allocated and not filled.
-/
namespace PaldOs

/-- What the post offices have in common: the number of mailboxes of each, which machines there are,
and for which value of `Random` a machine's network loses a packet, which is the comparison of
`Random() % 100` with `chanceToWork * 100`. -/
structure PostalService where
  numBoxes : ℤ
  up : NetworkAddress → Bool
  drops : NetworkAddress → ℕ → Bool

/-- A machine's network device and its post office.  `sendsDue` is the number of interrupts
`NetworkSendDone` that are scheduled, `sock` the packets on its socket and `buffer` that of
`PostalDelivery`. -/
structure PostOffice where
  inHdr : PacketHeader
  inbox : ℕ → UInt8
  sendBusy : Bool
  sendsDue : ℕ
  sock : List (ℕ → UInt8)
  buffer : ℕ → UInt8
  boxes : MailBoxAddress → List Mail

namespace PostalService

/-- `0 <= box && box < numBoxes`. -/
def legalBox (o : PostalService) (box : MailBoxAddress) : Prop :=
  0 ≤ box.toInt ∧ box.toInt < o.numBoxes

instance (o : PostalService) (box : MailBoxAddress) : Decidable (o.legalBox box) :=
  inferInstanceAs (Decidable (_ ∧ _))

/-! ## The network -/

/-- `Network::Send` on machine `m`, and whether the packet is lost; `none` is a failed assertion,
that of `SendToSocket` included. -/
def networkSend (o : PostalService) (m : NetworkAddress) (random : ℕ) (heap : ℕ → UInt8)
    (hdr : PacketHeader) (data : ℕ → UInt8) (d : NetworkAddress → PostOffice) :
    Option ((NetworkAddress → PostOffice) × Bool) :=
  if (d m).sendBusy = false ∧ 0 < hdr.length.toNat ∧ hdr.length.toNat ≤ maxPacketSize ∧
      hdr.source = m then
    let d := Function.update d m { d m with sendsDue := (d m).sendsDue + 1 }
    if o.drops m random = true then some (d, true)
    else if o.up hdr.destination = true then
      some (Function.update d hdr.destination { d hdr.destination with
        sock := (d hdr.destination).sock ++ [hdr.pack heap data] }, false)
    else none
  else none

end PostalService

namespace PostOffice

/-- `Network::SendDone`, for a scheduled interrupt. -/
def sendDone (s : PostOffice) : Option PostOffice :=
  if s.sendsDue = 0 then none
  else some { s with sendBusy := false, sendsDue := s.sendsDue - 1 }

/-- `Network::CheckPktAvail` on machine `m`, and whether a packet has been read; `none` is a failed
assertion. -/
def checkPktAvail (s : PostOffice) (m : NetworkAddress) : Option (PostOffice × Bool) :=
  if s.inHdr.length ≠ 0 then some (s, false)
  else
    match s.sock with
    | [] => some (s, false)
    | packet :: rest =>
        let hdr := PacketHeader.ofBytes packet
        if hdr.destination = m ∧ hdr.length.toNat ≤ maxPacketSize then
          some ({ s with
            inHdr := hdr
            inbox := blit s.inbox 0 hdr.length.toNat fun i => packet (sizeofPacketHeader + i)
            sock := rest }, true)
        else none

/-- `Network::Receive` into the buffer of `PostalDelivery`. -/
def networkReceive (s : PostOffice) : PacketHeader × PostOffice :=
  (s.inHdr, { s with
    inHdr := { s.inHdr with length := 0 }
    buffer :=
      if s.inHdr.length ≠ 0 then blit s.buffer 0 s.inHdr.length.toNat s.inbox else s.buffer })

end PostOffice

/-! ## The threads -/

/-- Where a thread is in the routines of the post office, by the routine of the locks and semaphores
it has called. -/
inductive PostPhase where
  | outside
  /-- In `sendLock->Acquire()` of `Send`, with its arguments and its buffer. -/
  | acquiringSend (pktHdr : PacketHeader) (mailHdr : MailHeader) (data buffer : ℕ → UInt8)
  /-- In `messageSent->P()`. -/
  | sending
  /-- In `sendLock->Release()`. -/
  | releasingSend
  /-- In `lock->Acquire()` of `Pop`, for a mailbox. -/
  | acquiringBox (box : MailBoxAddress)
  /-- In `listEmpty->Wait()`. -/
  | waitingBox (box : MailBoxAddress)
  /-- In `lock->Release()` of `Pop`, with what it has taken. -/
  | releasingBox (box : MailBoxAddress) (mail : Mail)
  /-- The postal worker, about to enter the loop of `PostalDelivery`. -/
  | postalHelper
  /-- In `messageAvailable->P()`. -/
  | delivering
  /-- In `lock->Acquire()` of `Append`, with what it is to append. -/
  | puttingMail (mail : Mail)
  /-- In `listEmpty->Signal()`. -/
  | signallingBox (box : MailBoxAddress)
  /-- In `lock->Release()` of `Append`. -/
  | releasingPut (box : MailBoxAddress)

/-- A call of the post office. -/
inductive PostCall where
  | send (pktHdr : PacketHeader) (mailHdr : MailHeader) (data : ℕ → UInt8)
  | receive (box : MailBoxAddress)

/-- What is open when a thread goes on: the call it makes if it is outside, what `Random` returns,
and what is in memory that has just been allocated. -/
structure PostInput where
  call : PostCall
  random : ℕ
  heap : ℕ → UInt8

/-- The interrupts of the network. -/
inductive NetworkInterrupt where
  | sendDone
  | checkPktAvail

/-- What is recorded of a run: mail handed to the network, and whether it is lost; mail put into a
mailbox; mail taken out of a mailbox by a thread. -/
inductive PostEvent (T : Type) where
  | sent (m : NetworkAddress) (t : T) (mail : Mail) (lost : Bool)
  | delivered (m : NetworkAddress) (mail : Mail)
  | received (m : NetworkAddress) (t : T) (box : MailBoxAddress) (mail : Mail)

namespace PostalService
variable {T : Type} [DecidableEq T] (o : PostalService)

/-- `sendLock`. -/
def sendLock : ℕ := 0

/-- The lock of a mailbox. -/
def boxLock (box : MailBoxAddress) : ℕ := box.toNat + 1

/-- `messageAvailable`. -/
def messageAvailable : ℕ := 0

/-- `messageSent`. -/
def messageSent : ℕ := 1

/-- The routine called in each phase. -/
def call : PostPhase → Option Kernel.Call
  | .outside => none
  | .acquiringSend _ _ _ _ => some (.acquire sendLock)
  | .sending => some (.p messageSent)
  | .releasingSend => some (.release sendLock)
  | .acquiringBox box => some (.acquire (boxLock box))
  | .waitingBox box => some (.wait box.toNat (boxLock box))
  | .releasingBox box _ => some (.release (boxLock box))
  | .postalHelper => none
  | .delivering => some (.p messageAvailable)
  | .puttingMail mail => some (.acquire (boxLock mail.mailHdr.destination))
  | .signallingBox box => some (.signal box.toNat (boxLock box))
  | .releasingPut box => some (.release (boxLock box))

/-- The loop of `Pop`, by thread `t` of machine `m`. -/
def pop (m : NetworkAddress) (t : T) (box : MailBoxAddress) (d : NetworkAddress → PostOffice) :
    Move PostPhase (NetworkAddress → PostOffice) (PostEvent T) :=
  match (d m).boxes box with
  | [] => ⟨.waitingBox box, d, []⟩
  | mail :: rest =>
      ⟨.releasingBox box mail,
        Function.update d m { d m with boxes := Function.update (d m).boxes box rest },
        [.received m t box mail]⟩

/-- `Send`, `Receive` and `PostalDelivery`, from one routine they call to the next; `none` is a
failed assertion. -/
def proceed (m : NetworkAddress) (t : T) (x : PostInput) (p : PostPhase)
    (d : NetworkAddress → PostOffice) :
    Option (Move PostPhase (NetworkAddress → PostOffice) (PostEvent T)) :=
  match p with
  | .outside =>
      match x.call with
      | .send pktHdr mailHdr data =>
          if mailHdr.length.toNat ≤ maxMailSize ∧ o.legalBox mailHdr.destination then
            some ⟨.acquiringSend
              { pktHdr with
                source := m
                length := mailHdr.length + BitVec.ofNat 32 sizeofMailHeader }
              mailHdr data (mailHdr.pack x.heap data), d, []⟩
          else none
      | .receive box => if o.legalBox box then some ⟨.acquiringBox box, d, []⟩ else none
  | .acquiringSend pktHdr mailHdr data buffer => do
      let r ← o.networkSend m x.random x.heap pktHdr buffer d
      some ⟨.sending, r.1, [.sent m t (.make pktHdr mailHdr data) r.2]⟩
  | .sending => some ⟨.releasingSend, d, []⟩
  | .releasingSend => some ⟨.outside, d, []⟩
  | .acquiringBox box => some (pop m t box d)
  | .waitingBox box => some (pop m t box d)
  | .releasingBox _ mail =>
      if mail.mailHdr.length.toNat ≤ maxMailSize then some ⟨.outside, d, []⟩ else none
  | .postalHelper => some ⟨.delivering, d, []⟩
  | .delivering =>
      let s := (d m).networkReceive.2
      let mail := Mail.ofPayload (d m).networkReceive.1 s.buffer
      if o.legalBox mail.mailHdr.destination ∧ mail.mailHdr.length.toNat ≤ maxMailSize then
        some ⟨.puttingMail mail, Function.update d m s, []⟩
      else none
  | .puttingMail mail =>
      let box := mail.mailHdr.destination
      some ⟨.signallingBox box,
        Function.update d m { d m with
          boxes := Function.update (d m).boxes box ((d m).boxes box ++ [mail]) },
        [.delivered m mail]⟩
  | .signallingBox box => some ⟨.releasingPut box, d, []⟩
  | .releasingPut _ => some ⟨.delivering, d, []⟩

/-- The interrupts of the network of machine `m`, with `IncomingPacket` and `PacketSent` as
handlers; `none` is a failed assertion. -/
def interrupt (m : NetworkAddress) (y : NetworkInterrupt) (d : NetworkAddress → PostOffice) :
    Option (Handling (NetworkAddress → PostOffice) (PostEvent T)) :=
  match y with
  | .sendDone => do
      let s ← (d m).sendDone
      some ⟨Function.update d m s, some messageSent, []⟩
  | .checkPktAvail => do
      let r ← (d m).checkPktAvail m
      some ⟨Function.update d m r.1, if r.2 = true then some messageAvailable else none, []⟩

/-- The machines with their post offices. -/
def client : Client NetworkAddress T PostPhase (NetworkAddress → PostOffice) PostInput
    NetworkInterrupt (PostEvent T) where
  call := call
  proceed := o.proceed
  interrupt := interrupt

/-- `Network::Network` and `PostOffice::PostOffice`: nothing is buffered or on a socket, and the
mailboxes are empty. -/
def opened (inHdr : PacketHeader) (inbox buffer : ℕ → UInt8) : PostOffice where
  inHdr := { inHdr with length := 0 }
  inbox := inbox
  sendBusy := false
  sendsDue := 0
  sock := []
  buffer := buffer
  boxes _ := []

/-- The phases at the start: `worker` is the postal worker. -/
def startPhase (worker : T) (mt : NetworkAddress × T) : PostPhase :=
  if mt.2 = worker then .postalHelper else .outside

/-- The start, whatever was in memory. -/
def start (multilevel : Bool) (priority : NetworkAddress → T → ℕ)
    (ready : NetworkAddress → List T) (worker : T)
    (memory : NetworkAddress → PacketHeader × (ℕ → UInt8) × (ℕ → UInt8)) :
    Cluster NetworkAddress T PostPhase (NetworkAddress → PostOffice) :=
  .initial multilevel priority ready (startPhase worker)
    fun m => opened (memory m).1 (memory m).2.1 (memory m).2.2

/-! ## What the post office is for -/

/-- The mail that the network has carried to machine `b`, in the order in which it was sent. -/
def carried (b : NetworkAddress) (tr : List (PostEvent T)) : List Mail :=
  tr.filterMap fun e => match e with
    | .sent _ _ mail lost =>
        if lost = false ∧ mail.pktHdr.destination = b then some mail else none
    | _ => none

/-- The mail put into the mailboxes of machine `b`. -/
def delivered (b : NetworkAddress) (tr : List (PostEvent T)) : List Mail :=
  tr.filterMap fun e => match e with
    | .delivered m mail => if m = b then some mail else none
    | _ => none

/-- The mail taken out of a mailbox of machine `b`. -/
def received (b : NetworkAddress) (box : MailBoxAddress) (tr : List (PostEvent T)) : List Mail :=
  tr.filterMap fun e => match e with
    | .received m _ box' mail => if m = b ∧ box' = box then some mail else none
    | _ => none

/-- What the postal worker has in its hands. -/
def held : PostPhase → List Mail
  | .puttingMail mail => [mail]
  | _ => []

/-- What the device has buffered. -/
def buffered (s : PostOffice) : List Mail :=
  if s.inHdr.length = 0 then [] else [Mail.ofPayload s.inHdr s.inbox]

/-- What is on the way into the mailboxes: in the hands of the postal worker, whose phase is `p`, in
the device and on the socket. -/
def inFlight (p : PostPhase) (s : PostOffice) : List Mail :=
  held p ++ buffered s ++ s.sock.map Mail.ofPacket

end PostalService
end PaldOs
