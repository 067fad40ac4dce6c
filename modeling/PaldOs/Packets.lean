import PaldOs.Bytes
import Mathlib.Data.BitVec

/-! # Packets and mail

A message of the post office of `network/` travels as the payload of a packet of
`machine/network.cc`: the mail header and the data, behind the packet header.  A header is three
words in memory.  What is copied is what the headers' lengths say; the rest of a packet on the wire,
and of the buffers on the way, is whatever the memory held.  `Mail.ofPacket` is what a receiver
makes of a packet, and what was sent (`Mail.ofPacket_pack`).
-/
namespace PaldOs

/-- `NetworkAddress`, an `int`. -/
abbrev NetworkAddress := BitVec 32

/-- `MailBoxAddress`, an `int`. -/
abbrev MailBoxAddress := BitVec 32

/-- A `PacketHeader`: `to` and `from` are its `destination` and its `source`. -/
structure PacketHeader where
  destination : NetworkAddress
  source : NetworkAddress
  length : BitVec 32
deriving DecidableEq

/-- A `MailHeader`: `to` and `from` are its `destination` and its `source`. -/
structure MailHeader where
  destination : MailBoxAddress
  source : MailBoxAddress
  length : BitVec 32
deriving DecidableEq

/-- `sizeof (PacketHeader)`. -/
def sizeofPacketHeader : ℕ := 12

/-- `sizeof (MailHeader)`. -/
def sizeofMailHeader : ℕ := 12

/-- `MAX_WIRE_SIZE`. -/
def maxWireSize : ℕ := 64

/-- `MAX_PACKET_SIZE`. -/
def maxPacketSize : ℕ := maxWireSize - sizeofPacketHeader

/-- `MAX_MAIL_SIZE`. -/
def maxMailSize : ℕ := maxPacketSize - sizeofMailHeader

/-! ## Headers in memory -/

/-- Three words in memory. -/
def threeWords (first second third : BitVec 32) : ℕ → UInt8 := fun a =>
  byteOf (match a / 4 with
    | 0 => first
    | 1 => second
    | _ => third).toNat (a % 4)

theorem word_threeWords {mem : ℕ → UInt8} {first second third : BitVec 32}
    (h : ∀ i, i < 12 → mem i = threeWords first second third i) :
    BitVec.ofNat 32 (word mem 0) = first ∧ BitVec.ofNat 32 (word mem 4) = second ∧
      BitVec.ofNat 32 (word mem 8) = third := by
  have hword : ∀ (k : ℕ) (x : BitVec 32), (∀ i, i < 4 → mem (k + i) = byteOf x.toNat i) →
      BitVec.ofNat 32 (word mem k) = x := by
    intro k x hk
    rw [word_eq hk, Nat.mod_eq_of_lt x.isLt]
    rw [BitVec.ofNat_toNat, BitVec.setWidth_eq]
  refine ⟨hword 0 first fun i hi => ?_, hword 4 second fun i hi => ?_,
    hword 8 third fun i hi => ?_⟩
  · rw [h _ (by omega), threeWords, show (0 + i) / 4 = 0 by omega, show (0 + i) % 4 = i by omega]
    rfl
  · rw [h _ (by omega), threeWords, show (4 + i) / 4 = 1 by omega, show (4 + i) % 4 = i by omega]
    rfl
  · rw [h _ (by omega), threeWords, show (8 + i) / 4 = 2 by omega, show (8 + i) % 4 = i by omega]
    rfl

/-- Words that are read from bytes that agree. -/
theorem word_congr {mem mem' : ℕ → UInt8} {a : ℕ} (h : ∀ i, i < 4 → mem (a + i) = mem' (a + i)) :
    word mem a = word mem' a := by
  have h0 : mem a = mem' a := h 0 (by decide)
  unfold word
  rw [h0, h 1 (by decide), h 2 (by decide), h 3 (by decide)]

namespace PacketHeader

/-- The header in memory. -/
def toBytes (hdr : PacketHeader) : ℕ → UInt8 := threeWords hdr.destination hdr.source hdr.length

/-- The header that memory holds: `*(PacketHeader *) buffer`. -/
def ofBytes (mem : ℕ → UInt8) : PacketHeader :=
  ⟨BitVec.ofNat 32 (word mem 0), BitVec.ofNat 32 (word mem 4), BitVec.ofNat 32 (word mem 8)⟩

theorem ofBytes_eq {mem : ℕ → UInt8} {hdr : PacketHeader}
    (h : ∀ i, i < sizeofPacketHeader → mem i = hdr.toBytes i) : ofBytes mem = hdr := by
  obtain ⟨h0, h4, h8⟩ := word_threeWords h
  rw [ofBytes, h0, h4, h8]

end PacketHeader

namespace MailHeader

/-- The header in memory. -/
def toBytes (hdr : MailHeader) : ℕ → UInt8 := threeWords hdr.destination hdr.source hdr.length

/-- The header that memory holds: `*(MailHeader *) buffer`. -/
def ofBytes (mem : ℕ → UInt8) : MailHeader :=
  ⟨BitVec.ofNat 32 (word mem 0), BitVec.ofNat 32 (word mem 4), BitVec.ofNat 32 (word mem 8)⟩

theorem ofBytes_eq {mem : ℕ → UInt8} {hdr : MailHeader}
    (h : ∀ i, i < sizeofMailHeader → mem i = hdr.toBytes i) : ofBytes mem = hdr := by
  obtain ⟨h0, h4, h8⟩ := word_threeWords h
  rw [ofBytes, h0, h4, h8]

theorem ofBytes_congr {mem mem' : ℕ → UInt8}
    (h : ∀ i, i < sizeofMailHeader → mem i = mem' i) : ofBytes mem = ofBytes mem' := by
  have hword : ∀ k, k + 4 ≤ sizeofMailHeader → word mem k = word mem' k := by
    intro k hk
    apply word_congr
    intro i hi
    exact h _ (by omega)
  rw [ofBytes, hword 0 (by decide), hword 4 (by decide), hword 8 (by decide)]
  rfl

end MailHeader

/-! ## Mail -/

/-- A `Mail`, with the part of `data` that is copied. -/
structure Mail where
  pktHdr : PacketHeader
  mailHdr : MailHeader
  data : List UInt8
deriving DecidableEq

/-- The first `n` bytes. -/
def firstBytes (n : ℕ) (mem : ℕ → UInt8) : List UInt8 := (List.range n).map mem

theorem firstBytes_congr {n : ℕ} {mem mem' : ℕ → UInt8} (h : ∀ i, i < n → mem i = mem' i) :
    firstBytes n mem = firstBytes n mem' :=
  List.map_congr_left fun i hi => h i (List.mem_range.mp hi)

namespace Mail

/-- `Mail::Mail`. -/
def make (pktHdr : PacketHeader) (mailHdr : MailHeader) (msgData : ℕ → UInt8) : Mail :=
  ⟨pktHdr, mailHdr, firstBytes mailHdr.length.toNat msgData⟩

/-- The mail in a payload: the mail header, and behind it the data. -/
def ofPayload (pktHdr : PacketHeader) (payload : ℕ → UInt8) : Mail :=
  make pktHdr (MailHeader.ofBytes payload) fun i => payload (sizeofMailHeader + i)

/-- The mail in a packet on the wire. -/
def ofPacket (packet : ℕ → UInt8) : Mail :=
  ofPayload (PacketHeader.ofBytes packet) fun i => packet (sizeofPacketHeader + i)

/-- What is read of a payload: the header and as many bytes as it says. -/
theorem ofPayload_congr {pktHdr : PacketHeader} {payload payload' : ℕ → UInt8}
    (h : ∀ i, i < sizeofMailHeader + (MailHeader.ofBytes payload).length.toNat →
      payload i = payload' i) : ofPayload pktHdr payload = ofPayload pktHdr payload' := by
  have hhdr : MailHeader.ofBytes payload = MailHeader.ofBytes payload' :=
    MailHeader.ofBytes_congr fun i hi => h i (by omega)
  rw [ofPayload, ofPayload, ← hhdr, make, make]
  congr 1
  apply firstBytes_congr
  intro i hi
  exact h _ (by omega)

end Mail

/-- A header and what it announces, in fresh memory. -/
def packed (heap header : ℕ → UInt8) (size n : ℕ) (data : ℕ → UInt8) : ℕ → UInt8 :=
  blit (blit heap 0 size header) size n data

theorem packed_header {heap header data : ℕ → UInt8} {size n i : ℕ} (h : i < size) :
    packed heap header size n data i = header i := by
  rw [packed, blit_outside (Or.inl h)]
  have hin : blit heap 0 size header (0 + i) = header i := blit_add h
  rwa [Nat.zero_add] at hin

theorem packed_data {heap header data : ℕ → UInt8} {size n i : ℕ} (h : i < n) :
    packed heap header size n data (size + i) = data i :=
  blit_add h

/-- The buffer that `PostOffice::Send` fills. -/
def MailHeader.pack (hdr : MailHeader) (heap data : ℕ → UInt8) : ℕ → UInt8 :=
  packed heap hdr.toBytes sizeofMailHeader hdr.length.toNat data

/-- The packet that `Network::Send` puts on the wire. -/
def PacketHeader.pack (hdr : PacketHeader) (heap data : ℕ → UInt8) : ℕ → UInt8 :=
  packed heap hdr.toBytes sizeofPacketHeader hdr.length.toNat data

/-- The mail in the payload that was packed. -/
theorem Mail.ofPayload_pack {pktHdr : PacketHeader} {mailHdr : MailHeader}
    {heap data : ℕ → UInt8} :
    Mail.ofPayload pktHdr (mailHdr.pack heap data) = Mail.make pktHdr mailHdr data := by
  have hhdr : MailHeader.ofBytes (mailHdr.pack heap data) = mailHdr :=
    MailHeader.ofBytes_eq fun i hi => packed_header hi
  rw [ofPayload, hhdr, make, make]
  congr 1
  apply firstBytes_congr
  intro i hi
  exact packed_data hi

/-- **What is sent is what is received**: the mail in a packet that carries a payload that carries
data has the headers and the data, whatever else was in memory. -/
theorem Mail.ofPacket_pack {pktHdr : PacketHeader} {mailHdr : MailHeader}
    {heap heap' data : ℕ → UInt8}
    (hlength : pktHdr.length.toNat = sizeofMailHeader + mailHdr.length.toNat) :
    PacketHeader.ofBytes (pktHdr.pack heap (mailHdr.pack heap' data)) = pktHdr ∧
      Mail.ofPacket (pktHdr.pack heap (mailHdr.pack heap' data)) =
        Mail.make pktHdr mailHdr data := by
  have hhdr : PacketHeader.ofBytes (pktHdr.pack heap (mailHdr.pack heap' data)) = pktHdr :=
    PacketHeader.ofBytes_eq fun i hi => packed_header hi
  refine ⟨hhdr, ?_⟩
  have hmail : MailHeader.ofBytes (mailHdr.pack heap' data) = mailHdr :=
    MailHeader.ofBytes_eq fun i hi => packed_header hi
  have hpayload : ofPayload pktHdr (mailHdr.pack heap' data) = make pktHdr mailHdr data :=
    ofPayload_pack
  rw [ofPacket, hhdr, ← hpayload]
  refine (ofPayload_congr fun i hi => ?_).symm
  rw [hmail] at hi
  exact (packed_data (by omega)).symm

end PaldOs
