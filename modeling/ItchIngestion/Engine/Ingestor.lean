import ItchIngestion.Parser.Framing

/-! # The ingestion loop (`ingestor.hpp`)

`ingest_messages` takes bursts of packets from the port until the handler stops it. Of every packet
it parses the bytes behind the Ethernet, IPv4, UDP and MoldUDP64 headers, as many as the length field
of the UDP header says. That length is compared neither with the headers, which it includes, nor with
the packet, so the parsed region lies in the packet for some packets only (`confined_iff`).

The loop is a function of its parser; `parseRegion` is the real one, and `recordRegion` one that
writes down what it is given. Addresses are offsets from the start of the data of the packet.
-/
namespace ItchIngestion.ITCH
open Library
set_option autoImplicit false

/-! ## The code -/

def sizeofEtherHdr : ℕ := 14

def sizeofIpv4Hdr : ℕ := 20

def sizeofUdpHdr : ℕ := 8

/-- The room for data in the buffers of the pool, behind the headroom. -/
def dataRoom : ℕ := 2048

/-- A received packet: the counts of its buffer, and what can be read from the start of its data on.
Behind the received bytes the buffer holds what an earlier packet has left there. -/
structure Mbuf where
  nbSegs : UInt16
  dataLen : UInt16
  pktLen : UInt32
  mem : Mem
  room : ∀ a < dataRoom, (mem a).isSome

/-- What the loop reads of the headers of a packet. -/
structure Headers where
  dgramLen : UInt16
  seq : UInt64
  msgCount : UInt16

/-- A line of output: a packet of more than one segment, or a progress report. -/
inductive Line
  | nonlinear (nbSegs : UInt16) (dataLen : UInt16) (pktLen : UInt32)
  | progress (totalSize : UInt64) (pkts : UInt64) (msgs : UInt64)

/-- The handler and the local variables of `ingest_messages`, with what it has printed. -/
structure Ingestion (σ : Type) where
  handler : σ
  totalSize : UInt64
  msgs : UInt64
  pkts : UInt64
  lastPrint : UInt64
  printed : List Line

/-- What `rte_eth_rx_burst` returns, and the time after the packets have been parsed. -/
structure Burst where
  bufs : List Mbuf
  now : UInt64
  length_le : bufs.length ≤ 64

/-- Where the UDP header is. -/
def udpHdr : ℕ := sizeofEtherHdr + sizeofIpv4Hdr

/-- Where the header of MoldUDP64 is. -/
def moldHdr : ℕ := udpHdr + sizeofUdpHdr

/-- Where the messages start. -/
def itchStart : ℕ := moldHdr + 10 + 8 + 2

/-- `dgram_len` is the third of the four `uint16_t` of the UDP header. -/
def readHeaders (mem : Mem) : Option Headers := do
  let seq ← loadBe64 mem (moldHdr + 10)
  let msgCount ← loadBe16 mem (moldHdr + 10 + 8)
  let dgramLen ← loadBe16 mem (udpHdr + 4)
  return ⟨dgramLen, seq, msgCount⟩

/-- The length left for the messages, in 64 bits as the subtractions are made. -/
def itchLen (dgramLen : UInt16) : UInt64 := dgramLen.toUInt64 - UInt64.ofNat sizeofUdpHdr - 20

section Code
variable {σ : Type} (parser : Mem → ℕ → UInt64 → σ → Outcome σ)

/-- The body of the loop over the packets of a burst. -/
def ingestPacket (m : Mbuf) (v : Ingestion σ) : Outcome (Ingestion σ) :=
  let v := if m.nbSegs ≠ 1 then
    { v with printed := v.printed ++ [.nonlinear m.nbSegs m.dataLen m.pktLen] } else v
  match readHeaders m.mem with
  | none => .undefinedBehaviour v
  | some hdr =>
    let v := { v with msgs := v.msgs + hdr.msgCount.toUInt64 }
    match parser m.mem itchStart (itchLen hdr.dgramLen) v.handler with
    | .returned s =>
      .returned { v with handler := s, totalSize := v.totalSize + itchLen hdr.dgramLen }
    | .threw what s => .threw what { v with handler := s }
    | .undefinedBehaviour s => .undefinedBehaviour { v with handler := s }

/-- The packets of a burst, one after the other. -/
def ingestPackets : List Mbuf → Ingestion σ → Outcome (Ingestion σ)
  | [], v => .returned v
  | m :: bufs, v => (ingestPacket parser m v).andThen (ingestPackets bufs)

/-- The report is due when the last one is more than `hz` cycles ago. -/
def logProgress (hz now : UInt64) (v : Ingestion σ) : Ingestion σ :=
  if now - v.lastPrint > hz then
    { v with
      printed := v.printed ++ [.progress v.totalSize v.pkts v.msgs]
      pkts := 0
      msgs := 0
      lastPrint := now }
  else v

/-- A burst is counted before its packets are parsed. -/
def ingestBurst (hz : UInt64) (b : Burst) (v : Ingestion σ) : Outcome (Ingestion σ) :=
  (ingestPackets parser b.bufs { v with pkts := v.pkts + UInt64.ofNat b.bufs.length }).andThen
    fun v => .returned (logProgress hz b.now v)

/-- The run on the bursts that the port delivers, as far as they go. -/
def ingestMessages (shouldStop : σ → Bool) (hz : UInt64) :
    List Burst → Ingestion σ → Outcome (Ingestion σ)
  | [], v => .returned v
  | b :: bursts, v =>
    if shouldStop v.handler then .returned v
    else (ingestBurst parser hz b v).andThen (ingestMessages shouldStop hz bursts)

def Ingestion.start (lastPrint : UInt64) (handler : σ) : Ingestion σ where
  handler := handler
  totalSize := 0
  msgs := 0
  pkts := 0
  lastPrint := lastPrint
  printed := []

end Code

/-- `parser_.parse(p, len, handler_)`; there is no pointer to the end of the region if it is longer
than half of the address space. -/
def parseRegion {σ : Type} (h : SpecificHandler σ) (junk : (ty : MessageType) → ty.Msg) (mem : Mem)
    (src : ℕ) (len : UInt64) (s : σ) : Outcome σ :=
  if len.toNat < 2 ^ 63 then parse h junk mem src len.toNat s else .undefinedBehaviour s

/-! ## Headers -/

theorem Kind.load_isSome {mem : Mem} {p : ℕ} (kind : Kind)
    (hread : ∀ i < kind.size, (mem (p + i)).isSome) : ∃ v, kind.load mem p = some v := by
  obtain ⟨bs, hlen, hmem⟩ := Mem.exists_holds hread
  obtain ⟨v, hv, -⟩ := kind.load_spec hmem hlen
  exact ⟨v, hv⟩

namespace Mbuf
variable (m : Mbuf)

def byte (a : ℕ) (ha : a < dataRoom) : UInt8 := (m.mem a).get (m.room a ha)

/-- The length in the UDP header. -/
def dgramLen : ℕ := bigEndian [m.byte 38 (by decide), m.byte 39 (by decide)]

/-- The headers of every packet can be read, be it as short as it may. -/
theorem readHeaders_eq :
    ∃ hdr, readHeaders m.mem = some hdr ∧ hdr.dgramLen.toNat = m.dgramLen := by
  have hroom : ∀ p n, p + n ≤ dataRoom → ∀ i < n, (m.mem (p + i)).isSome :=
    fun p n hp i hi => m.room _ (by omega)
  obtain ⟨seq, hseq⟩ : ∃ v, loadBe64 m.mem (moldHdr + 10) = some v :=
    Kind.load_isSome Kind.uint64 (hroom _ 8 (by decide))
  obtain ⟨msgCount, hcount⟩ : ∃ v, loadBe16 m.mem (moldHdr + 10 + 8) = some v :=
    Kind.load_isSome Kind.uint16 (hroom _ 2 (by decide))
  have hfield : m.mem.Holds (udpHdr + 4) [m.byte 38 (by decide), m.byte 39 (by decide)] := by
    intro i b hb
    match i, hb with
    | 0, hb =>
      cases hb
      exact (Option.some_get _).symm
    | 1, hb =>
      cases hb
      exact (Option.some_get _).symm
  obtain ⟨dgramLen, hload, hvalue⟩ := loadBe16_spec hfield
  refine ⟨⟨dgramLen, seq, msgCount⟩, ?_, hvalue⟩
  rw [readHeaders, hseq, hcount, hload]
  rfl

end Mbuf

section ItchLen
variable {n : UInt16}

theorem toNat_itchLen (h : 28 ≤ n.toNat) : (itchLen n).toNat = n.toNat - 28 := by
  have hlt := n.toNat_lt
  have h8 : (UInt64.ofNat sizeofUdpHdr).toNat = 8 := rfl
  have h20 : (20 : UInt64).toNat = 20 := rfl
  rw [itchLen, UInt64.toNat_sub, UInt64.toNat_sub, UInt16.toNat_toUInt64, h8, h20]
  omega

end ItchLen

/-! ## Regions -/

/-- The bytes that the parser is given. -/
structure Region where
  start : ℕ
  len : UInt64

/-- The parser that notes what it is given. -/
def recordRegion (_ : Mem) (src : ℕ) (len : UInt64) (regions : List Region) :
    Outcome (List Region) :=
  .returned (regions ++ [⟨src, len⟩])

/-- The datagram without its two headers, and inside the received bytes. -/
structure Region.InPacket (r : Region) (m : Mbuf) : Prop where
  start : r.start = itchStart
  len : (r.len.toNat : ℤ) = m.dgramLen - sizeofUdpHdr - 20
  inside : r.start + r.len.toNat ≤ m.dataLen.toNat

/-- The received bytes of the datagram behind its headers. -/
def Mbuf.itchBytes (m : Mbuf) : ℕ := min (udpHdr + m.dgramLen) m.dataLen.toNat - itchStart

/-- The packet is parsed inside its bytes or not at all, and its ITCH bytes are counted. -/
def Confined (m : Mbuf) (v : Ingestion (List Region)) : Prop :=
  ∃ v' regions, ingestPacket recordRegion m v = .returned v' ∧
    v'.handler = v.handler ++ regions ∧ (∀ r ∈ regions, r.InPacket m) ∧
    v'.totalSize = v.totalSize + UInt64.ofNat m.itchBytes

/-- The length field counts the headers, and the datagram has arrived as a whole. -/
def Mbuf.Complete (m : Mbuf) : Prop :=
  sizeofUdpHdr + 20 ≤ m.dgramLen ∧ udpHdr + m.dgramLen ≤ m.dataLen.toNat

section Packet
variable {m : Mbuf} {v : Ingestion (List Region)}

/-- Every packet is parsed, in the region that its length field says. -/
theorem ingestPacket_eq : ∃ v' len, ingestPacket recordRegion m v = .returned v' ∧
    v'.handler = v.handler ++ [⟨itchStart, len⟩] ∧ v'.totalSize = v.totalSize + len ∧
    ∃ n : UInt16, len = itchLen n ∧ n.toNat = m.dgramLen := by
  obtain ⟨hdr, hread, hlen⟩ := m.readHeaders_eq
  unfold ingestPacket
  rw [hread]
  refine ⟨_, itchLen hdr.dgramLen, rfl, ?_, ?_, hdr.dgramLen, rfl, hlen⟩
  · split <;> rfl
  · split <;> rfl

theorem Mbuf.Complete.len (hcomplete : m.Complete) {n : UInt16} (hn : n.toNat = m.dgramLen) :
    (itchLen n).toNat = m.itchBytes := by
  obtain ⟨hheaders, harrived⟩ := hcomplete
  have hudp : udpHdr = 34 := rfl
  have hstart : itchStart = 62 := rfl
  rw [sizeofUdpHdr] at hheaders
  rw [toNat_itchLen (by omega), Mbuf.itchBytes, min_eq_left harrived]
  omega

theorem Mbuf.Complete.inPacket (hcomplete : m.Complete) {n : UInt16} (hn : n.toNat = m.dgramLen) :
    Region.InPacket ⟨itchStart, itchLen n⟩ m := by
  obtain ⟨hheaders, harrived⟩ := hcomplete
  have hudp : udpHdr = 34 := rfl
  have hstart : itchStart = 62 := rfl
  have h8 : sizeofUdpHdr = 8 := rfl
  have hlen := @toNat_itchLen n (by omega)
  refine ⟨rfl, ?_, ?_⟩ <;> dsimp only <;> omega

theorem complete_of_inPacket {n : UInt16} (hn : n.toNat = m.dgramLen)
    (hin : Region.InPacket ⟨itchStart, itchLen n⟩ m) : m.Complete := by
  have hlen := hin.len
  have hinside := hin.inside
  have hudp : udpHdr = 34 := rfl
  have hstart : itchStart = 62 := rfl
  have h8 : sizeofUdpHdr = 8 := rfl
  dsimp only at hlen hinside
  constructor <;> omega

end Packet

/-- **When the parsed region lies in the packet**: if the datagram counts its headers and has arrived
as a whole. -/
theorem confined_iff (m : Mbuf) (v : Ingestion (List Region)) :
    Confined m v ↔
      sizeofUdpHdr + 20 ≤ m.dgramLen ∧ udpHdr + m.dgramLen ≤ m.dataLen.toNat := by
  obtain ⟨v', len, hrun, hhandler, htotal, n, rfl, hn⟩ := @ingestPacket_eq m v
  constructor
  · rintro ⟨v₁, regions, hrun₁, hhandler₁, hinside, -⟩
    rw [hrun] at hrun₁
    cases hrun₁
    rw [hhandler] at hhandler₁
    obtain rfl := List.append_cancel_left hhandler₁
    exact complete_of_inPacket hn (hinside _ (List.mem_singleton_self _))
  · intro hcomplete
    refine ⟨v', _, hrun, hhandler, fun r hr => ?_, ?_⟩
    · rw [List.mem_singleton.mp hr]
      exact Mbuf.Complete.inPacket hcomplete hn
    · rw [htotal, ← Mbuf.Complete.len hcomplete hn, UInt64.ofNat_toNat]

/-- A packet of one segment, in a buffer of zeros. -/
def Mbuf.ofBytes (bs : List UInt8) : Mbuf where
  nbSegs := 1
  dataLen := UInt16.ofNat bs.length
  pktLen := UInt32.ofNat bs.length
  mem a := if a < dataRoom then some (bs.getD a 0) else none
  room a ha := by
    rw [if_pos ha]
    rfl

/-- The header of a length of 20, and nothing behind the headers. -/
def runt : Mbuf := Mbuf.ofBytes (List.replicate 38 0 ++ [0, 20] ++ List.replicate 22 0)

/-- The length of this packet does not count the headers: the region has 2 ^ 64 - 8 bytes. -/
theorem not_always_confined :
    ¬ ∀ (m : Mbuf) (v : Ingestion (List Region)), Confined m v := by
  intro hall
  obtain ⟨v', regions, hrun, hhandler, hinside, -⟩ := hall runt (Ingestion.start 0 [])
  obtain ⟨v₁, len, hrun₁, hhandler₁, -, n, rfl, hn⟩ := @ingestPacket_eq runt (Ingestion.start 0 [])
  rw [hrun] at hrun₁
  cases hrun₁
  rw [hhandler] at hhandler₁
  obtain rfl := List.append_cancel_left hhandler₁
  have hcomplete := complete_of_inPacket hn (hinside _ (List.mem_singleton_self _))
  exact absurd hcomplete.1 (by decide)

/-! ## Runs -/

/-- Where the messages of a complete packet are. -/
def Mbuf.region (m : Mbuf) : Region := ⟨itchStart, UInt64.ofNat m.itchBytes⟩

section Runs
variable {v : Ingestion (List Region)}

theorem ingestPacket_complete {m : Mbuf} (hcomplete : m.Complete) :
    ∃ v', ingestPacket recordRegion m v = .returned v' ∧ v'.handler = v.handler ++ [m.region] ∧
      v'.totalSize = v.totalSize + UInt64.ofNat m.itchBytes := by
  obtain ⟨v', len, hrun, hhandler, htotal, n, rfl, hn⟩ := @ingestPacket_eq m v
  have hlen : itchLen n = UInt64.ofNat m.itchBytes := by
    rw [← hcomplete.len hn, UInt64.ofNat_toNat]
  rw [hlen] at hhandler htotal
  exact ⟨v', hrun, hhandler, htotal⟩

theorem ingestPackets_complete {bufs : List Mbuf} (hall : ∀ m ∈ bufs, m.Complete) :
    ∃ v', ingestPackets recordRegion bufs v = .returned v' ∧
      v'.handler = v.handler ++ bufs.map Mbuf.region ∧
      v'.totalSize = v.totalSize + UInt64.ofNat (bufs.map Mbuf.itchBytes).sum := by
  induction bufs generalizing v with
  | nil => exact ⟨v, rfl, (List.append_nil _).symm, (UInt64.add_zero _).symm⟩
  | cons m bufs ih =>
    obtain ⟨v₁, hrun₁, hhandler₁, htotal₁⟩ := @ingestPacket_complete v m (hall m List.mem_cons_self)
    obtain ⟨v₂, hrun₂, hhandler₂, htotal₂⟩ :=
      @ih v₁ fun m' hm' => hall m' (List.mem_cons_of_mem m hm')
    refine ⟨v₂, ?_, ?_, ?_⟩
    · rw [ingestPackets, hrun₁, Outcome.andThen, hrun₂]
    · rw [hhandler₂, hhandler₁, List.append_assoc, List.map_cons, List.singleton_append]
    · rw [htotal₂, htotal₁, List.map_cons, List.sum_cons, UInt64.ofNat_add, UInt64.add_assoc]

theorem logProgress_handler {σ : Type} (hz now : UInt64) (v : Ingestion σ) :
    (logProgress hz now v).handler = v.handler := by
  unfold logProgress
  split <;> rfl

theorem logProgress_totalSize {σ : Type} (hz now : UInt64) (v : Ingestion σ) :
    (logProgress hz now v).totalSize = v.totalSize := by
  unfold logProgress
  split <;> rfl

/-- **Complete packets in any bursts**: those that are taken before the handler stops the loop are
parsed in their own bytes, in order, and the sum of these bytes is counted. -/
theorem ingestMessages_complete {shouldStop : List Region → Bool} {hz : UInt64}
    {bursts : List Burst} (hall : ∀ b ∈ bursts, ∀ m ∈ b.bufs, m.Complete) :
    ∃ taken v', taken <+: bursts ∧
      ingestMessages recordRegion shouldStop hz bursts v = .returned v' ∧
      v'.handler = v.handler ++ (taken.flatMap Burst.bufs).map Mbuf.region ∧
      v'.totalSize =
        v.totalSize + UInt64.ofNat ((taken.flatMap Burst.bufs).map Mbuf.itchBytes).sum := by
  induction bursts generalizing v with
  | nil =>
    exact ⟨[], v, List.prefix_refl [], rfl, (List.append_nil _).symm, (UInt64.add_zero _).symm⟩
  | cons b bursts ih =>
    rw [ingestMessages]
    split
    · exact ⟨[], v, List.nil_prefix, rfl, (List.append_nil _).symm, (UInt64.add_zero _).symm⟩
    · obtain ⟨v₁, hrun₁, hhandler₁, htotal₁⟩ :=
        @ingestPackets_complete { v with pkts := v.pkts + UInt64.ofNat b.bufs.length } b.bufs
          (hall b List.mem_cons_self)
      obtain ⟨taken, v₂, hprefix, hrun₂, hhandler₂, htotal₂⟩ := @ih (logProgress hz b.now v₁)
        fun b' hb' => hall b' (List.mem_cons_of_mem b hb')
      rw [logProgress_handler, hhandler₁] at hhandler₂
      rw [logProgress_totalSize, htotal₁] at htotal₂
      refine ⟨b :: taken, v₂, List.cons_prefix_cons.mpr ⟨rfl, hprefix⟩, ?_, ?_, ?_⟩
      · rw [ingestBurst, hrun₁, Outcome.andThen, Outcome.andThen, hrun₂]
      · rw [hhandler₂, List.flatMap_cons, List.map_append, List.append_assoc]
      · rw [htotal₂, List.flatMap_cons, List.map_append, List.sum_append, UInt64.ofNat_add,
          UInt64.add_assoc]

end Runs

/-! ## Packets of frames -/

/-- **A complete packet of frames** is handed to the handler frame by frame. -/
theorem ingestPacket_frames {σ : Type} {h : SpecificHandler σ}
    {junk : (ty : MessageType) → ty.Msg} {m : Mbuf} (hcomplete : m.Complete) {frames : List Frame}
    (hknown : ∀ f ∈ frames, f.Known) (hfilled : ∀ f ∈ frames, f.Filled h)
    (hlen : (frames.flatMap Frame.bytes).length = m.itchBytes)
    (hmem : m.mem.Holds itchStart (frames.flatMap Frame.bytes)) (v : Ingestion σ) :
    ∃ v', ingestPacket (parseRegion h junk) m v = .returned v' ∧
      v'.handler = h.replay v.handler (frames.flatMap (Frame.calls h junk)) := by
  obtain ⟨hdr, hread, hn⟩ := m.readHeaders_eq
  have hsize : (itchLen hdr.dgramLen).toNat = (frames.flatMap Frame.bytes).length := by
    rw [hcomplete.len hn, hlen]
  have hsmall : (itchLen hdr.dgramLen).toNat < 2 ^ 63 := by
    have hroom : m.itchBytes ≤ m.dataLen.toNat :=
      (Nat.sub_le _ _).trans (min_le_right _ _)
    have hlt := m.dataLen.toNat_lt
    rw [hcomplete.len hn]
    omega
  have hparse : ∀ s, parseRegion h junk m.mem itchStart (itchLen hdr.dgramLen) s =
      .returned (h.replay s (frames.flatMap (Frame.calls h junk))) := by
    intro s
    rw [parseRegion, if_pos hsmall, hsize, parse_only_frames hknown hfilled hmem]
  unfold ingestPacket
  rw [hread]
  dsimp only
  rw [hparse]
  refine ⟨_, rfl, ?_⟩
  split <;> rfl

end ItchIngestion.ITCH
