import Minnow.TCPSegment

/-!
# TCP segments in IPv4 datagrams (`tcp_over_ip.cc`, `fd_adapter.hh`)

What one adapter wraps the other unwraps, however the bytes of the datagram are cut into buffers in
between (`unwrapTcpInIp_wrapTcpInIp`).
-/

namespace Minnow
open Prog

/-- What the adapter uses of an internet address: its 32-bit number, its port, and the constructor
from a dotted quad and a port, applied to what `inet_ntoa` makes of a number. -/
class Address (α : Type) where
  ipv4Numeric : α → UInt32
  port : α → UInt16
  ofNumeric : UInt32 → UInt16 → α

open Address

/-- The conversions are inverse to each other. -/
class LawfulAddress (α : Type) [Address α] : Prop where
  ipv4Numeric_ofNumeric (n : UInt32) (p : UInt16) : ipv4Numeric (ofNumeric n p : α) = n
  port_ofNumeric (n : UInt32) (p : UInt16) : port (ofNumeric n p : α) = p
  ofNumeric_ipv4Numeric (a : α) : ofNumeric (ipv4Numeric a) (port a) = a

structure FdAdapterConfig (α : Type) where
  source : α
  destination : α

structure TCPOverIPv4Adapter (α : Type) where
  config : FdAdapterConfig α
  listening : Bool := false

namespace TCPOverIPv4Adapter

variable {α : Type} [Address α]

/-- The message, if there is one for this adapter, and the adapter, which a SYN may have connected.
`none`: undefined behaviour in the parser. -/
def unwrapTcpInIp (t : TCPOverIPv4Adapter α) (ipDgram : IPv4Datagram) :
    Option (Option TCPMessage × TCPOverIPv4Adapter α) :=
  if t.listening = false ∧ ipDgram.header.dst ≠ ipv4Numeric t.config.source then some (none, t)
  else if t.listening = false ∧ ipDgram.header.src ≠ ipv4Numeric t.config.destination then
    some (none, t)
  else if ipDgram.header.proto ≠ IPv4Header.PROTO_TCP then some (none, t)
  else do
    let (tcpSeg, valid) ←
      Parser.parse (TCPSegment.parse ipDgram.header.pseudoChecksum {}) ipDgram.payload
    if valid = false then some (none, t)
    else if tcpSeg.udinfo.dstPort ≠ port t.config.source then some (none, t)
    else if t.listening = true ∧
        ¬ (tcpSeg.message.sender.SYN = true ∧ tcpSeg.message.sender.RST = false) then
      some (none, t)
    else
      let t : TCPOverIPv4Adapter α :=
        if t.listening then
          { config :=
              { source := ofNumeric ipDgram.header.dst (port t.config.source)
                destination := ofNumeric ipDgram.header.src tcpSeg.udinfo.srcPort } }
        else t
      if tcpSeg.udinfo.srcPort ≠ port t.config.destination then some (none, t)
      else some (some tcpSeg.message, t)

/-- `none`: an exception of the serializer. -/
def wrapTcpInIp (t : TCPOverIPv4Adapter α) (msg : TCPMessage) : Option IPv4Datagram := do
  let seg : TCPSegment :=
    { message := msg
      udinfo := { srcPort := port t.config.source, dstPort := port t.config.destination } }
  let header : IPv4Header :=
    { src := ipv4Numeric t.config.source, dst := ipv4Numeric t.config.destination }
  let header := { header with
    len := UInt16.ofNat (header.hlen.toNat * 4 + 20 + msg.sender.payload.length) }
  let seg := seg.computeChecksum header.pseudoChecksum
  let header ← header.computeChecksum
  some { header, payload := (seg.serialize {}).output }

/-- The adapter `t'` is connected to `t`, or it listens on the port that `t` sends to and `msg` opens
a connection. -/
structure Reaches (t t' : TCPOverIPv4Adapter α) (msg : TCPMessage) : Prop where
  port : port t'.config.source = port t.config.destination
  connected : t'.listening = false →
    ipv4Numeric t'.config.source = ipv4Numeric t.config.destination ∧
      ipv4Numeric t'.config.destination = ipv4Numeric t.config.source ∧
      Address.port t'.config.destination = Address.port t.config.source
  listening : t'.listening = true →
    msg.sender.SYN = true ∧ msg.sender.RST = false ∧ msg.receiver.RST = false

variable {t t' : TCPOverIPv4Adapter α} {msg : TCPMessage}

/-- What is on the wire: a header that carries its checksum, and a segment whose checksum verifies
against it. -/
theorem wrap_spec (t : TCPOverIPv4Adapter α) (hlen : msg.sender.payload.length ≤ 65495) :
    ∃ (h : IPv4Header) (seg : TCPSegment), t.wrapTcpInIp msg = some ⟨h, (seg.serialize {}).output⟩ ∧
      (h.ver = 4 ∧ h.hlen = 5 ∧ h.offset.toNat < 2 ^ 13 ∧ h.computeChecksum = some h) ∧
      (h.src = ipv4Numeric t.config.source ∧ h.dst = ipv4Numeric t.config.destination ∧
        h.proto = IPv4Header.PROTO_TCP) ∧
      (seg.message = msg ∧ seg.udinfo.srcPort = port t.config.source ∧
        seg.udinfo.dstPort = port t.config.destination) ∧
      (InternetChecksum.add { sum := h.pseudoChecksum } seg.bytes).value = 0 := by
  let h : IPv4Header :=
    { src := ipv4Numeric t.config.source
      dst := ipv4Numeric t.config.destination
      len := UInt16.ofNat (5 * 4 + 20 + msg.sender.payload.length) }
  let seg : TCPSegment :=
    { message := msg
      udinfo := { srcPort := port t.config.source, dstPort := port t.config.destination } }
  obtain ⟨cksum, hck⟩ := IPv4Header.computeChecksum_spec (h := h) rfl
  refine ⟨{ h with cksum }, seg.computeChecksum h.pseudoChecksum, bind_of_eq_some (hck 0),
    ⟨rfl, rfl, Nat.two_pow_pos 13, hck cksum⟩, ⟨rfl, rfl, rfl⟩, ⟨rfl, rfl, rfl⟩, ?_⟩
  have hle := h.pseudoChecksum_le
  refine TCPSegment.value_computeChecksum ?_
  show h.pseudoChecksum + 65280 * (20 + msg.sender.payload.length) < _
  omega

/-- What is unwrapped from a datagram like that. -/
theorem unwrap_spec [LawfulAddress α] {d : IPv4Datagram} {seg : TCPSegment}
    (hr : Reaches t t' msg) (hsrc : d.header.src = ipv4Numeric t.config.source)
    (hdst : d.header.dst = ipv4Numeric t.config.destination)
    (hproto : d.header.proto = IPv4Header.PROTO_TCP)
    (hparse : Parser.parse (TCPSegment.parse d.header.pseudoChecksum {}) d.payload =
      some (seg, true))
    (hmsg : seg.message = msg.orRST) (hsp : seg.udinfo.srcPort = port t.config.source)
    (hdp : seg.udinfo.dstPort = port t.config.destination) :
    ∃ t'', t'.unwrapTcpInIp d = some (some msg.orRST, t'') := by
  unfold unwrapTcpInIp
  rw [if_neg fun h => h.2 (hdst.trans (hr.connected h.1).1.symm),
    if_neg fun h => h.2 (hsrc.trans (hr.connected h.1).2.1.symm), if_neg (not_not_intro hproto)]
  rw [bind_of_eq_some hparse]
  dsimp only
  rw [if_neg (by simp), if_neg (not_not_intro (hdp.trans hr.port.symm)), hmsg, hsp]
  cases hl : t'.listening with
  | true =>
    obtain ⟨hsyn, hrst, hrst'⟩ := hr.listening hl
    rw [if_neg (by simp [TCPMessage.orRST, hsyn, hrst, hrst']), if_pos rfl,
      if_neg (by rw [LawfulAddress.port_ofNumeric]; simp)]
    exact ⟨_, rfl⟩
  | false =>
    have hport := (hr.connected hl).2.2
    rw [if_neg (by simp), if_neg (by simp [hport])]
    exact ⟨_, rfl⟩

/-- The wire round trip. -/
theorem unwrapTcpInIp_wrapTcpInIp [LawfulAddress α] (hlen : msg.sender.payload.length ≤ 65495)
    (hr : Reaches t t' msg) : ∃ d s, t.wrapTcpInIp msg = some d ∧ d.serialize {} = some s ∧
      ∀ buffers : List Bytes, (∀ b ∈ buffers, b ≠ []) → buffers.flatten = s.output.flatten →
        ∃ d' t'', Parser.parse (IPv4Datagram.parse {}) buffers = some (d', true) ∧
          t'.unwrapTcpInIp d' = some (some msg.orRST, t'') := by
  obtain ⟨h, seg, hwrap, ⟨hv, hh, ho, hck⟩, ⟨hsrc, hdst, hproto⟩, ⟨hmsg, hsp, hdp⟩, hvalue⟩ :=
    t.wrap_spec hlen
  obtain ⟨s, hs, hbytes, -⟩ :=
    IPv4Datagram.serialize_spec (d := ⟨h, (seg.serialize {}).output⟩) hv
  refine ⟨_, s, hwrap, hs, fun buffers hne hflat => ?_⟩
  have hreads := Parser.reads_ofBuffers hne
  rw [hflat, hbytes, Serializer.flatten_output, TCPSegment.content_serialize] at hreads
  obtain ⟨payload, p, hparse, herr, hpayload, hpne⟩ :=
    IPv4Datagram.parse_of_reads hv hh ho hck hreads
  -- the payload is a list of buffers again, which the second parser consumes
  have hreads' := Parser.reads_ofBuffers hpne
  rw [hpayload] at hreads'
  obtain ⟨p', hparse', herr'⟩ := TCPSegment.parse_of_reads hvalue hreads'
  have hvalid : Parser.parse (TCPSegment.parse h.pseudoChecksum {}) payload =
      some (⟨seg.message.orRST, seg.udinfo⟩, true) := by
    rw [Parser.parse, hparse', Option.map_some]
    show some (_, !p'.error) = _
    rw [herr']; rfl
  obtain ⟨t'', ht⟩ := unwrap_spec (d := ⟨h, payload⟩) hr hsrc hdst hproto hvalid (by rw [hmsg]) hsp hdp
  refine ⟨⟨h, payload⟩, t'', ?_, ht⟩
  rw [Parser.parse, hparse, Option.map_some]
  show some (_, !p.error) = _
  rw [herr]; rfl

/-- A number and a port. -/
instance : Address (UInt32 × UInt16) := ⟨Prod.fst, Prod.snd, Prod.mk⟩

instance : LawfulAddress (UInt32 × UInt16) := ⟨fun _ _ => rfl, fun _ _ => rfl, fun _ => rfl⟩

/-- A SYN with three bytes, from port 5000 to a listener on port 80, byte by byte. -/
theorem unwrapTcpInIp_wrapTcpInIp_bytewise :
    let t : TCPOverIPv4Adapter (UInt32 × UInt16) := ⟨⟨(0x0a000001, 5000), (0x0a000002, 80)⟩, false⟩
    let t' : TCPOverIPv4Adapter (UInt32 × UInt16) := ⟨⟨(0, 80), (0, 0)⟩, true⟩
    let msg : TCPMessage := ⟨{ seqno := ⟨7⟩, SYN := true, payload := [1, 2, 3] }, { windowSize := 9 }⟩
    ∃ d s d' t'', t.wrapTcpInIp msg = some d ∧ d.serialize {} = some s ∧
      Parser.parse (IPv4Datagram.parse {}) (s.output.flatten.map fun b => [b]) = some (d', true) ∧
      t'.unwrapTcpInIp d' = some (some msg, t'') := by
  intro t t' msg
  have hr : Reaches t t' msg := ⟨rfl, fun h => (by cases h), fun _ => ⟨rfl, rfl, rfl⟩⟩
  obtain ⟨d, s, hwrap, hs, hround⟩ := unwrapTcpInIp_wrapTcpInIp (by decide) hr
  have hne : ∀ b ∈ s.output.flatten.map fun b => [b], b ≠ [] := by
    intro b hb
    obtain ⟨x, -, rfl⟩ := List.mem_map.1 hb
    exact List.cons_ne_nil _ _
  obtain ⟨d', t'', hd, ht⟩ := hround _ hne (by rw [← List.flatMap_def, List.flatMap_singleton'])
  exact ⟨d, s, d', t'', hwrap, hs, hd, ht⟩

end TCPOverIPv4Adapter

end Minnow
