import Minnow.IPv4Grammar
import Minnow.Listener
import Minnow.TCPMinnowSocket

/-!
# The adapter for a TUN device (`tuntap_adapter.cc`)

A read takes a datagram off the device, its header into one buffer and the rest into another. Whatever
the device gives, the parsers come to an end, and a message is only taken from a datagram that carries
it (`read_carries`). What one adapter writes is all that another can take from it
(`Takes.orRST`).
-/

namespace Minnow
open Prog

/-- Next to the device stand the datagrams that a message was taken from, in `accepted`, and those that
the device has taken whole, in `sent`. -/
structure TCPOverIPv4OverTunFdAdapter (α : Type) where
  tcpOverIP : TCPOverIPv4Adapter α
  tun : FDWrapper
  accepted : List (Bytes × TCPMessage) := []
  sent : List Bytes := []

/-- A datagram is parsed from the buffers and unwrapped. -/
def TCPOverIPv4Adapter.unwrapBuffers {α : Type} [Address α] (t : TCPOverIPv4Adapter α)
    (buffers : List Bytes) : Option (Option TCPMessage × TCPOverIPv4Adapter α) := do
  let (ipDgram, valid) ← Parser.parse (IPv4Datagram.parse {}) buffers
  if valid then t.unwrapTcpInIp ipDgram else some (none, t)

/-- A message is wrapped and serialized. `none`: an exception of the serializer. -/
def TCPOverIPv4Adapter.wrapBuffers {α : Type} [Address α] (t : TCPOverIPv4Adapter α)
    (msg : TCPMessage) : Option (List Bytes) := do
  let ipDgram ← t.wrapTcpInIp msg
  let s ← ipDgram.serialize {}
  some s.output

namespace TCPOverIPv4OverTunFdAdapter

variable {α κ β : Type}

def onTun (call : Act (Process Unit κ) β) : Act (TCPOverIPv4OverTunFdAdapter α × κ) β :=
  Act.zoom (fun s => { kernel := s.2, fds := fun _ => s.1.tun })
    (fun p s => ({ s.1 with tun := p.fds () }, p.kernel)) call

variable [Address α] [Kernel κ]

/-- The rest of `read`, on the buffers. -/
def unwrapStrs (strs : List Bytes) : Act (TCPOverIPv4OverTunFdAdapter α × κ) (Option TCPMessage) := do
  match strs with
  | front :: back :: _ =>
    let (a, k) ← get
    match a.tcpOverIP.unwrapBuffers [front, back] with
    | some (msg, tcpOverIP) =>
      set ({ a with
        tcpOverIP
        accepted := a.accepted ++ (msg.map fun m => (front ++ back, m)).toList }, k)
      return msg
    | none => throw (.undef .emptyFront)
  | _ => throw (.exn .outOfRange)

def read : Act (TCPOverIPv4OverTunFdAdapter α × κ) (Option TCPMessage) := do
  let strs ← onTun (FileDescriptor.readBuffers () [List.replicate IPv4Header.LENGTH 0, []])
  unwrapStrs strs

def write (msg : TCPMessage) : Act (TCPOverIPv4OverTunFdAdapter α × κ) Unit := do
  match (← get).1.tcpOverIP.wrapBuffers msg with
  | some buffers =>
    let bytesWritten ← onTun (FileDescriptor.write () buffers)
    if bytesWritten = buffers.flatten.length then
      modify fun s => ({ s.1 with sent := s.1.sent ++ [buffers.flatten] }, s.2)
  | none => throw (.exn .runtimeError)

instance : TCPDatagramAdapter (TCPOverIPv4OverTunFdAdapter α) κ α where
  fd a := a.tun
  read := read
  write := write
  setConfig config a := { a with tcpOverIP := { a.tcpOverIP with config } }
  setListening listening a := { a with tcpOverIP := { a.tcpOverIP with listening } }
  tick _ a := a

end TCPOverIPv4OverTunFdAdapter

/-! ### What can be taken from a datagram -/

/-- The bytes of the segment in a datagram. -/
def segmentBytes (data : Bytes) : Bytes := data.drop (4 * IPv4Header.ihl data)

/-- A datagram of version 4 whose header verifies, with a segment that verifies. -/
structure HoldsSegment (data : Bytes) : Prop where
  version : IPv4Header.version data = 4
  ihl : 5 ≤ IPv4Header.ihl data
  header : IPv4Header.Verifies (IPv4Header.clearReserved (data.take 20))
  proto : (IPv4Header.ofBytes data).proto = IPv4Header.PROTO_TCP
  segment : TCPSegment.Verifies (IPv4Header.ofBytes data).pseudoChecksum (segmentBytes data)
  length : 4 * IPv4Header.ihl data + 20 ≤ data.length
  dataOffset : 5 ≤ TCPSegment.dataOffset (segmentBytes data)

open Address

variable {α : Type} [Address α]

/-- Addresses and ports are those of this connection, or the adapter listens and the segment opens one
to its port. -/
structure TCPOverIPv4Adapter.Hears (t : TCPOverIPv4Adapter α) (header : IPv4Header) (seg : TCPSegment) :
    Prop where
  dstPort : seg.udinfo.dstPort = port t.config.source
  dst : t.listening = false → header.dst = ipv4Numeric t.config.source
  src : t.listening = false → header.src = ipv4Numeric t.config.destination
  srcPort : t.listening = false → seg.udinfo.srcPort = port t.config.destination
  syn : t.listening = true → seg.message.sender.SYN = true ∧ seg.message.sender.RST = false

/-- The message is that of a segment in the datagram which the adapter hears. -/
structure TCPOverIPv4Adapter.Accepts (t : TCPOverIPv4Adapter α) (data : Bytes) (msg : TCPMessage) :
    Prop where
  holds : HoldsSegment data
  hears : t.Hears (.ofBytes data) (.ofBytes (segmentBytes data))
  message : msg = (TCPSegment.ofBytes (segmentBytes data)).message

namespace TCPOverIPv4Adapter

variable {t : TCPOverIPv4Adapter α} {d : IPv4Datagram} {seg : TCPSegment} {msg m : TCPMessage}
  {data bytes : Bytes}

theorem unwrap_some {t' : TCPOverIPv4Adapter α} (h : t.unwrapTcpInIp d = some (some msg, t')) :
    ∃ seg, Carries d seg ∧ t.Hears d.header seg ∧ msg = seg.message := by
  rcases unwrap_cases h with ⟨-, hm, -⟩ | ⟨seg, hp, ht, hm⟩
  · cases hm
  split at hm
  next => cases hm
  next hsrc =>
    refine ⟨seg, hp.carries, ⟨hp.port, fun hl => (hp.connected hl).1, fun hl => (hp.connected hl).2,
      fun hl => ?_, hp.opening⟩, Option.some.inj hm⟩
    rw [hl, if_neg Bool.false_ne_true] at ht
    rw [← ht]
    exact not_not.1 hsrc

theorem parse_datagram {buffers : List Bytes} {r : IPv4Header × Parser}
    (h : IPv4Header.parse {} (.ofBuffers buffers) = some r) :
    Parser.parse (IPv4Datagram.parse {}) buffers = some (⟨r.1, r.2.allRemaining⟩, !r.2.error) := by
  have hd : IPv4Datagram.parse {} (.ofBuffers buffers) = some (⟨r.1, r.2.allRemaining⟩, r.2) :=
    bind_of_eq_some h
  rw [Parser.parse, hd]
  rfl

theorem valid_of_parse {pseudo : Nat} {buffers : List Bytes} {seg' : TCPSegment} {p : Parser}
    (h : TCPSegment.parse pseudo {} (.ofBuffers buffers) = some (seg, p))
    (h' : Parser.parse (TCPSegment.parse pseudo {}) buffers = some (seg', true)) :
    seg' = seg ∧ p.hasError = false := by
  rw [Parser.parse, h] at h'
  obtain ⟨rfl, herr⟩ := Prod.mk.inj (Option.some.inj h')
  exact ⟨rfl, by simpa using herr⟩

theorem reads_cut (h : 20 < data.length) :
    (Parser.ofBuffers [data.take 20, data.drop 20]).Reads data := by
  have hne : ∀ b ∈ [data.take 20, data.drop 20], b ≠ [] := by
    intro b hb
    rw [← List.length_pos_iff]
    rcases List.mem_cons.1 hb with rfl | hb
    · rw [List.length_take]
      omega
    · rw [List.mem_singleton.1 hb, List.length_drop]
      omega
  have hreads := Parser.reads_ofBuffers hne
  have hflat : [data.take 20, data.drop 20].flatten = data := by simp
  rwa [hflat] at hreads

/-- However long a datagram is that was cut behind the 20th byte, unwrapping ends, and a message is
only taken from a datagram that carries it. -/
theorem unwrapBuffers_carries (t : TCPOverIPv4Adapter α) (hlen : data.length ≤ 65535) :
    ∃ r t', t.unwrapBuffers [data.take 20, data.drop 20] = some (r, t') ∧
      ∀ msg, r = some msg → t.Accepts data msg := by
  have hinvalid : ∀ d : IPv4Datagram,
      Parser.parse (IPv4Datagram.parse {}) [data.take 20, data.drop 20] = some (d, false) →
      ∃ r t', t.unwrapBuffers [data.take 20, data.drop 20] = some (r, t') ∧
        ∀ msg, r = some msg → t.Accepts data msg :=
    fun d hd => ⟨none, t, bind_of_eq_some hd, fun _ h => by cases h⟩
  have hpseudo : ∀ (h : IPv4Header) (n : Nat), n ≤ 65535 → h.pseudoChecksum + 65280 * n < 2 ^ 32 :=
    fun h n hn => by have := h.pseudoChecksum_le; omega
  rcases Nat.lt_or_ge 20 data.length with h20 | h20
  · have hreads := reads_cut h20
    obtain ⟨h, p', hparse, hok⟩ := IPv4Header.parse_isSome {} hreads h20.le
    have hd := parse_datagram hparse
    cases herr : p'.error with
    | true => rw [herr] at hd; exact hinvalid _ hd
    | false =>
      rw [herr] at hd
      obtain ⟨rfl, hver, hihl, hverifies, hp'⟩ := hok herr
      obtain ⟨hrest, hne'⟩ := hp'.allRemaining
      have hle : (p'.allRemaining.flatten).length ≤ 65535 := by
        rw [hrest, List.length_drop]
        omega
      obtain ⟨⟨seg, q⟩, hseg, hiff, hfields⟩ :=
        TCPSegment.parse_spec {} hne' (hpseudo (.ofBytes data) _ hle)
      rw [hrest] at hiff hfields
      obtain ⟨⟨r, t'⟩, hr⟩ := t.unwrap_isSome (d := ⟨.ofBytes data, p'.allRemaining⟩) hne'
      refine ⟨r, t', (bind_of_eq_some hd).trans hr, fun msg hm => ?_⟩
      subst hm
      obtain ⟨seg', hcarries, hhears, rfl⟩ := unwrap_some hr
      obtain ⟨rfl, hq⟩ := valid_of_parse hseg hcarries.parse
      obtain ⟨hverifies', hlong, hoff⟩ := hiff.1 hq
      obtain rfl := hfields hq
      rw [List.length_drop] at hlong
      exact ⟨⟨hver, hihl, hverifies, hcarries.proto, hverifies', by omega, hoff⟩, hhears, rfl⟩
  · -- no more than a header
    have htake : data.take 20 = data := List.take_of_length_le h20
    have hdrop : data.drop 20 = [] := List.drop_eq_nil_of_le h20
    rw [htake, hdrop] at hinvalid ⊢
    obtain ⟨⟨h, p'⟩, hparse, hend⟩ := IPv4Header.parse_nearEnd {}
      (Parser.nearEnd_ofBuffers (Nat.lt_succ_of_le h20))
    have hd := parse_datagram hparse
    cases herr : p'.error with
    | true => rw [herr] at hd; exact hinvalid _ hd
    | false =>
      rw [herr, hend.allRemaining herr] at hd
      obtain ⟨⟨seg, q⟩, hseg, hiff, -⟩ := TCPSegment.parse_spec {} (List.forall_mem_nil _)
        (hpseudo h _ (Nat.zero_le _))
      obtain ⟨⟨r, t'⟩, hr⟩ := t.unwrap_isSome (d := ⟨h, []⟩) (List.forall_mem_nil _)
      refine ⟨r, t', (bind_of_eq_some hd).trans hr, fun msg hm => ?_⟩
      subst hm
      obtain ⟨seg', hcarries, -⟩ := unwrap_some hr
      obtain ⟨-, hq⟩ := valid_of_parse hseg hcarries.parse
      exact absurd (hiff.1 hq).2.1 (by decide)

/-! ### What can be taken from a datagram that another adapter has made -/

/-- An adapter makes these bytes of the message. -/
def Makes (α : Type) [Address α] (msg : TCPMessage) (bytes : Bytes) : Prop :=
  ∃ (t : TCPOverIPv4Adapter α) (buffers : List Bytes), t.wrapBuffers msg = some buffers ∧
    buffers.flatten = bytes

/-- An adapter takes the message from these bytes, which it can read at once. -/
def Takes (α : Type) [Address α] (bytes : Bytes) (msg : TCPMessage) : Prop :=
  bytes.length ≤ 16404 ∧ ∃ t t' : TCPOverIPv4Adapter α,
    t.unwrapBuffers [bytes.take 20, bytes.drop 20] = some (some msg, t')

theorem wrapBuffers_eq {buffers : List Bytes} (h : t.wrapBuffers msg = some buffers) :
    ∃ d s, t.wrapTcpInIp msg = some d ∧ d.serialize {} = some s ∧ s.output = buffers := by
  unfold wrapBuffers at h
  obtain ⟨d, hd, h⟩ := Option.bind_eq_some_iff.1 h
  obtain ⟨s, hs, h⟩ := Option.bind_eq_some_iff.1 h
  exact ⟨d, s, hd, hs, Option.some.inj h⟩

theorem wrapTcpInIp_eq (t : TCPOverIPv4Adapter α) (msg : TCPMessage) :
    ∃ (h : IPv4Header) (seg : TCPSegment), t.wrapTcpInIp msg = some ⟨h, (seg.serialize {}).output⟩ ∧
      seg.message = msg ∧ h.ver = 4 := by
  obtain ⟨cksum, hspec⟩ := IPv4Header.computeChecksum_spec (h := {
    src := ipv4Numeric t.config.source
    dst := ipv4Numeric t.config.destination
    len := UInt16.ofNat (5 * 4 + 20 + msg.sender.payload.length) }) rfl
  exact ⟨_, _, bind_of_eq_some (hspec 0), rfl, rfl⟩

theorem wrapBuffers_isSome (t : TCPOverIPv4Adapter α) (msg : TCPMessage) :
    ∃ buffers, t.wrapBuffers msg = some buffers := by
  obtain ⟨h, seg, hd, -, hv⟩ := t.wrapTcpInIp_eq msg
  obtain ⟨s, hs, -⟩ := IPv4Datagram.serialize_spec (d := ⟨h, (seg.serialize {}).output⟩) hv
  exact ⟨s.output, (bind_of_eq_some hd).trans (bind_of_eq_some hs)⟩

/-- Two headers come before the payload. -/
theorem Makes.length (h : Makes α msg bytes) : bytes.length = 40 + msg.sender.payload.length := by
  obtain ⟨t, buffers, hwrap, rfl⟩ := h
  obtain ⟨d, s, hd, hs, rfl⟩ := wrapBuffers_eq hwrap
  obtain ⟨h, seg, hd', hmsg, hv⟩ := t.wrapTcpInIp_eq msg
  cases hd.symm.trans hd'
  obtain ⟨s', hs', hbytes, -⟩ := IPv4Datagram.serialize_spec (d := ⟨h, (seg.serialize {}).output⟩) hv
  cases hs.symm.trans hs'
  rw [hbytes, Serializer.flatten_output, TCPSegment.content_serialize, List.length_append,
    IPv4Header.length_bytes]
  show 20 + seg.bytes.length = _
  rw [TCPSegment.length_bytes, hmsg]
  omega

/-- Whoever takes a message from a datagram takes the one that the datagram was made of, up to the
flags for a reset. -/
theorem Takes.orRST (ht : Takes α bytes m) (hm : Makes α msg bytes) :
    m = msg.orRST := by
  have hlen := hm.length
  obtain ⟨hle, t', t'', hunwrap⟩ := ht
  obtain ⟨t, buffers, hwrap, hflat⟩ := hm
  have hpay : msg.sender.payload.length ≤ 65495 := by omega
  obtain ⟨h, seg, hd, ⟨hv, hh, ho, hck⟩, -, ⟨hmsg, -, -⟩, hvalue⟩ := t.wrap_spec hpay
  have hbytes : bytes = h.bytes ++ seg.bytes := by
    obtain ⟨d, s, hd', hs, hout⟩ := wrapBuffers_eq hwrap
    cases hd.symm.trans hd'
    obtain ⟨s', hs', hbytes, -⟩ := IPv4Datagram.serialize_spec (d := ⟨h, (seg.serialize {}).output⟩) hv
    cases hs.symm.trans hs'
    rw [← hflat, ← hout, hbytes, Serializer.flatten_output, TCPSegment.content_serialize]
    rfl
  have hreads := reads_cut (show 20 < bytes.length by omega)
  obtain ⟨payload, p, hparse, herr, hpayload, hpne⟩ := IPv4Datagram.parse_of_reads hv hh ho hck
    ⟨hreads.wf, hreads.content.trans hbytes, hreads.error⟩
  have hreads' := Parser.reads_ofBuffers hpne
  rw [hpayload] at hreads'
  obtain ⟨p', hparse', -⟩ := TCPSegment.parse_of_reads hvalue hreads'
  have hdgram : Parser.parse (IPv4Datagram.parse {}) [bytes.take 20, bytes.drop 20] =
      some (⟨h, payload⟩, true) := by
    rw [Parser.parse, hparse, Option.map_some]
    show some (_, !p.error) = _
    rw [herr]
    rfl
  rw [unwrapBuffers, bind_of_eq_some hdgram] at hunwrap
  obtain ⟨seg', hcarries, -, rfl⟩ := unwrap_some hunwrap
  obtain ⟨rfl, -⟩ := valid_of_parse hparse' hcarries.parse
  exact congrArg TCPMessage.orRST hmsg

end TCPOverIPv4Adapter

namespace TCPOverIPv4OverTunFdAdapter

/-! ### Reads and writes -/

variable {κ β : Type} {a : TCPOverIPv4OverTunFdAdapter α} {k : κ} {bytes : Bytes} {msg : TCPMessage}
  {E : Fault → TCPOverIPv4OverTunFdAdapter α × κ → Prop}

/-- What can be read at once: a header and a full buffer. -/
def readSize : Nat := IPv4Header.LENGTH + FileDescriptor.kReadBufferSize

def noteRead (a : TCPOverIPv4OverTunFdAdapter α) : TCPOverIPv4OverTunFdAdapter α :=
  { a with tun := { a.tun with readCount := a.tun.readCount + 1 } }

variable [Kernel κ]

theorem cut_views {data : Bytes} (h : data.length ≤ readSize) :
    FileDescriptor.cut [List.replicate IPv4Header.LENGTH 0,
      List.replicate FileDescriptor.kReadBufferSize 0] data = [data.take 20, data.drop 20] := by
  unfold FileDescriptor.cut FileDescriptor.cut FileDescriptor.cut
  rw [List.length_replicate, List.length_replicate]
  have hrest : (data.drop IPv4Header.LENGTH).length ≤ FileDescriptor.kReadBufferSize := by
    unfold readSize at h
    rw [List.length_drop]
    omega
  rw [List.take_of_length_le hrest]
  rfl

theorem wp_read {Q : Option TCPMessage → TCPOverIPv4OverTunFdAdapter α × κ → Prop} :
    read.wp Q E (a, k) ↔
    match Kernel.readv a.tun.fd [IPv4Header.LENGTH, FileDescriptor.kReadBufferSize] k with
    | (.ok data, k') =>
      if readSize < data.length then E (.exn .runtimeError) (a.noteRead, k')
      else
        match a.tcpOverIP.unwrapBuffers [data.take 20, data.drop 20] with
        | some (msg, tcpOverIP) => Q msg ({ a.noteRead with
            tcpOverIP
            accepted := a.accepted ++ (msg.map fun m => (data, m)).toList }, k')
        | none => E (.undef .emptyFront) (a.noteRead, k')
    | (.again, k') =>
      if a.tun.nonBlocking then E (.exn .outOfRange) (a, k') else E (.exn .runtimeError) (a, k')
    | (.failed, k') => E (.exn .runtimeError) (a, k') := by
  unfold read onTun
  rw [Act.wp_bind, Act.wp_zoom, FileDescriptor.wp_readBuffers (List.cons_ne_nil _ _)]
  dsimp only [List.dropLast, List.cons_append, List.nil_append]
  have hviews : [List.replicate IPv4Header.LENGTH (0 : Byte),
      List.replicate FileDescriptor.kReadBufferSize 0].map List.length =
      [IPv4Header.LENGTH, FileDescriptor.kReadBufferSize] := by
    simp only [List.map_cons, List.map_nil, List.length_replicate]
  have hsize : ([List.replicate IPv4Header.LENGTH (0 : Byte),
      List.replicate FileDescriptor.kReadBufferSize 0].flatten).length = readSize := by
    simp only [List.flatten_cons, List.flatten_nil, List.append_nil, List.length_append,
      List.length_replicate]
    rfl
  rw [hviews, hsize]
  generalize Kernel.readv a.tun.fd [IPv4Header.LENGTH, FileDescriptor.kReadBufferSize] k = r
  obtain ⟨answer, k'⟩ := r
  cases answer with
  | ok data =>
    dsimp only
    split
    · rfl
    next hlen =>
      rw [cut_views (Nat.not_lt.1 hlen)]
      unfold unwrapStrs
      dsimp only
      rw [Act.wp_bind, Act.wp_get, List.take_append_drop]
      dsimp only
      generalize a.tcpOverIP.unwrapBuffers [data.take 20, data.drop 20] = u
      cases u with
      | none => rfl
      | some u => rfl
  | again => rfl
  | failed => rfl

/-- Whatever the device gives, a read comes to an end, with an exception only if the device cannot be
read, with none for what is no message for this connection, and otherwise with a message that the
datagram carries. -/
theorem read_carries (a : TCPOverIPv4OverTunFdAdapter α) (k : κ) :
    read.wp (fun r s => ∃ data, data.length ≤ 16404 ∧
        Kernel.readv a.tun.fd [20, 16384] k = (.ok data, s.2) ∧
        ∀ msg, r = some msg → a.tcpOverIP.Accepts data msg)
      (fun e s => (e = .exn .runtimeError ∨ (e = .exn .outOfRange ∧ a.tun.nonBlocking = true ∧
          (Kernel.readv a.tun.fd [20, 16384] k).1 = .again)) ∧ s.1.tcpOverIP = a.tcpOverIP) (a, k) := by
  rw [wp_read]
  have hsizes : [IPv4Header.LENGTH, FileDescriptor.kReadBufferSize] = [20, 16384] := rfl
  rw [hsizes]
  generalize Kernel.readv a.tun.fd [20, 16384] k = r
  obtain ⟨answer, k'⟩ := r
  cases answer with
  | ok data =>
    dsimp only
    split
    · exact ⟨.inl rfl, rfl⟩
    next hlen =>
      have hle : data.length ≤ 16404 := Nat.not_lt.1 hlen
      have hle' : data.length ≤ 65535 := by omega
      obtain ⟨r, t, hr, hmsg⟩ := a.tcpOverIP.unwrapBuffers_carries hle'
      rw [hr]
      exact ⟨data, hle, rfl, hmsg⟩
  | again =>
    dsimp only
    split
    next hnb => exact ⟨.inr ⟨rfl, hnb, rfl⟩, rfl⟩
    next => exact ⟨.inl rfl, rfl⟩
  | failed => exact ⟨.inl rfl, rfl⟩

/-- With a kernel that lets every call through the adapter does. -/
theorem obliging (hk : Kernel.Obliging κ)
    (hv : ∀ (fd : Nat) (sizes : List Nat) (k : κ), ∃ data k', Kernel.readv fd sizes k = (.ok data, k') ∧
      data.length ≤ sizes.sum) :
    TCPDatagramAdapter.Obliging (TCPOverIPv4OverTunFdAdapter α) κ where
  read a k := by
    have hread : read.wp (fun _ s => s.1.tun.readCount = a.tun.readCount + 1) (fun _ _ => False)
        (a, k) := by
      obtain ⟨data, k', heq, hle⟩ := hv a.tun.fd [IPv4Header.LENGTH, FileDescriptor.kReadBufferSize] k
      have hle : data.length ≤ readSize := hle
      have hle' : data.length ≤ 65535 := Nat.le_trans hle (by decide)
      obtain ⟨r, t, hr, -⟩ := a.tcpOverIP.unwrapBuffers_carries hle'
      rw [wp_read, heq]
      dsimp only
      rw [if_neg (Nat.not_lt.2 hle), hr]
      rfl
    obtain ⟨seg, ⟨a', k'⟩, heq, hcount⟩ := Act.exists_of_wp hread
    exact ⟨seg, a', k', heq, hcount⟩
  write msg a k := by
    have hwrite : (write msg).wp (fun _ s => s.1.tun.readCount = a.tun.readCount) (fun _ _ => False)
        (a, k) := by
      obtain ⟨buffers, hbuf⟩ := a.tcpOverIP.wrapBuffers_isSome msg
      obtain ⟨n, k', heq, hle, hpos⟩ := hk.writev a.tun.fd buffers k
      unfold write onTun
      rw [Act.wp_bind, Act.wp_get]
      dsimp only
      rw [hbuf]
      dsimp only
      rw [Act.wp_bind, Act.wp_zoom, FileDescriptor.wp_write]
      dsimp only
      rw [heq]
      dsimp only
      rw [if_neg fun h => hpos (mt List.length_eq_zero_iff.2 h.2) h.1, if_neg (Nat.not_lt.2 hle),
        Act.wp_ite]
      split <;> rfl
    obtain ⟨⟨⟩, ⟨a', k'⟩, heq, hcount⟩ := Act.exists_of_wp hwrite
    exact ⟨a', k', heq, hcount⟩

end TCPOverIPv4OverTunFdAdapter

end Minnow
