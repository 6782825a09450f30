import Minnow.Delivery
import Minnow.Network
import Minnow.SenderQueue

/-!
# End to end: what arrives is what was written

What a host has on the wire are segments of the stream written to it (`HostInv`), so the receiver at
the other side delivers that stream as long as the packets are safe when they are delivered
(`Link`, `delivered_of_safe`). A bare FIN that overtakes the data is not (`delivered_fails`).
-/

namespace Minnow
open Prog TCPSender TCPReceiver ByteStream

variable {p p' : TCPPeer} {msg : TCPMessage} {out : List TCPMessage} {g g' h h' : Host} {pkt : Packet}
  {cfg : Side → TCPConfig} {c : TCPConfig} {s s' : Net} {isn : Wrap32}

/-! ### One message at a peer -/

theorem TCPSender.receiveLoop_not_throws {r : TCPReceiverMessage} {e : Exn} {u : TCPSender} :
    ∀ {queue : List TCPSenderMessage} {t : TCPSender}, receiveLoop r queue t ≠ .throws e u := by
  intro queue
  induction queue with
  | nil => intro t h; cases h
  | cons m queue ih =>
    intro t h
    rw [receiveLoop] at h
    split at h
    · cases h
    · dsimp only at h
      split at h
      · exact ih h
      · cases h

theorem TCPPeer.note_eq (p : TCPPeer) (msg : TCPMessage) :
    (p.note msg).receiver = p.receiver ∧ (p.note msg).sender = p.sender := by
  unfold TCPPeer.note
  dsimp only
  split <;> exact ⟨rfl, rfl⟩

/-- An active peer hands a message to its receiver and, unless that throws, to its sender; it answers
with at most one message that occupies no sequence number. -/
theorem TCPPeer.receive_cases (h : (p.receive msg).Leaves (p', out)) :
    (p.active = false ∧ p' = p ∧ out = []) ∨
    (p.active = true ∧ (p.receiver.receive msg.sender).Leaves p'.receiver ∧
      (p'.sender = p.sender ∨ p.sender.receive msg.receiver = .ok p'.sender) ∧
      (out = [] ∨ out = [p'.segment p'.sender.makeEmptyMessage])) := by
  unfold TCPPeer.receive at h
  split at h
  next ha =>
    obtain ⟨rfl, rfl⟩ := Prod.mk.inj (Outcome.leaves_ok.1 h)
    exact .inl ⟨by simpa using ha, rfl, rfl⟩
  next ha =>
    refine .inr ⟨by simpa using ha, ?_⟩
    obtain ⟨hr, hs⟩ := p.note_eq msg
    dsimp only at h
    rw [← hr, ← hs]
    generalize p.note msg = q at h ⊢
    cases hrec : q.receiver.receive msg.sender with
    | undefined u => rw [hrec] at h; simp [Outcome.map, Outcome.bind] at h
    | throws e t =>
      rw [hrec] at h
      obtain ⟨rfl, rfl⟩ := Prod.mk.inj (Outcome.leaves_throws.1 h)
      exact ⟨.inr ⟨e, rfl⟩, .inl rfl, .inl rfl⟩
    | ok t =>
      rw [hrec] at h
      simp only [Outcome.map, Outcome.bind] at h
      cases hsnd : q.sender.receive msg.receiver with
      | undefined u => rw [hsnd] at h; simp at h
      | throws e t => exact absurd hsnd receiveLoop_not_throws
      | ok sd =>
        rw [hsnd] at h
        have h' := Outcome.leaves_ok.1 h
        split at h'
        · obtain ⟨rfl, rfl⟩ := Prod.mk.inj h'
          exact ⟨.inl rfl, .inr rfl, .inr rfl⟩
        · obtain ⟨rfl, rfl⟩ := Prod.mk.inj h'
          exact ⟨.inl rfl, .inr rfl, .inl rfl⟩

/-! ### A host -/

theorem Host.mem_stamp {n : Nat} : ∀ {out : List TCPMessage} {q : Nat}, pkt ∈ stamp n q out →
    ∃ l r, out = l ++ pkt.msg :: r ∧ pkt.seqAt = q + span (l.map (·.sender)) ∧ pkt.ackAt = n := by
  intro out
  induction out with
  | nil => intro q h; simp [stamp] at h
  | cons msg out ih =>
    intro q h
    rcases List.mem_cons.1 h with rfl | h
    · exact ⟨[], out, rfl, rfl, rfl⟩
    · obtain ⟨l, r, rfl, hseq, hack⟩ := ih h
      refine ⟨msg :: l, r, rfl, ?_, hack⟩
      rw [hseq, List.map_cons, span_cons]; omega

theorem TCPSender.sentAt_segments {m : TCPSenderMessage} (hm : 0 < m.sequenceLength)
    (pre post : List TCPSenderMessage) : SentAt (segments (pre ++ m :: post)) (span pre) m := by
  refine ⟨segments pre, segments post, ?_, span_segments pre⟩
  rw [segments_append]
  congr 1
  rw [segments, List.filter_cons, if_pos (decide_eq_true hm)]; rfl

theorem TCPSender.tick_out (s : TCPSender) (ms : Nat) :
    (s.tick ms).2 = [] ∨ ∃ front rest, s.msgQueue = front :: rest ∧ (s.tick ms).2 = [front] := by
  unfold TCPSender.tick
  split
  · exact .inl rfl
  next front rest hq =>
    dsimp only
    split
    · exact .inr ⟨front, rest, hq, rfl⟩
    · exact .inl rfl

theorem TCPPeer.sender_segments (p : TCPPeer) (ms : List TCPSenderMessage) :
    (ms.map p.segment).map (·.sender) = ms := by
  rw [List.map_map]
  exact List.map_id ms

/-- A push sends what the sender transmits. -/
theorem Host.push_eq (hp : g.push = some g') : ∃ sd ms, g.peer.sender.push = some (sd, ms) ∧
    g' = { g with
      peer := { g.peer with sender := sd, needSend := g.peer.needSend && ms.isEmpty }
      sent := g.sent ++ ms
      wire := g.wire ++ stamp g.ackAt (span g.sent) (ms.map g.peer.segment) } := by
  unfold Host.push TCPPeer.push at hp
  simp only [Option.map_map, Option.map_eq_some_iff, Function.comp_apply, TCPPeer.sendAll] at hp
  obtain ⟨⟨sd, ms⟩, hpush, rfl⟩ := hp
  refine ⟨sd, ms, hpush, ?_⟩
  rw [TCPPeer.sender_segments]
  rfl

/-- A read pops the inbound stream. -/
theorem Host.readBytes_eq {len : Nat} (hr : g.readBytes len = some g') : ∃ output,
    len ≤ g.peer.receiver.inbound.bytesBuffered ∧
    g.peer.receiver.inbound.pop len = some output ∧
    g' = { g with
      peer := { g.peer with
        receiver := { g.peer.receiver with
          reassembler := { g.peer.receiver.reassembler with output } } }
      read := g.read ++ g.peer.receiver.inbound.queued.take len } := by
  unfold Host.readBytes at hr
  dsimp only at hr
  split at hr
  next hlen =>
    obtain ⟨output, hpop, rfl⟩ := Option.map_eq_some_iff.1 hr
    exact ⟨output, hlen, hpop, rfl⟩
  next => cases hr

/-- What a host does to its own stream and to the wire. -/
structure HostInv (c : TCPConfig) (h : Host) : Prop where
  run : SenderRun c.sendCapacity c.isn c.rtTimeout.toNat h.peer.sender h.written h.sent h.cleared
  wire : ∀ pkt ∈ h.wire, 0 < pkt.msg.sender.sequenceLength →
    SentAt (segments h.sent) pkt.seqAt pkt.msg.sender

theorem HostInv.inv (h : HostInv c g) (hcap : c.sendCapacity < 2 ^ 64) :
    SenderInv c.isn g.written (segments g.sent) g.peer.sender := h.run.inv hcap

theorem HostInv.write (h : HostInv c g) (data : Bytes) : HostInv c (g.write data) :=
  ⟨h.run.write data, h.wire⟩

theorem HostInv.close (h : HostInv c g) : HostInv c g.close := ⟨h.run.close, h.wire⟩

theorem HostInv.push (h : HostInv c g) (hp : g.push = some g') : HostInv c g' := by
  obtain ⟨sd, ms, hpush, rfl⟩ := Host.push_eq hp
  refine ⟨h.run.push hpush, fun pkt hpkt hlen => ?_⟩
  dsimp only at hpkt ⊢
  rcases List.mem_append.1 hpkt with hpkt | hpkt
  · rw [segments_append]
    exact (h.wire pkt hpkt hlen).append _
  · obtain ⟨l, r, hout, hseq, -⟩ := Host.mem_stamp hpkt
    have := congrArg (List.map (·.sender)) hout
    rw [TCPPeer.sender_segments, List.map_append, List.map_cons] at this
    rw [this, hseq, ← span_append, ← List.append_assoc]
    exact sentAt_segments hlen _ _

theorem HostInv.tick (h : HostInv c g) (hcap : c.sendCapacity < 2 ^ 64) (ms : Nat) :
    HostInv c (g.tick ms) := by
  refine ⟨h.run.tick ms, fun pkt hpkt hlen => ?_⟩
  rcases List.mem_append.1 hpkt with hpkt | hpkt
  · exact h.wire pkt hpkt hlen
  · obtain ⟨l, r, hout, hseq, -⟩ := Host.mem_stamp hpkt
    have hi := h.inv hcap
    change (g.peer.sender.tick ms).2.map _ = _ at hout
    rcases g.peer.sender.tick_out ms with h0 | ⟨front, rest, hq, h1⟩
    · rw [h0] at hout; simp at hout
    · rw [h1] at hout
      cases l with
      | cons x l => simp at hout
      | nil =>
        obtain ⟨hm, -⟩ := List.cons.inj hout
        rw [← hm] at hlen ⊢
        have hq' : g.peer.sender.msgQueue = [] ++ front :: rest := hq
        obtain ⟨q, -, -, -, hpos⟩ := hi.position hq'
        obtain ⟨hat, htotal⟩ := hpos hlen
        have hB := hi.inFlight
        rw [hq] at hB
        rw [span_segments] at htotal
        have : pkt.seqAt = q := by
          rw [hseq, List.map_nil, span_nil]; omega
        rw [this]
        exact hat

theorem HostInv.read {len : Nat} (h : HostInv c g) (hr : g.readBytes len = some g') :
    HostInv c g' := by
  obtain ⟨o, -, -, rfl⟩ := Host.readBytes_eq hr
  exact ⟨h.run, h.wire⟩

theorem Host.receive_leaves (hr : g.receive pkt = some g') : ∃ p' out,
    (g.peer.receive pkt.msg).Leaves (p', out) ∧ g' = g.received pkt p' out := by
  unfold Host.receive at hr
  split at hr
  next p' out heq => cases hr; exact ⟨p', out, .inl heq, rfl⟩
  next e p' out heq => cases hr; exact ⟨p', out, .inr ⟨e, heq⟩, rfl⟩
  next => cases hr

theorem HostInv.receive (h : HostInv c g) (hr : g.receive pkt = some g') : HostInv c g' := by
  obtain ⟨p', out, hl, rfl⟩ := Host.receive_leaves hr
  have hsame : p'.sender = g.peer.sender → SenderRun c.sendCapacity c.isn c.rtTimeout.toNat p'.sender
      g.written g.sent (g.received pkt p' out).cleared := by
    intro heq
    unfold Host.received
    dsimp only
    rw [heq, Nat.sub_self, List.take_zero, List.map_nil, List.append_nil]
    exact h.run
  refine ⟨?_, fun q hq hlen => ?_⟩
  · rcases TCPPeer.receive_cases hl with ⟨-, rfl, -⟩ | ⟨-, -, heq | hrec, -⟩
    · exact hsame rfl
    · exact hsame heq
    · exact h.run.receive _ hrec
  · rcases List.mem_append.1 hq with hq | hq
    · exact h.wire q hq hlen
    · obtain ⟨l, r, hout, -, -⟩ := Host.mem_stamp hq
      rcases TCPPeer.receive_cases hl with ⟨-, -, h0⟩ | ⟨-, -, -, h0 | h1⟩
      · rw [h0] at hout; simp at hout
      · rw [h0] at hout; simp at hout
      · rw [h1] at hout
        cases l with
        | cons x l => simp at hout
        | nil =>
          obtain ⟨hm, -⟩ := List.cons.inj hout
          rw [← hm] at hlen
          exact absurd hlen (Nat.lt_irrefl 0)

/-! ### From one host to the other -/

/-- What the host `h` has received is the stream written to `g`, which ends where `h` says it does. -/
structure Link (isn : Wrap32) (g h : Host) : Prop where
  delivers : Delivers isn g.written h.peer.receiver h.read
  last : h.peer.receiver.reassembler.seenLast = true → g.peer.sender.finQueued = true

/-- What a step may do to the sending side of a host. -/
structure Host.Grows (g g' : Host) : Prop where
  written : ∃ xs, g'.written = g.written ++ xs ∧ (g.peer.sender.finQueued = true → xs = [])
  fin : g.peer.sender.finQueued = true → g'.peer.sender.finQueued = true
  sent : ∃ ms, g'.sent = g.sent ++ ms

theorem Link.grows (h : Link isn g h') (hg : Host.Grows g g') : Link isn g' h' := by
  obtain ⟨xs, hw, hnil⟩ := hg.written
  refine ⟨?_, fun hs => hg.fin (h.last hs)⟩
  rw [hw]
  cases hs : h'.peer.receiver.reassembler.seenLast with
  | true =>
    rw [hnil (h.last hs), List.append_nil]
    exact h.delivers
  | false => exact h.delivers.append hs xs

theorem Host.Grows.refl (g : Host) : Host.Grows g g :=
  ⟨⟨[], by rw [List.append_nil], fun _ => rfl⟩, id, ⟨[], by rw [List.append_nil]⟩⟩

theorem HostInv.grows_write (h : HostInv c g) (hcap : c.sendCapacity < 2 ^ 64) (data : Bytes) :
    Host.Grows g (g.write data) := by
  have hi := h.inv hcap
  refine ⟨⟨_, rfl, fun hq => ?_⟩, id, ⟨[], by rw [List.append_nil]; rfl⟩⟩
  have hc := ((isFinished_iff hi.ready.stream).1 (hi.ready.finished hq).1).1
  rw [taken, if_pos hc]

theorem TCPSender.Sends.finQueued {sd sd' : TCPSender} {ms : List TCPSenderMessage}
    (hs : Sends sd ms sd') (hq : sd.finQueued = true) : sd'.finQueued = true := by
  induction hs with
  | nil => exact hq
  | snoc _ ht ih => rw [ht.state]; simp only [ih, Bool.true_or]

theorem HostInv.grows_push (h : HostInv c g) (hcap : c.sendCapacity < 2 ^ 64)
    (hp : g.push = some g') : Host.Grows g g' ∧ g'.peer.receiver = g.peer.receiver ∧
      g'.read = g.read := by
  obtain ⟨sd, ms, hpush, rfl⟩ := Host.push_eq hp
  exact ⟨⟨⟨[], (List.append_nil _).symm, fun _ => rfl⟩,
    ((h.inv hcap).ready.push_sends hpush).finQueued, ⟨_, rfl⟩⟩, rfl, rfl⟩

theorem Host.grows_read {len : Nat} (hr : g.readBytes len = some g') : Host.Grows g g' := by
  obtain ⟨o, -, -, rfl⟩ := Host.readBytes_eq hr
  exact ⟨⟨[], (List.append_nil _).symm, fun _ => rfl⟩, id, ⟨[], (List.append_nil _).symm⟩⟩

theorem Host.grows_tick (g : Host) (ms : Nat) : Host.Grows g (g.tick ms) := by
  refine ⟨⟨[], (List.append_nil _).symm, fun _ => rfl⟩, fun hq => ?_, ⟨[], (List.append_nil _).symm⟩⟩
  obtain ⟨t, n, heq⟩ := tick_eq g.peer.sender ms
  show (g.peer.sender.tick ms).1.finQueued = true
  rw [heq]; exact hq

theorem HostInv.grows_receive (h : HostInv c g) (hcap : c.sendCapacity < 2 ^ 64)
    (hr : g.receive pkt = some g') : Host.Grows g g' := by
  obtain ⟨p', out, hl, rfl⟩ := Host.receive_leaves hr
  refine ⟨⟨[], (List.append_nil _).symm, fun _ => rfl⟩, fun hq => ?_, ⟨[], (List.append_nil _).symm⟩⟩
  show p'.sender.finQueued = true
  rcases TCPPeer.receive_cases hl with ⟨-, rfl, -⟩ | ⟨-, -, heq | hrec, -⟩
  · exact hq
  · rw [heq]; exact hq
  · have hi := h.inv hcap
    obtain ⟨gone, ha⟩ := receive_acks hi.inFlight hi.inFlight_lt hrec
    rw [ha.state, noteWindow_eq]; exact hq

/-- A packet that is harmless where it is delivered. -/
def DeliverSafe (h : Host) (pkt : Packet) : Prop :=
  h.peer.active = true → PayloadSafe h.peer.receiver pkt.seqAt pkt.msg.sender ∧
    FinSafe h.peer.receiver pkt.seqAt pkt.msg.sender

instance (h : Host) (pkt : Packet) : Decidable (DeliverSafe h pkt) :=
  inferInstanceAs (Decidable (_ → _ ∧ _))

theorem Link.receive (hlink : Link c.isn g h) (hg : HostInv c g) (hcap : c.sendCapacity < 2 ^ 64)
    (hD : g.written.length < 2 ^ 63) (hpkt : pkt ∈ g.wire) (hok : DeliverSafe h pkt)
    (hr : h.receive pkt = some h') : Link c.isn g h' := by
  obtain ⟨p', out, hl, rfl⟩ := Host.receive_leaves hr
  rcases TCPPeer.receive_cases hl with ⟨-, rfl, -⟩ | ⟨ha, hrec, -⟩
  · exact ⟨hlink.delivers, hlink.last⟩
  · have hi := hg.inv hcap
    have hplaced : 0 < pkt.msg.sender.sequenceLength → _ := fun hm =>
      hi.placed _ _ (hg.wire pkt hpkt hm)
    obtain ⟨hp, hf⟩ := hok ha
    obtain ⟨hd, hs⟩ := hlink.delivers.receive hD (fun hm => (hplaced hm).wellFormed) hp hf hrec
    refine ⟨hd, fun hlast => ?_⟩
    rcases hs hlast with hs | hF
    · exact hlink.last hs
    · refine ((hplaced ?_).last hF).1
      rw [TCPSenderMessage.sequenceLength, hF, Bool.toNat_true]; omega

theorem Link.read {len : Nat} (hlink : Link isn g h) (hr : h.readBytes len = some h') :
    Link isn g h' := by
  obtain ⟨o, hlen, hpop, rfl⟩ := Host.readBytes_eq hr
  exact ⟨hlink.delivers.pop (hlink.delivers.stream.popped hlen hpop), hlink.last⟩

/-! ### Runs -/

structure NetInv (cfg : Side → TCPConfig) (s : Net) : Prop where
  host : ∀ x, HostInv (cfg x) (s x)
  link : ∀ x, Link (cfg x.other).isn (s x.other) (s x)

theorem Side.other_other (x : Side) : x.other.other = x := by cases x <;> rfl

theorem Side.other_ne (x : Side) : x.other ≠ x := by cases x <;> simp [Side.other]

theorem Side.eq_or (x y : Side) : y = x ∨ y = x.other := by cases x <;> cases y <;> simp [Side.other]

theorem Net.set_self (s : Net) (x : Side) (h : Host) : s.set x h x = h := if_pos rfl

theorem Net.set_other (s : Net) (x : Side) (h : Host) : s.set x h x.other = s x.other :=
  if_neg x.other_ne

/-- A step changes one host. -/
theorem NetInv.set (hi : NetInv cfg s) {x : Side} (hh : HostInv (cfg x) h)
    (hg : Host.Grows (s x) h) (hl : Link (cfg x.other).isn (s x.other) h) :
    NetInv cfg (s.set x h) := by
  refine ⟨fun y => ?_, fun y => ?_⟩
  · rcases x.eq_or y with rfl | rfl
    · rw [Net.set_self]; exact hh
    · rw [Net.set_other]; exact hi.host _
  · rcases x.eq_or y with rfl | rfl
    · rw [Net.set_self, Net.set_other]; exact hl
    · have := hi.link x.other
      rw [Side.other_other] at this ⊢
      rw [Net.set_self, Net.set_other]
      exact this.grows hg

theorem NetInv.start (hrecv : ∀ x, (cfg x).recvCapacity < 2 ^ 64) : NetInv cfg (.start cfg) := by
  refine ⟨fun x => ⟨.start, fun pkt h => by cases h⟩, fun x => ⟨?_, fun h => by cases h⟩⟩
  exact delivers_ofReassembler (hrecv x) _

/-- One step, of a network whose deliveries are safe. -/
theorem NetInv.step (hi : NetInv cfg s) (hcap : ∀ x, (cfg x).sendCapacity < 2 ^ 64)
    (hD : ∀ x, (s x).written.length < 2 ^ 63) {act : Action}
    (hok : ∀ x i, act = .deliver x i → ∀ pkt ∈ (s x.other).wire[i]?, DeliverSafe (s x) pkt)
    (hs : s.step act = some s') : NetInv cfg s' := by
  cases act with
  | write x data =>
    cases hs
    exact hi.set ((hi.host x).write data) ((hi.host x).grows_write (hcap x) data)
      ⟨(hi.link x).delivers, (hi.link x).last⟩
  | close x =>
    cases hs
    have hr := Host.Grows.refl (s x)
    exact hi.set (hi.host x).close ⟨hr.written, hr.fin, hr.sent⟩
      ⟨(hi.link x).delivers, (hi.link x).last⟩
  | read x len =>
    obtain ⟨h, hr, rfl⟩ := Option.map_eq_some_iff.1 hs
    exact hi.set ((hi.host x).read hr) (Host.grows_read hr) ((hi.link x).read hr)
  | push x =>
    obtain ⟨h, hp, rfl⟩ := Option.map_eq_some_iff.1 hs
    obtain ⟨hg, hrecv, hread⟩ := (hi.host x).grows_push (hcap x) hp
    refine hi.set ((hi.host x).push hp) hg ⟨?_, ?_⟩
    · rw [hrecv, hread]; exact (hi.link x).delivers
    · rw [hrecv]; exact (hi.link x).last
  | tick x ms =>
    cases hs
    exact hi.set ((hi.host x).tick (hcap x) ms) ((s x).grows_tick ms)
      ⟨(hi.link x).delivers, (hi.link x).last⟩
  | deliver x i =>
    obtain ⟨pkt, hpkt, hs⟩ := Option.bind_eq_some_iff.1 hs
    obtain ⟨h, hr, rfl⟩ := Option.map_eq_some_iff.1 hs
    exact hi.set ((hi.host x).receive hr) ((hi.host x).grows_receive (hcap x) hr)
      ((hi.link x).receive (hi.host x.other) (hcap _) (hD _) (List.mem_of_getElem? hpkt)
        (hok x i rfl pkt hpkt) hr)

/-- No step takes back what was written. -/
theorem Net.step_written {act : Action} (hs : s.step act = some s') (y : Side) :
    (s y).written <+: (s' y).written := by
  have hset : ∀ {x : Side} {h : Host}, (s x).written <+: h.written →
      (s y).written <+: (s.set x h y).written := by
    intro x h hle
    rcases x.eq_or y with rfl | rfl
    · rw [Net.set_self]; exact hle
    · rw [Net.set_other]
  cases act with
  | write x data => cases hs; exact hset (List.prefix_append _ _)
  | close x => cases hs; exact hset (List.prefix_refl _)
  | read x len =>
    obtain ⟨h, hr, rfl⟩ := Option.map_eq_some_iff.1 hs
    obtain ⟨xs, hw, -⟩ := (Host.grows_read hr).written
    exact hset ⟨xs, hw.symm⟩
  | push x =>
    obtain ⟨h, hp, rfl⟩ := Option.map_eq_some_iff.1 hs
    obtain ⟨q, -, rfl⟩ := Option.map_eq_some_iff.1 hp
    exact hset (List.prefix_refl _)
  | tick x ms => cases hs; exact hset (List.prefix_refl _)
  | deliver x i =>
    obtain ⟨pkt, hpkt, hs⟩ := Option.bind_eq_some_iff.1 hs
    obtain ⟨h, hr, rfl⟩ := Option.map_eq_some_iff.1 hs
    obtain ⟨p', out, -, rfl⟩ := Host.receive_leaves hr
    exact hset (List.prefix_refl _)

/-- So a bound on what has been written has held before. -/
theorem Net.written_lt {act : Action} {n : Nat} (hs : s.step act = some s')
    (h : ∀ x, (s' x).written.length < n) (x : Side) : (s x).written.length < n :=
  Nat.lt_of_le_of_lt (Net.step_written hs x).length_le (h x)

/-- A whole run, of a network whose deliveries are safe. -/
theorem NetRun.inv (hrun : NetRun cfg DeliverSafe s) (hsend : ∀ x, (cfg x).sendCapacity < 2 ^ 64)
    (hrecv : ∀ x, (cfg x).recvCapacity < 2 ^ 64) (hD : ∀ x, (s x).written.length < 2 ^ 63) :
    NetInv cfg s := by
  induction hrun with
  | start => exact .start hrecv
  | @step s s' act _ hok hs ih =>
    have hD' := Net.written_lt hs hD
    exact (ih hD').step hsend hD' hok hs

/-- What `x` has accepted is a prefix of what was written at the other side, and all of it, of a
closed stream, once its own inbound stream is closed. -/
def Net.Delivered (s : Net) (x : Side) : Prop :=
  (s x).read ++ (s x).peer.receiver.inbound.queued <+: (s x.other).written ∧
    ((s x).peer.receiver.inbound.isClosed = true →
      (s x.other).peer.sender.input.isClosed = true ∧
        (s x).read ++ (s x).peer.receiver.inbound.queued = (s x.other).written)

instance (s : Net) (x : Side) : Decidable (s.Delivered x) :=
  inferInstanceAs (Decidable (_ ∧ (_ → _ ∧ _)))

theorem delivered_of_safe (hrun : NetRun cfg DeliverSafe s)
    (hsend : ∀ x, (cfg x).sendCapacity < 2 ^ 64) (hrecv : ∀ x, (cfg x).recvCapacity < 2 ^ 64)
    (hD : ∀ x, (s x).written.length < 2 ^ 63) (x : Side) : s.Delivered x := by
  have hi := hrun.inv hsend hrecv hD
  have hlink := hi.link x
  refine ⟨hlink.delivers.le_stream, fun hc => ?_⟩
  obtain ⟨hs, hall, -⟩ := hlink.delivers.closed hc
  have hg := (hi.host x.other).inv (hsend _)
  have hfin := (hg.ready.finished (hlink.last hs)).1
  exact ⟨((isFinished_iff hg.ready.stream).1 hfin).1, hall⟩

/-- Three segments in the order 1, 3, 2, the third once more, and then the FIN. -/
theorem delivered_of_safe_reordered :
    ∃ s, NetRun (fun _ => ⟨10, 4, 4, ⟨0⟩⟩) DeliverSafe s ∧
      ((s .a).written = [1, 2, 3] ∧ (s .b).peer.receiver.inbound.isClosed = true) ∧
        s.Delivered .b := by
  have h : ∃ s, NetRun (fun _ => ⟨10, 4, 4, ⟨0⟩⟩) DeliverSafe s ∧ (s .a).written = [1, 2, 3] ∧
      (s .b).peer.receiver.inbound.isClosed = true ∧ (s .b).written = [] := NetRun.exists_of_runs
    [.push .b, .deliver .a 0, .write .a [1], .push .a, .write .a [2], .push .a, .write .a [3],
      .push .a, .close .a, .deliver .b 1, .deliver .b 3, .deliver .b 2, .deliver .b 3,
      .deliver .a 3, .push .a, .read .b 2, .deliver .b 4] (by decide)
  obtain ⟨s, hrun, hw, hc, hlen⟩ := h
  refine ⟨s, hrun, ⟨hw, hc⟩, delivered_of_safe hrun (by simp) (by simp) (fun x => ?_) .b⟩
  cases x
  · rw [hw]; decide
  · rw [hlen]; decide

/-- The bare FIN overtakes the byte before it, and closes the stream without it. -/
theorem delivered_fails :
    ∃ s, NetRun (fun _ => ⟨10, 4, 4, ⟨0⟩⟩) (fun _ _ => True) s ∧ ¬ s.Delivered .b :=
  NetRun.exists_of_runs
    [.push .a, .deliver .b 0, .deliver .a 0, .write .a [1], .push .a, .close .a, .push .a,
      .deliver .b 2] (by decide)

end Minnow
