import Minnow.NetDelivery
import Minnow.ReceiverCount

/-!
# End to end: what is acknowledged has been delivered

A host acknowledges no more than its inbound stream has accepted (`Acking`), so the other host takes
nothing off its queue that has not arrived (`Held`, `accounted_of_safe`). A FIN that is counted before
the data in front of it is there acknowledges a byte too many (`accounted_fails`).
-/

namespace Minnow
open Prog TCPSender TCPReceiver ByteStream

variable {g g' h h' : Host} {pkt : Packet} {cfg : Side → TCPConfig} {c : TCPConfig} {s s' : Net}
  {isn w : Wrap32} {n : Nat}

/-! ### What an acknowledgment removes -/

namespace TCPSender

variable {t t' : TCPSender} {D : Bytes} {sent done ms : List TCPSenderMessage} {m : TCPSenderMessage}
  {msg : TCPReceiverMessage}

/-- A test that takes a message off the queue finds, in 32 bits, the end of that message or the end
of all that is in flight. -/
theorem Acknowledges.ackno_eq {p inFlight : Nat} (h : t.Acknowledges w m inFlight)
    (hseq : m.seqno = .wrap p t.isn) :
    w = .wrap (p + m.sequenceLength) t.isn ∨ w = .wrap (p + inFlight) t.isn := by
  have hu := Wrap32.wrap_unwrap m.seqno t.isn t.input.bytesPushed
  have hw := Wrap32.wrap_unwrap w t.isn t.input.bytesPushed
  rw [hseq, Wrap32.wrap, Wrap32.wrap, Wrap32.add_eq_add_iff] at hu
  have hend : ∀ {l : Nat}, add64 (m.seqno.unwrap t.isn t.input.bytesPushed) l =
      w.unwrap t.isn t.input.bytesPushed → w = .wrap (p + l) t.isn := by
    intro l hl
    rw [← hw, ← hl, Wrap32.wrap, Wrap32.wrap, Wrap32.add_eq_add_iff, add64, hseq, Wrap32.wrap]
    omega
  exact h.imp hend hend

/-- What an `ackno` removes ends at or before the number it stands for, if it stands for that number
wherever it is the end of a queued message. -/
theorem SenderInv.removed (h : SenderInv isn D (segments sent) t)
    (hsent : sent = done ++ t.msgQueue) (hr : t.receive msg = .ok t')
    (hfresh : ∀ k < t.msgQueue.length,
      msg.ackno = some (.wrap (span sent - span (t.msgQueue.drop (k + 1))) isn) →
        span sent - span (t.msgQueue.drop (k + 1)) ≤ n) :
    ∃ gone, t.msgQueue = gone ++ t'.msgQueue ∧
      (span gone = 0 ∨ msg.ackno.isSome = true ∧ span (done ++ gone) ≤ n) := by
  obtain ⟨gone, ha⟩ := receive_acks h.inFlight h.inFlight_lt hr
  refine ⟨gone, ha.queue, ?_⟩
  refine (span_eq_zero_or_split gone).imp_right ?_
  rintro ⟨pre, m, post, hg, hm, hpost⟩
  obtain ⟨w, hw, htest⟩ := ha.tests pre m post hg
  refine ⟨by rw [hw]; rfl, ?_⟩
  have hq : t.msgQueue = pre ++ m :: (post ++ t'.msgQueue) := by rw [ha.queue, hg]; simp
  obtain ⟨p, hseq, -, -, hpos⟩ := h.position hq
  have htotal := (hpos hm).2
  rw [span_segments, hsent, hq] at htotal
  have hB := h.inFlight
  rw [hq] at hB
  simp only [span_append, span_cons, hpost] at htotal hB
  have hspan : span sent = span done + span t.msgQueue := by rw [hsent, span_append]
  have hgone : span (done ++ gone) = p + m.sequenceLength := by
    rw [hg]; simp only [span_append, span_cons, hpost]; omega
  rw [hw] at hfresh
  have hor := htest.ackno_eq (by rw [noteWindow_isn, hseq, h.origin])
  rw [noteWindow_isn, noteWindow_inFlight, h.origin] at hor
  rcases hor with rfl | rfl
  · -- the end of the message itself
    have hend : span sent - span (t.msgQueue.drop (pre.length + 1)) = p + m.sequenceLength := by
      have hdrop : t.msgQueue.drop (pre.length + 1) = post ++ t'.msgQueue := by
        rw [hq, ← List.drop_drop, List.drop_left]; rfl
      rw [hdrop, hspan, hq]
      simp only [span_append, span_cons, hpost]; omega
    have := hfresh pre.length (by rw [hq]; simp) (by rw [hend])
    omega
  · -- the end of everything
    have hlen : 0 < t.msgQueue.length := by rw [hq, List.length_append, List.length_cons]; omega
    have hend : span sent - span (t.msgQueue.drop (t.msgQueue.length - 1 + 1)) =
        p + (t.bytesInQueue - span pre) := by
      rw [Nat.sub_add_cancel hlen, List.drop_length, span_nil, hspan, hq]
      simp only [span_append, span_cons, hpost]; omega
    have := hfresh (t.msgQueue.length - 1) (by omega) (by rw [hend])
    omega

end TCPSender

/-! ### The hosts -/

/-- The `ackno` does not come from so long ago that 32 bits mistake it for the end of a message still
in the queue. -/
def AckFresh (h : Host) (pkt : Packet) : Prop :=
  ∀ k < h.peer.sender.msgQueue.length,
    pkt.msg.receiver.ackno = some (.wrap (span h.sent - span (h.peer.sender.msgQueue.drop (k + 1)))
      h.peer.sender.isn) →
    span h.sent - span (h.peer.sender.msgQueue.drop (k + 1)) ≤ pkt.ackAt

instance (h : Host) (pkt : Packet) : Decidable (AckFresh h pkt) :=
  inferInstanceAs (Decidable (∀ _ < _, _ → _))

/-- A packet that can neither spoil the inbound stream nor be mistaken in what it acknowledges. -/
def LossSafe (h : Host) (pkt : Packet) : Prop :=
  DeliverSafe h pkt ∧ (h.peer.active = true →
    FinTimely h.peer.receiver pkt.seqAt pkt.msg.sender ∧ AckFresh h pkt)

instance (h : Host) (pkt : Packet) : Decidable (LossSafe h pkt) :=
  inferInstanceAs (Decidable (_ ∧ (_ → _ ∧ _)))

/-- The largest absolute number that `h` may acknowledge. -/
def Host.ackLimit (h : Host) : Nat :=
  1 + h.peer.receiver.inbound.totalPushed + h.peer.receiver.inbound.isClosed.toNat

/-- What `h` has acknowledged so far and will acknowledge next. -/
structure Acking (isn : Wrap32) (h : Host) : Prop where
  counts : Counts isn h.peer.receiver h.ackAt
  wire : ∀ pkt ∈ h.wire, ∀ w ∈ pkt.msg.receiver.ackno, w = .wrap pkt.ackAt isn ∧
    pkt.ackAt ≤ h.ackLimit

/-- What `g` has transmitted is still queued, or within what `h` may acknowledge. -/
structure Held (g h : Host) : Prop where
  sent : g.sent = g.cleared.map Prod.fst ++ g.peer.sender.msgQueue
  acked : span (g.cleared.map Prod.fst) ≤ h.ackLimit

theorem Held.mono (hh : Held g h) (hle : h.ackLimit ≤ h'.ackLimit) : Held g h' :=
  ⟨hh.sent, hh.acked.trans hle⟩

/-- New packets carry what the receiver sends at that time. -/
theorem Acking.emit {q : Nat} {out : List TCPMessage} (hg : Acking isn g)
    (hcounts : Counts isn h.peer.receiver h.ackAt) (hle : g.ackLimit ≤ h.ackLimit)
    (hwire : h.wire = g.wire ++ Host.stamp h.ackAt q out)
    (hout : ∀ msg ∈ out, msg.receiver = h.peer.receiver.send) : Acking isn h := by
  refine ⟨hcounts, fun pkt hpkt w hw => ?_⟩
  rw [hwire] at hpkt
  rcases List.mem_append.1 hpkt with hpkt | hpkt
  · obtain ⟨heq, hle'⟩ := hg.wire pkt hpkt w hw
    exact ⟨heq, hle'.trans hle⟩
  · obtain ⟨l, r, hsplit, -, hack⟩ := Host.mem_stamp hpkt
    have hmem : pkt.msg ∈ out := by rw [hsplit]; simp
    rw [hout _ hmem] at hw
    rw [hack]
    exact hcounts.ackno hw

theorem Acking.read {len : Nat} (ha : Acking isn g) (hw : g.peer.receiver.inbound.Wf)
    (hr : g.readBytes len = some g') : Acking isn g' ∧ g.ackLimit = g'.ackLimit := by
  obtain ⟨o, hlen, hpop, rfl⟩ := Host.readBytes_eq hr
  have hp := hw.popped hlen hpop
  have hle : g.ackLimit = 1 + o.totalPushed + o.isClosed.toNat := by
    rw [hp.totalPushed, hp.isClosed]; rfl
  exact ⟨⟨ha.counts.pop hp, fun pkt hpkt w hw =>
    (ha.wire pkt hpkt w hw).imp_right fun h => h.trans_eq hle⟩, hle⟩

theorem Held.read {len : Nat} (hh : Held g h) (hr : g.readBytes len = some g') : Held g' h := by
  obtain ⟨o, -, -, rfl⟩ := Host.readBytes_eq hr
  exact ⟨hh.sent, hh.acked⟩

theorem Acking.push (ha : Acking isn g) (hp : g.push = some g') :
    Acking isn g' ∧ g.ackLimit = g'.ackLimit := by
  obtain ⟨sd, ms, -, rfl⟩ := Host.push_eq hp
  refine ⟨ha.emit ha.counts (Nat.le_refl _) rfl fun msg hmsg => ?_, rfl⟩
  obtain ⟨m, -, rfl⟩ := List.mem_map.1 hmsg
  rfl

theorem Held.push (hh : Held g h) (hg : HostInv c g) (hcap : c.sendCapacity < 2 ^ 64)
    (hp : g.push = some g') : Held g' h := by
  obtain ⟨sd, ms, hpush, rfl⟩ := Host.push_eq hp
  refine ⟨?_, hh.acked⟩
  show g.sent ++ ms = _ ++ sd.msgQueue
  rw [((hg.inv hcap).ready.push_sends hpush).queue, hh.sent, List.append_assoc]

theorem Acking.tick (ha : Acking isn g) (ms : Nat) : Acking isn (g.tick ms) := by
  refine ha.emit ha.counts (Nat.le_refl _) rfl fun msg hmsg => ?_
  obtain ⟨m, -, rfl⟩ := List.mem_map.1 hmsg
  rfl

theorem Held.tick (hh : Held g h) (ms : Nat) : Held (g.tick ms) h := by
  obtain ⟨t, n, heq⟩ := tick_eq g.peer.sender ms
  refine ⟨?_, hh.acked⟩
  show g.sent = _ ++ (g.peer.sender.tick ms).1.msgQueue
  rw [heq]; exact hh.sent

/-- A delivery, at the receiver. -/
theorem Acking.receive (ha : Acking c.isn h) (hlink : Link c.isn g h) (hg : HostInv c g)
    (hcap : c.sendCapacity < 2 ^ 64) (hD : g.written.length < 2 ^ 63) (hpkt : pkt ∈ g.wire)
    (hok : LossSafe h pkt) (hr : h.receive pkt = some h') :
    Acking c.isn h' ∧ h.ackLimit ≤ h'.ackLimit := by
  obtain ⟨p', out, hl, rfl⟩ := Host.receive_leaves hr
  have hplaced : 0 < pkt.msg.sender.sequenceLength → _ := fun hm =>
    (hg.inv hcap).placed _ _ (hg.wire pkt hpkt hm)
  rcases TCPPeer.receive_cases hl with ⟨hact, rfl, rfl⟩ | ⟨hact, hrec, -, hout⟩
  · refine ⟨ha.emit ?_ (Nat.le_refl _) rfl (by simp), Nat.le_refl _⟩
    show Counts _ _ (h.ackAfter _ _)
    rw [Host.ackAfter, hact]
    exact ha.counts
  · obtain ⟨hp, hf⟩ := hok.1 hact
    have hc := ha.counts.receive hlink.delivers hD (fun hm => (hplaced hm).wellFormed) hp hf
      (hok.2 hact).1 hrec
    have hmono : h.ackLimit ≤ (h.received pkt p' out).ackLimit := by
      have h1 := (receive_stream hrec).2
      have h2 := receive_isClosed hrec
      show 1 + _ + _ ≤ 1 + p'.receiver.inbound.totalPushed + p'.receiver.inbound.isClosed.toNat
      cases hcl : h.peer.receiver.inbound.isClosed with
      | true => rw [h2 hcl]; omega
      | false => rw [Bool.toNat_false]; omega
    refine ⟨ha.emit ?_ hmono rfl fun msg hmsg => ?_, hmono⟩
    · show Counts _ _ (h.ackAfter _ _)
      rw [Host.ackAfter, hact]
      exact hc
    · rcases hout with rfl | rfl
      · cases hmsg
      · rw [List.mem_singleton.1 hmsg]; rfl

/-- A delivery, at the sender. -/
theorem Held.receive (hh : Held g h) (hg : HostInv c g) (hcap : c.sendCapacity < 2 ^ 64)
    (ha : Acking c.isn h) (hpkt : pkt ∈ h.wire) (hok : LossSafe g pkt)
    (hr : g.receive pkt = some g') : Held g' h := by
  obtain ⟨p', out, hl, rfl⟩ := Host.receive_leaves hr
  have hi := hg.inv hcap
  suffices hgone : ∃ gone, g.peer.sender.msgQueue = gone ++ p'.sender.msgQueue ∧
      span (g.cleared.map Prod.fst ++ gone) ≤ h.ackLimit by
    obtain ⟨gone, hq, hle⟩ := hgone
    have htake : g.peer.sender.msgQueue.take
        (g.peer.sender.msgQueue.length - p'.sender.msgQueue.length) = gone := by
      rw [hq, List.length_append, Nat.add_sub_cancel]; exact List.take_left
    have hcleared : (g.received pkt p' out).cleared.map Prod.fst =
        g.cleared.map Prod.fst ++ gone := by
      unfold Host.received
      dsimp only
      rw [htake, List.map_append, List.map_map]
      exact congrArg _ (List.map_id gone)
    refine ⟨?_, hcleared ▸ hle⟩
    rw [hcleared, List.append_assoc]
    show g.sent = _ ++ (gone ++ p'.sender.msgQueue)
    rw [← hq]; exact hh.sent
  have hsame : p'.sender = g.peer.sender → ∃ gone, g.peer.sender.msgQueue =
      gone ++ p'.sender.msgQueue ∧ span (g.cleared.map Prod.fst ++ gone) ≤ h.ackLimit := by
    intro heq
    exact ⟨[], by rw [heq]; rfl, by rw [List.append_nil]; exact hh.acked⟩
  rcases TCPPeer.receive_cases hl with ⟨-, rfl, -⟩ | ⟨hact, -, heq | hrec, -⟩
  · exact hsame rfl
  · exact hsame heq
  · have hfresh := (hok.2 hact).2
    unfold AckFresh at hfresh
    rw [hi.origin] at hfresh
    obtain ⟨gone, hq, hle⟩ := hi.removed hh.sent hrec hfresh
    refine ⟨gone, hq, ?_⟩
    rcases hle with h0 | ⟨hs, hle⟩
    · rw [span_append, h0]; exact hh.acked
    · obtain ⟨w, hw⟩ := Option.isSome_iff_exists.1 hs
      exact hle.trans (ha.wire pkt hpkt w hw).2

/-! ### Runs -/

structure NetAcks (cfg : Side → TCPConfig) (s : Net) : Prop where
  acking : ∀ x, Acking (cfg x.other).isn (s x)
  held : ∀ x, Held (s x) (s x.other)

theorem NetAcks.set (hi : NetAcks cfg s) {x : Side}
    (ha : Acking (cfg x.other).isn h ∧ (s x).ackLimit ≤ h.ackLimit) (hh : Held h (s x.other)) :
    NetAcks cfg (s.set x h) := by
  refine ⟨fun y => ?_, fun y => ?_⟩
  · rcases x.eq_or y with rfl | rfl
    · rw [Net.set_self]; exact ha.1
    · rw [Net.set_other]; exact hi.acking _
  · rcases x.eq_or y with rfl | rfl
    · rw [Net.set_self, Net.set_other]; exact hh
    · have := hi.held x.other
      rw [Side.other_other] at this ⊢
      rw [Net.set_self, Net.set_other]
      exact this.mono ha.2

theorem NetAcks.start : NetAcks cfg (.start cfg) :=
  ⟨fun _ => ⟨counts_ofReassembler _ _, fun pkt h => by cases h⟩, fun _ => ⟨rfl, Nat.zero_le _⟩⟩

/-- One step, of a network whose deliveries are safe. -/
theorem NetAcks.step (hi : NetAcks cfg s) (hn : NetInv cfg s)
    (hcap : ∀ x, (cfg x).sendCapacity < 2 ^ 64) (hD : ∀ x, (s x).written.length < 2 ^ 63)
    {act : Action}
    (hok : ∀ x i, act = .deliver x i → ∀ pkt ∈ (s x.other).wire[i]?, LossSafe (s x) pkt)
    (hs : s.step act = some s') : NetAcks cfg s' := by
  cases act with
  | write x data =>
    cases hs
    have ha := hi.acking x
    have hh := hi.held x
    exact hi.set ⟨⟨ha.counts, ha.wire⟩, Nat.le_refl _⟩ ⟨hh.sent, hh.acked⟩
  | close x =>
    cases hs
    have ha := hi.acking x
    have hh := hi.held x
    exact hi.set ⟨⟨ha.counts, ha.wire⟩, Nat.le_refl _⟩ ⟨hh.sent, hh.acked⟩
  | read x len =>
    obtain ⟨h, hr, rfl⟩ := Option.map_eq_some_iff.1 hs
    exact hi.set (((hi.acking x).read (hn.link x).delivers.stream hr).imp_right Eq.le)
      ((hi.held x).read hr)
  | push x =>
    obtain ⟨h, hp, rfl⟩ := Option.map_eq_some_iff.1 hs
    exact hi.set (((hi.acking x).push hp).imp_right Eq.le) ((hi.held x).push (hn.host x) (hcap x) hp)
  | tick x ms =>
    cases hs
    exact hi.set ⟨(hi.acking x).tick ms, Nat.le_refl _⟩ ((hi.held x).tick ms)
  | deliver x i =>
    obtain ⟨pkt, hpkt, hs⟩ := Option.bind_eq_some_iff.1 hs
    obtain ⟨h, hr, rfl⟩ := Option.map_eq_some_iff.1 hs
    have hmem := List.mem_of_getElem? hpkt
    have hsafe := hok x i rfl pkt hpkt
    have hack := hi.acking x.other
    rw [Side.other_other] at hack
    exact hi.set ((hi.acking x).receive (hn.link x) (hn.host x.other) (hcap _) (hD _) hmem hsafe hr)
      ((hi.held x).receive (hn.host x) (hcap _) hack hmem hsafe hr)

theorem NetRun.acks (hrun : NetRun cfg LossSafe s) (hsend : ∀ x, (cfg x).sendCapacity < 2 ^ 64)
    (hrecv : ∀ x, (cfg x).recvCapacity < 2 ^ 64) (hD : ∀ x, (s x).written.length < 2 ^ 63) :
    NetAcks cfg s := by
  induction hrun with
  | start => exact .start
  | @step s s' act hrun hok hs ih =>
    have hD' := Net.written_lt hs hD
    exact (ih hD').step ((hrun.mono fun _ _ h => h.1).inv hsend hrecv hD') hsend hD' hok hs

/-- The payloads of what has left the queue of `x` have been pushed at the other side, and with those
still in the queue and the bytes not yet sent they are all that was written. -/
def Net.Accounted (s : Net) (x : Side) : Prop :=
  payloads ((s x).cleared.map Prod.fst) <+:
      (s x.other).read ++ (s x.other).peer.receiver.inbound.queued ∧
    (s x).written = payloads ((s x).cleared.map Prod.fst) ++ payloads (s x).peer.sender.msgQueue ++
      (s x).peer.sender.input.queued

instance (s : Net) (x : Side) : Decidable (s.Accounted x) := inferInstanceAs (Decidable (_ ∧ _))

/-- The SYN comes before the first byte. -/
theorem TCPSender.SenderInv.length_payloads {t : TCPSender} {D : Bytes}
    {sent done queue : List TCPSenderMessage} (h : SenderInv isn D (segments sent) t)
    (hsent : sent = done ++ queue) : (payloads done).length + 1 ≤ span done ∨ payloads done = [] := by
  have hle : ∀ ms, (payloads ms).length ≤ span ms := by
    intro ms
    induction ms with
    | nil => exact Nat.le_refl _
    | cons m ms ih =>
      show (m.payload ++ payloads ms).length ≤ _
      rw [List.length_append, span_cons, TCPSenderMessage.sequenceLength]; omega
  rw [← payloads_segments, ← span_segments]
  cases hd : segments done with
  | nil => exact .inr rfl
  | cons m rest =>
    have hat : SentAt (segments sent) 0 m := by
      refine ⟨[], rest ++ segments queue, ?_, rfl⟩
      rw [hsent, segments_append, hd]; rfl
    have hS := (h.placed _ _ hat).first rfl
    have := hle rest
    refine .inl ?_
    show (m.payload ++ payloads rest).length + 1 ≤ _
    rw [List.length_append, span_cons, TCPSenderMessage.sequenceLength, hS, Bool.toNat_true]
    omega

/-- Nothing is lost in the runs in which every delivery is safe. -/
theorem accounted_of_safe (hrun : NetRun cfg LossSafe s)
    (hsend : ∀ x, (cfg x).sendCapacity < 2 ^ 64) (hrecv : ∀ x, (cfg x).recvCapacity < 2 ^ 64)
    (hD : ∀ x, (s x).written.length < 2 ^ 63) (x : Side) : s.Accounted x := by
  have hn := (hrun.mono fun _ _ h => h.1).inv hsend hrecv hD
  have hheld := (hrun.acks hsend hrecv hD).held x
  have hi := (hn.host x).inv (hsend x)
  have hd := (hn.link x.other).delivers
  rw [Side.other_other] at hd
  have hsplit : (s x).written = payloads ((s x).cleared.map Prod.fst) ++
      payloads (s x).peer.sender.msgQueue ++ (s x).peer.sender.input.queued := by
    rw [← payloads_append, ← hheld.sent, ← payloads_segments (s x).sent]
    exact hi.accepted
  refine ⟨?_, hsplit⟩
  have hpre : payloads ((s x).cleared.map Prod.fst) <+: (s x).written := by
    rw [hsplit, List.append_assoc]; exact List.prefix_append _ _
  refine List.prefix_of_prefix_length_le hpre hd.le_stream ?_
  rw [hd.length]
  have hack := hheld.acked
  unfold Host.ackLimit at hack
  cases hc : (s x.other).peer.receiver.inbound.isClosed with
  | true => rw [(hd.closed hc).2.2]; exact hpre.length_le
  | false =>
    rw [hc, Bool.toNat_false] at hack
    rcases hi.length_payloads hheld.sent with hlen | hnil
    · omega
    · rw [hnil]; exact Nat.zero_le _

/-- Three bytes in the order 1, 3, 2. The acknowledgment of all of them comes twice. -/
theorem accounted_of_safe_reordered :
    ∃ s, NetRun (fun _ => ⟨10, 4, 4, ⟨0⟩⟩) LossSafe s ∧
      ((s .a).written = [1, 2, 3] ∧ (s .a).cleared.length = 3) ∧ s.Accounted .a := by
  have h : ∃ s, NetRun (fun _ => ⟨10, 4, 4, ⟨0⟩⟩) LossSafe s ∧ (s .a).written = [1, 2, 3] ∧
      (s .a).cleared.length = 3 ∧ (s .b).written = [] := NetRun.exists_of_runs
    [.push .b, .deliver .a 0, .write .a [1], .push .a, .write .a [2], .push .a, .write .a [3],
      .push .a, .close .a, .deliver .b 1, .deliver .b 3, .deliver .b 2, .deliver .a 3,
      .push .a, .deliver .a 3, .read .b 2, .deliver .b 4] (by decide)
  obtain ⟨s, hrun, hw, hc, hlen⟩ := h
  refine ⟨s, hrun, ⟨hw, hc⟩, accounted_of_safe hrun (by simp) (by simp) (fun x => ?_) .a⟩
  cases x
  · rw [hw]; decide
  · rw [hlen]; decide

/-- The second byte comes with the FIN while the first is missing, and after it an acknowledgment
without payload, at which the FIN is counted. What is then acknowledged removes the first byte. -/
theorem accounted_fails :
    ∃ s, NetRun (fun _ => ⟨10, 4, 4, ⟨0⟩⟩) (fun _ _ => True) s ∧ ¬ s.Accounted .a :=
  NetRun.exists_of_runs
    [.push .a, .deliver .b 0, .deliver .a 0, .write .a [1], .push .a, .write .a [2], .close .a,
      .push .a, .deliver .b 2, .push .b, .deliver .a 2, .deliver .b 3, .deliver .b 2,
      .deliver .a 3] (by decide)

end Minnow
