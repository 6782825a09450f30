import Minnow.PeerShutdown
import Minnow.SenderFill

/-!
# What a peer does with a window that an acknowledgment opens

`TCPPeer::receive` gives the acknowledgment to its sender, but never calls `push`. So what the sender
has buffered stays there until the application writes again, unless what is left in flight fills the
new window by itself (`receive_fills_iff`).
-/

namespace Minnow
open Prog TCPSender ByteStream

namespace TCPSender

/-- The sequence numbers that an acknowledgment takes out of flight: it is compared with the end of all
that is in flight, and with the end of the front message. -/
def released (s : TCPSender) (ackno : Option Wrap32) : Nat :=
  match s.msgQueue, ackno with
  | front :: _, some ackno =>
    let curSeqno := front.seqno.unwrap s.isn s.input.bytesPushed
    let nextSeqno := ackno.unwrap s.isn s.input.bytesPushed
    if curSeqno + s.sequenceNumbersInFlight = nextSeqno then s.sequenceNumbersInFlight
    else if curSeqno + front.sequenceLength = nextSeqno then front.sequenceLength
    else 0
  | _, _ => 0

variable {s s' : TCPSender} {isn : Wrap32} {D : Bytes} {segs queue : List TCPSenderMessage}
  {msg : TCPReceiverMessage} {p q : Nat}

/-- Segments only say modulo `2 ^ 32` where they are. -/
theorem Laid.rebase (h : Laid isn p queue) (hpos : ∀ m ∈ queue, 0 < m.sequenceLength)
    (hpq : Wrap32.wrap p isn = .wrap q isn) : Laid isn q queue := by
  induction queue generalizing p q with
  | nil => trivial
  | cons m queue ih =>
    have hm := hpos m List.mem_cons_self
    refine ⟨.inl ⟨hm, ?_⟩, ih h.2 (fun x hx => hpos x (List.mem_cons_of_mem m hx)) ?_⟩
    · rcases h.1 with ⟨-, hseq⟩ | ⟨h0, -⟩
      · exact hseq.trans hpq
      · omega
    · unfold Wrap32.wrap at hpq ⊢
      rw [← Wrap32.add_add, ← Wrap32.add_add, hpq]

/-- A queue may be taken to start where `unwrap` finds its front message. -/
theorem Laid.rebase_front {front : TCPSenderMessage} {rest : List TCPSenderMessage}
    (h : Laid isn p (front :: rest)) (hpos : ∀ m ∈ front :: rest, 0 < m.sequenceLength)
    (checkpoint : Nat) : Laid isn (front.seqno.unwrap isn checkpoint) (front :: rest) := by
  refine h.rebase hpos ?_
  rw [Wrap32.wrap_unwrap]
  rcases h.1 with ⟨-, hseq⟩ | ⟨h0, -⟩
  · exact hseq.symm
  · have := hpos front List.mem_cons_self
    omega

theorem released_noteWindow (s : TCPSender) (msg : TCPReceiverMessage) (ackno : Option Wrap32) :
    (s.noteWindow msg).released ackno = s.released ackno := by
  unfold released
  rw [noteWindow_queue, noteWindow_isn, noteWindow_bytesPushed, sequenceNumbersInFlight,
    noteWindow_inFlight]
  rfl

/-- The loop takes everything, the front segment or nothing out of flight. -/
theorem Laid.receiveLoop_released (hc : s.input.bytesPushed + 2 ^ 33 < 2 ^ 64)
    (h : Laid s.isn p s.msgQueue) (hpos : ∀ m ∈ s.msgQueue, 0 < m.sequenceLength)
    (hB : s.bytesInQueue = span s.msgQueue) (hI : span s.msgQueue < 2 ^ 32)
    (hr : receiveLoop msg s.msgQueue s = .ok s') :
    s'.bytesInQueue + s.released msg.ackno = s.bytesInQueue := by
  unfold released
  rw [sequenceNumbersInFlight]
  cases hqueue : s.msgQueue with
  | nil => rw [hqueue] at hr; cases hr; rfl
  | cons front rest =>
  rw [hqueue] at h hpos hB hI hr
  cases hack : msg.ackno with
  | none => rw [receiveLoop, hack] at hr; cases hr
  | some ackno =>
  have htest : s.Acknowledges ackno front s.sequenceNumbersInFlight ↔ _ :=
    acknowledges_iff hc (by rw [sequenceNumbersInFlight, hB, span_cons]; omega)
      (by rw [sequenceNumbersInFlight, hB]; exact hI)
  rw [sequenceNumbersInFlight] at htest
  have hl := h.rebase_front hpos s.input.bytesPushed
  have hfix : (Wrap32.wrap (front.seqno.unwrap s.isn s.input.bytesPushed) s.isn).unwrap s.isn
      s.input.bytesPushed = front.seqno.unwrap s.isn s.input.bytesPushed := by
    rw [Wrap32.wrap_unwrap]
  dsimp only
  generalize front.seqno.unwrap s.isn s.input.bytesPushed = cur at htest hl hfix ⊢
  by_cases hall : cur + s.bytesInQueue = ackno.unwrap s.isn s.input.bytesPushed
  · obtain ⟨u, hu, h0, -⟩ := Laid.receiveLoop_all hack _ _ cur hc hl hB hI (fun _ => hfix)
      (hB ▸ hall.symm)
    cases hu.symm.trans hr
    rw [if_pos hall, h0, Nat.zero_add]
  by_cases hone : cur + front.sequenceLength = ackno.unwrap s.isn s.input.bytesPushed
  · have hrest := dequeue_inFlight hB hI
    rw [receiveLoop_pos hack (htest.2 (.inl hone)), Laid.receiveLoop_stops (s := s.dequeue front) hc
      hack hl.2 hrest (by rw [span_cons] at hI; omega) hone.symm] at hr
    cases hr
    rw [if_neg hall, if_pos hone, hB, span_cons, Nat.add_comm front.sequenceLength]
    exact congrArg (· + _) hrest
  · rw [receiveLoop_neg hack fun hin => (htest.1 hin).elim hone hall] at hr
    cases hr
    rw [if_neg hall, if_neg hone]
    rfl

/-- Before the FIN is queued `released` says what a receipt does to the number in flight. -/
theorem SenderInv.receive_released (h : SenderInv isn D segs s) (hD : D.length < 2 ^ 63)
    (hq : s.finQueued = false) (hr : s.receive msg = .ok s') :
    s'.sequenceNumbersInFlight + s.released msg.ackno = s.sequenceNumbersInFlight := by
  obtain ⟨p, hk⟩ := h.counted hD
  have hqueue := noteWindow_queue s msg
  have hB := noteWindow_inFlight s msg
  rw [TCPSender.receive, ← hqueue] at hr
  have := Laid.receiveLoop_released (p := p) (by rw [noteWindow_bytesPushed]; exact hk.checkpoint)
    (by rw [noteWindow_isn, hqueue]; exact hk.laid)
    (fun m hm => h.queue_positive hq (hqueue ▸ hm)) (by rw [hB, hqueue]; exact hk.inFlight)
    (hqueue.symm ▸ hk.bound) hr
  rwa [released_noteWindow, hB] at this

end TCPSender

namespace TCPPeer

/-- The states that the calls of a peer and of its streams can bring it to. -/
inductive Reached (cfg : TCPConfig) : TCPPeer → Prop
  | start : Reached cfg (.ofConfig cfg)
  | write {p : TCPPeer} (data : Bytes) (h : Reached cfg p) :
      Reached cfg { p with sender := { p.sender with input := p.sender.input.push data } }
  | close {p : TCPPeer} (h : Reached cfg p) :
      Reached cfg { p with sender := { p.sender with input := p.sender.input.close } }
  | setError {p : TCPPeer} (h : Reached cfg p) :
      Reached cfg { p with sender := { p.sender with input := p.sender.input.setError } }
  | read {p : TCPPeer} {output : ByteStream} (len : Nat) (h : Reached cfg p)
      (hp : p.receiver.inbound.pop len = some output) :
      Reached cfg { p with receiver := { p.receiver with
        reassembler := { p.receiver.reassembler with output } } }
  | setInboundError {p : TCPPeer} (h : Reached cfg p) :
      Reached cfg { p with receiver := { p.receiver with
        reassembler := { p.receiver.reassembler with output := p.receiver.inbound.setError } } }
  | push {p p' : TCPPeer} {out : List TCPMessage} (h : Reached cfg p)
      (hp : p.push = some (p', out)) : Reached cfg p'
  | tick {p : TCPPeer} (ms : Nat) (h : Reached cfg p) : Reached cfg (p.tick ms).1
  | receive {p p' : TCPPeer} {out : List TCPMessage} (msg : TCPMessage) (h : Reached cfg p)
      (hr : (p.receive msg).Leaves (p', out)) : Reached cfg p'

variable {cfg : TCPConfig} {p p' : TCPPeer} {msg : TCPMessage} {out : List TCPMessage}

/-- The sender of a peer makes a run of its own. -/
theorem Reached.run (h : Reached cfg p) : ∃ acc sent cleared,
    SenderRun cfg.sendCapacity cfg.isn cfg.rtTimeout.toNat p.sender acc sent cleared := by
  induction h with
  | start => exact ⟨_, _, _, .start⟩
  | write data _ ih => obtain ⟨_, _, _, h⟩ := ih; exact ⟨_, _, _, h.write data⟩
  | close _ ih => obtain ⟨_, _, _, h⟩ := ih; exact ⟨_, _, _, h.close⟩
  | setError _ ih => obtain ⟨_, _, _, h⟩ := ih; exact ⟨_, _, _, h.setError⟩
  | read len _ _ ih => exact ih
  | setInboundError _ ih => exact ih
  | push _ hp ih =>
    obtain ⟨_, _, _, h⟩ := ih
    obtain ⟨⟨sd, ms⟩, hpush, heq⟩ := Option.map_eq_some_iff.1 hp
    cases heq
    exact ⟨_, _, _, h.push hpush⟩
  | tick ms _ ih => obtain ⟨_, _, _, h⟩ := ih; exact ⟨_, _, _, h.tick ms⟩
  | receive msg _ hr ih =>
    obtain ⟨_, _, _, h⟩ := ih
    rcases receive_cases hr with ⟨-, rfl, -⟩ | ⟨-, -, hs | hs, -⟩
    · exact ⟨_, _, _, h⟩
    · exact ⟨_, _, _, hs ▸ h⟩
    · exact ⟨_, _, _, h.receive _ hs⟩

/-- When `receive` returns, what is buffered has no room in the window exactly if what the
acknowledgment leaves in flight fills the new window. -/
theorem receive_fills_iff (hcap : cfg.sendCapacity < 2 ^ 64)
    (hpushed : p.sender.input.bytesPushed < 2 ^ 63) (h : Reached cfg p)
    (hr : p.receive msg = .ok (p', out)) (ha : p'.active = true) :
    (p'.sender.input.bytesBuffered = 0 ∨
      max p'.sender.curWinSize 1 ≤ p'.sender.sequenceNumbersInFlight) ↔
    (p.sender.input.bytesBuffered = 0 ∨
      max msg.receiver.windowSize.toNat 1 + p.sender.released msg.receiver.ackno ≤
        p.sender.sequenceNumbersInFlight) := by
  obtain ⟨acc, _, _, hrun⟩ := h.run
  have hi := hrun.inv hcap
  have hactive : p.active = true := by
    by_contra hstop
    unfold TCPPeer.receive at hr
    rw [if_pos (by simpa using hstop)] at hr
    cases hr
    exact hstop ha
  obtain ⟨-, hsnd, -⟩ := receive_ok hactive hr
  have hinput := (hi.receive_same hsnd).2
  have hwin : p'.sender.curWinSize = msg.receiver.windowSize.toNat := by
    obtain ⟨gone, hacks⟩ := receive_acks hi.inFlight hi.inFlight_lt hsnd
    rw [hacks.state, noteWindow_eq]
  have hbuf : p'.sender.input.bytesBuffered = p.sender.input.bytesBuffered := by
    rw [hinput]
    split <;> rfl
  rw [hbuf, hwin]
  by_cases h0 : p.sender.input.bytesBuffered = 0
  · exact iff_of_true (.inl h0) (.inl h0)
  have hq : p.sender.finQueued = false := Bool.eq_false_iff.2 fun hq =>
    h0 (hi.ready.stream.bytesInDeck_of_isFinished (hi.ready.finished hq).1)
  have hrel := hi.receive_released (by rw [← hi.pushed]; exact hpushed) hq hsnd
  exact or_congr_right (by omega)

/-- Two of three bytes fill the window; an acknowledgment of nothing new leaves it full. -/
theorem receive_fills_iff_abc : ∃ p p' msg out, Reached ⟨1000, 4, 4, ⟨7⟩⟩ p ∧
    p.receive msg = .ok (p', out) ∧ p'.active = true ∧ p'.sender.synSent = true ∧
    p'.sender.input.bytesBuffered = 1 ∧
    (p'.sender.input.bytesBuffered = 0 ∨
      max p'.sender.curWinSize 1 ≤ p'.sender.sequenceNumbersInFlight) := by
  have h₀ : Reached ⟨1000, 4, 4, ⟨7⟩⟩ _ := .start
  have h₁ := (h₀.push rfl).receive ⟨{ seqno := ⟨100⟩, SYN := true }, ⟨some ⟨8⟩, 2, false⟩⟩ (.inl rfl)
  have h₂ := (h₁.write [1, 2, 3]).push rfl
  have h := @receive_fills_iff _ _ _ ⟨{ seqno := ⟨101⟩ }, ⟨some ⟨8⟩, 2, false⟩⟩ _ (by decide) (by decide)
    h₂ rfl rfl
  exact ⟨_, _, ⟨{ seqno := ⟨101⟩ }, ⟨some ⟨8⟩, 2, false⟩⟩, _, h₂, rfl, rfl, rfl, rfl, h.2 (by decide)⟩

/-- Two of three bytes fill the window. Their acknowledgment opens it to five, and the third byte stays
where it is. -/
theorem receive_stalls : ∃ p p' msg out, Reached ⟨1000, 4, 4, ⟨7⟩⟩ p ∧
    p.receive msg = .ok (p', out) ∧ p'.active = true ∧ p'.sender.synSent = true ∧
    p'.sender.input.bytesBuffered ≠ 0 ∧
    p'.sender.sequenceNumbersInFlight < max p'.sender.curWinSize 1 := by
  have h₀ : Reached ⟨1000, 4, 4, ⟨7⟩⟩ _ := .start
  have h₁ := (h₀.push rfl).receive ⟨{ seqno := ⟨100⟩, SYN := true }, ⟨some ⟨8⟩, 2, false⟩⟩ (.inl rfl)
  have h₂ := (h₁.write [1, 2, 3]).push rfl
  exact ⟨_, _, ⟨{ seqno := ⟨101⟩ }, ⟨some ⟨10⟩, 5, false⟩⟩, _, h₂, rfl, rfl, rfl, by decide, by decide⟩

end TCPPeer

end Minnow
