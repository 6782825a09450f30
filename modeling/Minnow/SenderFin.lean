import Minnow.SenderAck
import Minnow.SenderPush

/-!
# Where the FIN is

Once it is queued the FIN has been transmitted, and it stays in the queue until an acknowledgment takes
it off (`FinSent`). A call of `push` with nothing in flight leaves none due (`Ready.push_finQueued`).
-/

namespace Minnow.TCPSender
open Prog ByteStream

variable {s s' : TCPSender} {isn : Wrap32} {D acc : Bytes}
  {segs sent out queue : List TCPSenderMessage} {m : TCPSenderMessage} {msg : TCPReceiverMessage}
  {capacity rto : Nat} {cleared : List (TCPSenderMessage × Nat)}

/-- A FIN has been transmitted and is in the queue, or has been acknowledged. -/
structure FinSent (s : TCPSender) (sent : List TCPSenderMessage) : Prop where
  sent : ∃ m ∈ sent, m.FIN = true
  queued : s.finReceived = true ∨ ∃ m ∈ s.msgQueue, m.FIN = true

theorem Transmits.finSent (ht : Transmits s m s') (h : s.finQueued = true → FinSent s sent)
    (hq : s'.finQueued = true) : FinSent s' (sent ++ [m]) := by
  rw [ht.state] at hq ⊢
  rcases Bool.or_eq_true _ _ ▸ hq with hq | hF
  · obtain ⟨⟨x, hx, hF⟩, hqueued⟩ := h hq
    refine ⟨⟨x, List.mem_append_left _ hx, hF⟩, hqueued.imp_right ?_⟩
    exact fun ⟨y, hy, hF⟩ => ⟨y, List.mem_append_left _ hy, hF⟩
  · exact ⟨⟨m, List.mem_append_right _ List.mem_cons_self, hF⟩,
      .inr ⟨m, List.mem_append_right _ List.mem_cons_self, hF⟩⟩

theorem Sends.finSent (hs : Sends s out s') (h : s.finQueued = true → FinSent s sent) :
    s'.finQueued = true → FinSent s' (sent ++ out) := by
  induction hs with
  | nil => rw [List.append_nil]; exact h
  | snoc _ ht ih =>
    rw [← List.append_assoc]
    exact ht.finSent ih

/-- A FIN that leaves the queue is noted. -/
theorem receiveLoop_fin (hr : receiveLoop msg queue s = .ok s')
    (h : s.finReceived = true ∨ ∃ m ∈ queue, m.FIN = true) :
    s'.finReceived = true ∨ ∃ m ∈ s'.msgQueue, m.FIN = true := by
  induction queue generalizing s with
  | nil => cases hr; exact h
  | cons front rest ih =>
    rw [receiveLoop] at hr
    split at hr
    · cases hr
    dsimp only at hr
    split at hr
    swap
    · cases hr; exact h
    refine ih hr ?_
    show (s.finReceived || front.FIN) = true ∨ _
    rw [Bool.or_eq_true]
    rcases h with h | ⟨x, hx, hF⟩
    · exact .inl (.inl h)
    · rcases List.mem_cons.1 hx with rfl | hx
      · exact .inl (.inr hF)
      · exact .inr ⟨x, hx, hF⟩

theorem SenderRun.finSent (hcap : capacity < 2 ^ 64)
    (h : SenderRun capacity isn rto s acc sent cleared) (hq : s.finQueued = true) :
    FinSent s sent := by
  induction h with
  | start => cases hq
  | write data _ ih => exact ⟨(ih hq).sent, (ih hq).queued⟩
  | close _ ih => exact ⟨(ih hq).sent, (ih hq).queued⟩
  | setError _ ih => exact ⟨(ih hq).sent, (ih hq).queued⟩
  | push h hp ih => exact ((h.inv hcap).ready.push_sends hp).finSent ih hq
  | tick ms _ ih =>
    obtain ⟨t, c, heq⟩ := tick_eq _ ms
    rw [heq] at hq ⊢
    exact ⟨(ih hq).sent, (ih hq).queued⟩
  | receive msg h hr ih =>
    have hi := h.inv hcap
    obtain ⟨gone, ha⟩ := receive_acks hi.inFlight hi.inFlight_lt hr
    rw [ha.state, noteWindow_eq] at hq
    have hf := ih hq
    refine ⟨hf.sent, receiveLoop_fin hr ?_⟩
    rw [noteWindow_eq]; exact hf.queued

/-- With nothing in flight a transmitted FIN has been acknowledged. -/
theorem FinSent.acked (h : FinSent s sent) (hB : s.bytesInQueue = span s.msgQueue)
    (h0 : s.bytesInQueue = 0) : s.finReceived = true := by
  refine h.queued.resolve_right fun ⟨m, hm, hF⟩ => ?_
  obtain ⟨pre, post, hq⟩ := List.append_of_mem hm
  have hpos : 0 < m.sequenceLength := by
    rw [TCPSenderMessage.sequenceLength, hF, Bool.toNat_true]; omega
  rw [hq, span_append, span_cons] at hB
  omega

/-- With all bytes transmitted and no FIN yet, only an acknowledgment of everything leaves nothing in
flight. -/
theorem SenderInv.acked_all (h : SenderInv isn D segs s) (hD : D.length < 2 ^ 63)
    (hdone : s.input.isFinished = true) (hr : s.receive msg = .ok s') (hfly : s.bytesInQueue ≠ 0)
    (h0 : s'.bytesInQueue = 0) : ∃ ackno ∈ msg.ackno,
      ackno.unwrap s.isn s.input.bytesPushed = s.nextSeqno := by
  obtain ⟨gone, ha⟩ := receive_acks h.inFlight h.inFlight_lt hr
  have hin := ha.inFlight
  have hB := h.inFlight
  have hlt := h.inFlight_lt
  rw [h0, noteWindow_inFlight] at hin
  rw [ha.queue, span_append] at hB
  rcases span_eq_zero_or_split gone with hz | ⟨pre, m, post, hg, hm, hpost⟩
  · omega
  have hq : s.msgQueue = pre ++ m :: (post ++ s'.msgQueue) := by rw [ha.queue, hg]; simp
  obtain ⟨p, hseq, hle, hge, hpos⟩ := h.position hq
  have htotal := (hpos hm).2
  have hempty := h.ready.stream.bytesInDeck_of_isFinished hdone
  have hu := h.near hge hle (by omega) hD
  obtain ⟨ackno, hack, htest⟩ := ha.tests pre m post hg
  refine ⟨ackno, hack, ?_⟩
  have hnext : s.nextSeqno = span segs := h.total.symm
  have hlen := h.length
  have hspan := h.total
  have h1 := Bool.toNat_le s.finQueued
  have h2 := Bool.toNat_le s.synSent
  rw [hg] at hin hB
  rw [Acknowledges, noteWindow_isn, noteWindow_bytesPushed, noteWindow_inFlight, hseq, hu] at htest
  simp only [span_append, span_cons, hpost] at htotal hin hB
  -- the last segment ends where everything in flight does
  rcases htest with htest | htest <;> rw [add64_of_lt (by omega)] at htest <;> omega

/-! ### After a call of `push` -/

theorem pushEnd_synSent (s : TCPSender) (m : TCPSenderMessage) :
    (s.pushEnd m).1.synSent = s.synSent := by
  unfold TCPSender.pushEnd
  dsimp only
  split <;> rfl

/-- The SYN goes out with the first pass. -/
theorem pushBody_synSent {r : TCPSender × List TCPSenderMessage} (hb : pushBody (s, sent) = .exit r) :
    r.1.synSent = true := by
  by_cases hret : (s.input.bytesBuffered = 0 ∧ s.synSent = true ∧ (s.fin || s.setsFin) = false) ∨
      ((s.fin || s.setsFin) = true ∧ s.finReceived = true)
  · unfold pushBody at hb
    dsimp only at hb
    rw [pushStart_eq, if_pos hret] at hb
    cases hb
    rfl
  · rw [pushBody_eq sent hret] at hb
    cases hf : s.fill s.startMessage with
    | none => rw [hf] at hb; cases hb
    | some p =>
      have hsyn := pushEnd_synSent (s.begun p.1) p.2
      rw [hf] at hb
      dsimp only at hb
      generalize (s.begun p.1).pushEnd p.2 = q at hb hsyn
      obtain ⟨q, _ | m⟩ := q
      · cases hb; exact hsyn
      · dsimp only at hb
        split at hb <;> cases hb
        exact hsyn

/-- A pass over a finished stream with nothing in flight sends the FIN. -/
theorem Ready.quit_finQueued (h : Ready s) (hb : pushBody (s, sent) = .exit (s, sent))
    (hdone : s.input.isFinished = true) (h0 : s.bytesInQueue = 0) : s.finQueued = true := by
  have hS : s.synSent = true := pushBody_synSent hb
  have hF : s.setsFin = true := by
    have hlen : s.inFlightWith { SYN := !s.synSent } = 0 := by
      rw [hS, inFlightWith, sequenceNumbersInFlight, h0]; rfl
    unfold setsFin
    rw [hdone, hlen, Bool.true_and, Bool.or_eq_true, decide_eq_true_eq, decide_eq_true_eq]
    omega
  by_contra hq
  rw [h.pushBody_setsFin hS hF, if_neg hq] at hb
  exact exit_append_ne hb.symm

theorem Ready.push_finQueued (h : Ready s) (hp : s.push = some (s', out))
    (hdone : s'.input.isFinished = true) (h0 : s'.bytesInQueue = 0) : s'.finQueued = true := by
  refine h.push_rule (fun _ _ => True)
    (fun t _ => t.input.isFinished = true → t.bytesInQueue = 0 → t.finQueued = true) trivial
    (fun _ _ _ _ _ _ _ _ _ => trivial) ?_ (fun t out ht _ hb => ht.quit_finQueued hb) hp hdone h0
  intro t out m t' ht _ hu _ _ h0
  rw [hu.state] at h0 ⊢
  dsimp only at h0 ⊢
  rw [hu.empty (by omega), Bool.true_or]

end Minnow.TCPSender
