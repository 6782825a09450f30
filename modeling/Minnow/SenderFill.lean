import Minnow.SenderFin

/-!
# A call of `push` leaves nothing behind

Whatever ends the last pass, when `push` returns the stream has been emptied or the window is full, and
a FIN that is due has gone out or has no room (`Exhausted`, `push_fills`).
-/

namespace Minnow.TCPSender
open Prog ByteStream

/-- Nothing can be sent that has not been sent. A window of zero counts as one. -/
structure Exhausted (s : TCPSender) : Prop where
  data : s.input.bytesBuffered = 0 ∨ max s.curWinSize 1 ≤ s.sequenceNumbersInFlight
  fin : s.input.isFinished = true → s.sequenceNumbersInFlight < max s.curWinSize 1 →
    s.finQueued = true

variable {s s' : TCPSender} {isn : Wrap32} {D acc : Bytes} {segs sent out : List TCPSenderMessage}
  {m msg : TCPSenderMessage} {input : ByteStream} {capacity rto n : Nat}
  {cleared : List (TCPSenderMessage × Nat)}

theorem exhausted_of_full (h : max s.curWinSize 1 ≤ s.sequenceNumbersInFlight) : s.Exhausted :=
  ⟨.inr h, fun _ hlt => absurd hlt (Nat.not_lt.2 h)⟩

theorem Ready.exhausted_of_finQueued (h : Ready s) (hq : s.finQueued = true) : s.Exhausted :=
  ⟨.inl (h.stream.bytesInDeck_of_isFinished (h.finished hq).1), fun _ _ => hq⟩

/-- A finished stream whose FIN is not set before the inner loop has a full window. -/
theorem full_of_setsFin (hS : s.synSent = true) (hF : s.setsFin = false)
    (hdone : s.input.isFinished = true) : max s.curWinSize 1 ≤ s.sequenceNumbersInFlight := by
  have hlen : s.inFlightWith { SYN := !s.synSent } = s.sequenceNumbersInFlight := by
    rw [hS]; exact Nat.zero_add _
  unfold setsFin at hF
  rw [hdone, hlen, Bool.true_and, Bool.or_eq_false_iff, decide_eq_false_iff_not,
    decide_eq_false_iff_not] at hF
  omega

/-- With all bytes sent only a FIN is left. -/
theorem exhausted_of_empty (hS : s.synSent = true) (hF : s.setsFin = false)
    (hbuf : s.input.bytesBuffered = 0) : s.Exhausted :=
  ⟨.inl hbuf, fun hdone hlt => absurd hlt (Nat.not_lt.2 (full_of_setsFin hS hF hdone))⟩

/-- Before the FIN every queued message occupies sequence numbers. -/
theorem SenderInv.queue_positive (h : SenderInv isn D segs s) (hq : s.finQueued = false)
    (hm : m ∈ s.msgQueue) : 0 < m.sequenceLength := by
  obtain ⟨old, rest, idle, hsegs, hqueue, hidle⟩ := h.queue
  rw [hqueue] at hm
  rcases List.mem_append.1 hm with hm | hm
  · exact h.positive (by rw [hsegs]; exact List.mem_append_right _ hm)
  · have := (hidle m hm).finQueued
    rw [hq] at this; cases this

theorem SenderInv.outstanding (h : SenderInv isn D segs s) (hne : s.msgQueue ≠ [])
    (hq : s.finQueued = false) : 0 < s.bytesInQueue := by
  obtain ⟨front, rest, hqueue⟩ := List.exists_cons_of_ne_nil hne
  have := h.queue_positive (m := front) hq (by rw [hqueue]; exact List.mem_cons_self)
  rw [h.inFlight, hqueue, span_cons]
  omega

/-! ### A pass that does not transmit -/

/-- What a declining pass has looked at. -/
theorem Ready.declines_same (h : Ready s) (hf : Filled s s.startMessage n input msg)
    (hd : (s.begun input).Declines ((s.begun input).endMessage msg)) : n = 0 ∧ input = s.input := by
  have hsame : input = s.input := congrArg TCPSender.input (h.declines hf hd)
  have hpop := hf.popped.totalPopped
  rw [hsame] at hpop
  exact ⟨by omega, hsame⟩

/-- A message that is too long for the window has no room for a byte either. -/
theorem Ready.full_of_overlong (h : Ready s) (hf : Filled s s.startMessage n input msg)
    (hn : n = 0) (hw : s.curWinSize ≠ 0)
    (hwin : s.curWinSize < s.inFlightWith ((s.begun input).endMessage msg)) :
    max s.curWinSize 1 ≤ s.sequenceNumbersInFlight := by
  have hF : ((s.begun input).endMessage msg).FIN = false := Bool.eq_false_iff.2 fun hF => by
    have := (h.endMessage_FIN hf hF).2 hw
    omega
  have hlen := endMessage_length (s.begun input) msg
  have hsyn : msg.SYN = !s.synSent := by rw [hf.msg]; rfl
  rw [hF, hsyn, hf.length_payload h.stream, hn] at hlen
  rw [inFlightWith, hlen] at hwin
  cases hS : s.synSent with
  | true =>
    rw [hS] at hwin
    simp only [Bool.not_true, Bool.toNat_false] at hwin
    omega
  | false =>
    have hB := (h.unsent hS).2
    rw [hS, sequenceNumbersInFlight, hB] at hwin
    simp only [Bool.not_false, Bool.toNat_true, Bool.toNat_false] at hwin
    omega

/-- A message with nothing in it: the window is full, or there is nothing to put in. -/
theorem SenderInv.exhausted_of_nothing (h : SenderInv isn D segs s)
    (hf : Filled s s.startMessage n input msg) (hstop : s.Stops input msg) (hsame : input = s.input)
    (hempty : msg.payload = []) (hsyn : msg.SYN = false)
    (hfin : (s.fin || ((s.begun input).endMessage msg).FIN) = false) : s.Exhausted := by
  obtain ⟨hsf, hF⟩ := Bool.or_eq_false_iff.1 hfin
  have hset : s.setsFin = false := by
    have : msg.FIN = s.setsFin := by rw [hf.msg]; rfl
    exact this ▸ (Bool.or_eq_false_iff.1 hF).1
  have hS : s.synSent = true := by
    have : msg.SYN = !s.synSent := by rw [hf.msg]; rfl
    rw [hsyn] at this
    simpa using this.symm
  have hlen : msg.sequenceLength = 0 := by
    have : msg.FIN = false := (Bool.or_eq_false_iff.1 hF).1
    rw [TCPSenderMessage.sequenceLength, hempty, hsyn, this]; rfl
  rcases hstop with ⟨hfull | hbuf | hmax, hw⟩ | ⟨-, h1⟩ | ⟨hz, hne⟩
  · rw [inFlightWith, hlen] at hfull
    exact exhausted_of_full (by omega)
  · exact exhausted_of_empty hS hset (hsame ▸ hbuf)
  · rw [hempty, maxPayloadSize] at hmax; cases hmax
  · omega
  · have := h.outstanding hne (h.ready.fin ▸ hsf)
    exact exhausted_of_full (by rw [hz, sequenceNumbersInFlight]; omega)

theorem SenderInv.quits (h : SenderInv isn D segs s) (hb : pushBody (s, out) = .exit (s, out)) :
    s.Exhausted := by
  rcases h.ready.pushBody_quits hb with (⟨hbuf, hS, hF⟩ | ⟨-, hr⟩) | ⟨input, msg, n, hfill, hf, hd⟩
  · exact exhausted_of_empty hS (Bool.or_eq_false_iff.1 hF).2 hbuf
  · exact h.ready.exhausted_of_finQueued (h.ready.finReceived hr)
  obtain ⟨hn, hsame⟩ := h.ready.declines_same hf hd
  rcases hd with ⟨-, hq⟩ | ⟨hwin, hw⟩ | ⟨hempty, hsyn, hfin⟩
  · exact h.ready.exhausted_of_finQueued hq
  · exact exhausted_of_full (h.ready.full_of_overlong hf hn hw hwin)
  · rw [hf.begun_fin_or] at hfin
    exact h.exhausted_of_nothing hf (fill_stops hfill) hsame hempty hsyn hfin

/-! ### A pass that transmits and returns -/

theorem Ready.exhausted_of_sent (h : Ready s) (ht : Transmits s m s')
    (hb : pushBody (s, out) = .exit (s', out ++ [m])) : s'.Exhausted := by
  obtain ⟨⟨msg, -, hm⟩, hreason⟩ := h.pushBody_sends (.inl hb)
  have hq' : s'.finQueued = (s.finQueued || m.FIN) := by rw [ht.state]
  have hB : s'.sequenceNumbersInFlight = s.inFlightWith m := by
    rw [ht.state, inFlightWith, Nat.add_comm]; rfl
  have hW : s'.curWinSize = s.curWinSize := by rw [ht.state]
  cases hq : s'.finQueued with
  | true => exact (ht.ready h).exhausted_of_finQueued hq
  | false =>
    obtain ⟨hsq, hF⟩ := Bool.or_eq_false_iff.1 (hq'.symm.trans hq)
    have hpos : 0 < m.sequenceLength := Nat.pos_of_ne_zero fun h0 => by
      have := ht.empty h0
      rw [hsq] at this; cases this
    have hfly : 0 < s'.sequenceNumbersInFlight := by rw [hB, inFlightWith]; omega
    rcases hreason hb with hbuf | hfull
    · refine ⟨.inl hbuf, fun hdone hlt => ?_⟩
      -- the FIN has not been added although the stream has come to its end
      have hsame : s.inFlightWith m = s.inFlightWith msg := by
        have hF' : msg.FIN = false := (Bool.or_eq_false_iff.1 (hm ▸ hF)).1
        rw [inFlightWith, inFlightWith, hm, endMessage_length, ← hm, hF,
          TCPSenderMessage.sequenceLength, hF']
      have hadd : (s'.input.isFinished && decide (s.inFlightWith msg < s.curWinSize)) = false :=
        (Bool.or_eq_false_iff.1 (hm ▸ hF)).2
      rw [hdone, Bool.true_and, decide_eq_false_iff_not] at hadd
      omega
    · exact exhausted_of_full (by omega)

/-! ### Whole calls -/

theorem SenderInv.push_exhausted (h : SenderInv isn D segs s) (hp : s.push = some (s', out)) :
    s'.Exhausted := by
  refine h.ready.push_rule (fun t _ => ∃ segs, SenderInv isn D segs t) (fun t _ => t.Exhausted)
    ⟨segs, h⟩ ?_ ?_ ?_ hp
  · rintro t out m t' - ⟨segs, hi⟩ ht - -
    exact ⟨_, hi.step ht⟩
  · rintro t out m t' hr - ht hb
    exact hr.exhausted_of_sent ht hb
  · rintro t out - ⟨segs, hi⟩ hb
    exact hi.quits hb

/-- When `push` returns, the stream is empty or the window is full; and of a finished stream the FIN has
been transmitted unless the window is full. -/
theorem push_fills (hcap : capacity < 2 ^ 64)
    (h : SenderRun capacity isn rto s acc sent cleared) (hp : s.push = some (s', out)) :
    (s'.input.bytesBuffered = 0 ∨ max s'.curWinSize 1 ≤ s'.sequenceNumbersInFlight) ∧
    (s'.input.isFinished = true → s'.sequenceNumbersInFlight < max s'.curWinSize 1 →
      ∃ m ∈ sent ++ out, m.FIN = true) := by
  have he := (h.inv hcap).push_exhausted hp
  exact ⟨he.data, fun hdone hlt => ((h.push hp).finSent hcap (he.fin hdone hlt)).sent⟩

/-- Three bytes go into a window of three, and the FIN when it has grown to five. -/
theorem push_fills_abc : ∃ s sent cleared s' out, SenderRun 4 ⟨7⟩ 1000 s [1, 2, 3] sent cleared ∧
    s.push = some (s', out) ∧ s'.input.isFinished = true ∧ s'.sequenceNumbersInFlight = 4 ∧
    ∃ m ∈ sent ++ out, m.FIN = true := by
  have h₀ : SenderRun 4 ⟨7⟩ 1000 _ _ _ _ := .start
  have h₁ := h₀.push rfl
  have h₂ : SenderRun 4 ⟨7⟩ 1000
      { input := { capacity := 4 }, isn := ⟨7⟩, initialRTO := 1000, synSent := true, curWinSize := 3 }
      [] _ _ := h₁.receive { ackno := some ⟨8⟩, windowSize := 3 } (by decide)
  have h₃ := (h₂.write [1, 2, 3]).close.push rfl
  have h₄ : SenderRun 4 ⟨7⟩ 1000
      { input := { capacity := 4, isClosed := true, totalPushed := 3, totalPopped := 3 }, isn := ⟨7⟩,
        initialRTO := 1000, synSent := true, curWinSize := 5,
        msgQueue := [{ seqno := ⟨8⟩, payload := [1, 2, 3] }], bytesInQueue := 3 }
      [1, 2, 3] _ _ := h₃.receive { ackno := some ⟨8⟩, windowSize := 5 } (by decide)
  exact ⟨_, _, _, _, _, h₄, rfl, rfl, rfl, (push_fills (by decide) h₄ rfl).2 rfl (by decide)⟩

end Minnow.TCPSender
