import Minnow.SenderRun

/-!
# When a call of `push` returns, and what it puts in flight

With a window of zero `push` tells how much it may send by the length of the message and the emptiness
of the queue, and the two tests are not made where a FIN is set. So a first `push` on a finished stream
does not come back (`push_returns_iff`), and a later one sends the FIN on top of what is in flight
(`push_fits_iff`).
-/

namespace Minnow.TCPSender
open Prog ByteStream

/-- The SYN and the FIN would go into one message, which with a window of zero is too long to stop the
inner loop and has nothing to put in. -/
def Hangs (s : TCPSender) : Prop :=
  s.curWinSize = 0 ∧ s.synSent = false ∧ s.input.isFinished = true

/-- With a window of zero the FIN is due while something is in flight. -/
def Overruns (s : TCPSender) : Prop :=
  s.curWinSize = 0 ∧ s.input.isFinished = true ∧ s.finQueued = false ∧ 0 < s.sequenceNumbersInFlight

instance (s : TCPSender) : Decidable s.Hangs := inferInstanceAs (Decidable (_ ∧ _))

instance (s : TCPSender) : Decidable s.Overruns := inferInstanceAs (Decidable (_ ∧ _))

/-- Each of the messages, when it is transmitted, leaves no more in flight than the window allows,
where a window of zero counts as one. -/
def Fits (window inFlight : Nat) (out : List TCPSenderMessage) : Prop :=
  ∀ pre m post, out = pre ++ m :: post → inFlight + span (pre ++ [m]) ≤ max window 1

variable {s s' : TCPSender} {isn : Wrap32} {acc : Bytes} {sent out : List TCPSenderMessage}
  {m : TCPSenderMessage} {capacity rto w n : Nat} {cleared : List (TCPSenderMessage × Nat)}

/-! ### Returning -/

theorem Ready.setsFin_of_zero (hz : s.curWinSize = 0) : s.setsFin = s.input.isFinished := by
  unfold setsFin
  simp [hz]

/-- The inner loop turns without changing anything. -/
theorem Ready.fillBody_hangs (h : Ready s) (hh : s.Hangs) :
    s.fillBody (s.input, s.startMessage) = .spin := by
  obtain ⟨hz, hS, hdone⟩ := hh
  have hlen : s.startMessage.sequenceLength = 2 := by
    show (!s.synSent).toNat + 0 + s.setsFin.toNat = 2
    rw [hS, Ready.setsFin_of_zero hz, hdone]
    rfl
  have hpeek : s.input.peek = [] := by
    have := h.stream.bytesInDeck_of_isFinished hdone
    exact Classical.not_not.1 fun hne => by
      have := (peek_ne_nil_iff h.stream).1 hne
      rw [bytesBuffered] at this
      omega
  rw [fillBody_eq, if_neg, hpeek, List.take_nil, if_pos rfl]
  rintro (⟨-, hw⟩ | ⟨-, h1⟩ | ⟨-, hq⟩)
  · exact hw hz
  · omega
  · exact hq (h.unsent hS).1

theorem Ready.pushBody_hangs (h : Ready s) (hh : s.Hangs) (sent : List TCPSenderMessage) :
    pushBody (s, sent) = .spin := by
  have hS := hh.2.1
  rw [pushBody_eq]
  · rw [fill, loop_spin (h.fillBody_hangs hh)]
  · rintro (⟨-, hS', -⟩ | ⟨-, hr⟩)
    · rw [hS] at hS'; cases hS'
    · have := (h.finished (h.finReceived hr)).2
      rw [hS] at this; cases this

/-- A call of `push` returns unless it hangs in its first pass. -/
theorem push_returns_iff (hcap : capacity < 2 ^ 64)
    (h : SenderRun capacity isn rto s acc sent cleared) :
    (∃ r, s.push = some r) ↔
      ¬ (s.curWinSize = 0 ∧ s.synSent = false ∧ s.input.isFinished = true) := by
  have hr := (h.inv hcap).ready
  constructor
  · rintro ⟨r, hp⟩ hh
    rw [push, loop_spin (hr.pushBody_hangs hh [])] at hp
    cases hp
  · intro hgo
    exact hr.push_isSome fun hz hS => Bool.eq_false_iff.2 fun hdone => hgo ⟨hz, hS, hdone⟩

/-- A stream closed before the first `push` still gets its SYN and FIN once a window is known. -/
theorem push_returns_iff_closed : ∃ s sent cleared, SenderRun 4 ⟨7⟩ 1000 s [] sent cleared ∧
    s.input.isFinished = true ∧ ∃ r, s.push = some r := by
  have h₀ : SenderRun 4 ⟨7⟩ 1000 _ _ _ _ := .start
  have h₁ : SenderRun 4 ⟨7⟩ 1000 _ _ _ _ := h₀.close.receive { windowSize := 5 } rfl
  exact ⟨_, _, _, h₁, rfl, (push_returns_iff (by decide) h₁).2 (by decide)⟩

/-- The writer closes before the first `push`: no number of passes is enough. -/
theorem push_hangs : ∃ s sent cleared, SenderRun 4 ⟨7⟩ 1000 s [] sent cleared ∧
    ∀ fuel, loop pushBody fuel (s, []) = none := by
  have h₀ : SenderRun 4 ⟨7⟩ 1000 _ _ _ _ := .start
  exact ⟨_, _, _, h₀.close,
    loop_spin ((h₀.close.inv (by decide)).ready.pushBody_hangs (by decide) [])⟩

/-! ### The window -/

/-- The sender after it has transmitted a FIN alone. -/
def finished (s : TCPSender) : TCPSender :=
  { s with
    synSent := true
    fin := true
    finQueued := true
    msgQueue := s.msgQueue ++ [s.startMessage]
    bytesInQueue := s.bytesInQueue + 1 }

theorem length_startMessage (hS : s.synSent = true) (hF : s.setsFin = true) :
    s.startMessage.sequenceLength = 1 := by
  show (!s.synSent).toNat + 0 + s.setsFin.toNat = 1
  rw [hS, hF]; rfl

/-- With the FIN set before it there is nothing to do for the inner loop. -/
theorem fill_setsFin (hbuf : s.input.bytesBuffered = 0) (hlen : s.startMessage.sequenceLength = 1) :
    s.fill s.startMessage = some (s.input, s.startMessage) := by
  have hstop : s.Stops s.input s.startMessage := by
    by_cases hz : s.curWinSize = 0
    · exact .inr (.inl ⟨hz, hlen⟩)
    · exact .inl ⟨.inr (.inl hbuf), hz⟩
  rw [fill, loop, fillBody_eq, if_pos hstop]

/-- A pass that sets the FIN before it looks for bytes sends it alone, unless it has been sent. -/
theorem Ready.pushBody_setsFin (h : Ready s) (hS : s.synSent = true) (hF : s.setsFin = true)
    (sent : List TCPSenderMessage) : pushBody (s, sent) =
      if s.finQueued = true then .exit (s, sent)
      else .exit (s.finished, sent ++ [s.startMessage]) := by
  obtain ⟨hdone, hwin⟩ := startMessage_FIN hF
  have hbuf : s.input.bytesBuffered = 0 := h.stream.bytesInDeck_of_isFinished hdone
  have hlen := length_startMessage hS hF
  by_cases hr : s.finReceived = true
  · rw [if_pos (h.finReceived hr)]
    exact h.pushBody_returns sent (.inr ⟨by rw [hF, Bool.or_true], hr⟩)
  rw [pushBody_eq, fill_setsFin hbuf hlen]
  swap
  · rintro (⟨-, -, hF'⟩ | ⟨-, hr'⟩)
    · rw [hF, Bool.or_true] at hF'; cases hF'
    · exact hr hr'
  have hend : (s.begun s.input).endMessage s.startMessage = s.startMessage := by
    have hF' : s.startMessage.FIN = true := hF
    rw [endMessage, hF', Bool.true_or, ← hF']
  have hfin : (s.begun s.input).fin = true := by
    show (s.fin || s.setsFin) = true
    rw [hF, Bool.or_true]
  dsimp only
  rcases (s.begun s.input).pushEnd_cases (m := s.startMessage) (fun _ => hfin) with
    ⟨hret, hpe⟩ | ⟨hret, hpe⟩ <;> rw [hpe, hend] <;> rw [hend] at hret
  · -- only a FIN sent before keeps this one back
    have hq : s.finQueued = true := by
      rcases hret with ⟨-, hq⟩ | ⟨hlt, hw⟩ | ⟨-, -, hF'⟩
      · exact hq
      · exact absurd (hwin hw) (Nat.not_le.2 hlt)
      · rw [hfin] at hF'; cases hF'
    have hsame : ((s.begun s.input).fin || s.startMessage.FIN) = s.fin := by
      rw [hfin, Bool.true_or, h.fin, hq]
    rw [if_pos hq]
    dsimp only
    rw [hsame, begun, ← hS]
  · have hq : s.finQueued = false := Bool.eq_false_iff.2 fun hq => hret (.inl ⟨hF, hq⟩)
    have hF' : s.startMessage.FIN = true := hF
    rw [hq, if_neg Bool.false_ne_true]
    dsimp only
    rw [if_pos (.inl hbuf), hfin, hlen, hF', Bool.true_or, Bool.or_true]
    rfl

/-- A FIN without payload ends a stream that was finished before. -/
theorem Transmits.isFinished (ht : Transmits s m s') (hwf : s.input.Wf) (hne : m.payload = [])
    (hF : m.FIN = true) : s.input.isFinished = true := by
  have hp := ht.popped
  rw [hne, List.length_nil] at hp
  have hc := (isFinished_iff hp.wf).1 (ht.fin hF).2
  rw [isFinished_iff hwf]
  simp only [bytesPopped, bytesPushed] at hc ⊢
  have := hp.totalPopped
  have := hp.totalPushed
  exact ⟨hp.isClosed ▸ hc.1, by omega⟩

/-- What a message leaves in flight, when `push` neither hangs nor overruns. -/
theorem Ready.transmits_fits (h : Ready s) (hB : s.bytesInQueue = span s.msgQueue)
    (hgo : ¬ s.Hangs) (hfin : ¬ s.Overruns) (ht : Transmits s m s')
    (hpass : s.synSent = true → s.setsFin = true → s.finQueued = false) :
    s.inFlightWith m ≤ max s.curWinSize 1 := by
  by_cases hz : s.curWinSize = 0
  swap
  · have := ht.window hz
    omega
  have hset := Ready.setsFin_of_zero hz
  by_cases hne : m.payload = []
  swap
  · -- a byte is only sent as a probe, with nothing in flight
    obtain ⟨hq, h1⟩ := ht.probe hz hne
    rw [hq, span_nil] at hB
    rw [inFlightWith, sequenceNumbersInFlight]
    omega
  have hlen : m.sequenceLength = m.SYN.toNat + m.payload.length + m.FIN.toNat := rfl
  rw [hne, List.length_nil, ht.syn] at hlen
  have hdone := ht.isFinished h.stream hne
  rw [inFlightWith, sequenceNumbersInFlight]
  cases hS : s.synSent with
  | false =>
    have hB := (h.unsent hS).2
    have hF : m.FIN = false := Bool.eq_false_iff.2 fun hF => hgo ⟨hz, hS, hdone hF⟩
    rw [hS, hF, Bool.not_false, Bool.toNat_true, Bool.toNat_false] at hlen
    omega
  | true =>
    rw [hS, Bool.not_true, Bool.toNat_false] at hlen
    cases hF : m.FIN with
    | true =>
      have hB : s.bytesInQueue = 0 := by
        by_contra hne
        exact hfin ⟨hz, hdone hF, (ht.fin hF).1, Nat.pos_of_ne_zero hne⟩
      rw [hF, Bool.toNat_true] at hlen
      omega
    | false =>
      -- nothing is sent after the FIN
      rw [hF, Bool.toNat_false] at hlen
      have hq := ht.empty hlen
      have := hpass hS (hset.trans (h.finished hq).1)
      rw [hq] at this; cases this

theorem fits_nil : Fits w n [] := fun pre m post h => by simp at h

theorem Fits.snoc (h : Fits w n out) (hm : n + span (out ++ [m]) ≤ max w 1) :
    Fits w n (out ++ [m]) := by
  intro pre x post hpre
  rcases List.eq_nil_or_concat post with rfl | ⟨post, y, rfl⟩
  · obtain ⟨rfl, rfl⟩ : out = pre ∧ m = x := by simpa using List.append_inj' hpre rfl
    exact hm
  · refine h pre x post ?_
    have : out ++ [m] = (pre ++ x :: post) ++ [y] := by rw [hpre]; simp
    exact (List.append_inj' this rfl).1

/-- What is in flight in the middle of a call of `push`. -/
structure Flying (s : TCPSender) (out : List TCPSenderMessage) (t : TCPSender) : Prop where
  ready : Ready t
  queue : t.bytesInQueue = span t.msgQueue
  window : t.curWinSize = s.curWinSize
  inFlight : t.bytesInQueue = s.bytesInQueue + span out
  fits : Fits s.curWinSize s.bytesInQueue out

theorem Flying.step {t t' : TCPSender} (h : Flying s out t) (hgo : ¬ t.Hangs)
    (hfin : ¬ t.Overruns) (ht : Transmits t m t')
    (hpass : t.synSent = true → t.setsFin = true → t.finQueued = false) :
    Flying s (out ++ [m]) t' := by
  have hm := h.ready.transmits_fits h.queue hgo hfin ht hpass
  rw [inFlightWith, sequenceNumbersInFlight, h.inFlight, h.window] at hm
  have hB : t'.bytesInQueue = t.bytesInQueue + m.sequenceLength := by rw [ht.state]
  have hQ : t'.msgQueue = t.msgQueue ++ [m] := by rw [ht.state]
  have hW : t'.curWinSize = t.curWinSize := by rw [ht.state]
  refine ⟨ht.ready h.ready, ?_, hW.trans h.window, ?_, h.fits.snoc ?_⟩
  · rw [hB, hQ, h.queue, span_append, span_cons, span_nil]; omega
  · rw [hB, h.inFlight, span_append, span_cons, span_nil]; omega
  · rw [span_append, span_cons, span_nil]; omega

/-- A pass that transmits has not found the FIN sent before. -/
theorem Ready.finQueued_of_pushBody {u : TCPSender} (h : Ready s)
    (hb : pushBody (s, sent) = .exit (u, sent ++ [m]) ∨ pushBody (s, sent) = .next (u, sent ++ [m]))
    (hS : s.synSent = true) (hF : s.setsFin = true) : s.finQueued = false := by
  by_contra hq
  rw [h.pushBody_setsFin hS hF, if_pos (Bool.not_eq_false _ ▸ hq)] at hb
  exact hb.elim exit_append_ne fun hb => by cases hb

theorem Ready.push_fits (h : Ready s) (hB : s.bytesInQueue = span s.msgQueue) (hgo : ¬ s.Hangs)
    (hfin : ¬ s.Overruns) (hp : s.push = some (s', out)) :
    Fits s.curWinSize s.bytesInQueue out := by
  refine h.push_rule (fun t out => Flying s out t ∧ ¬ t.Hangs ∧ ¬ t.Overruns)
    (fun _ out => Fits s.curWinSize s.bytesInQueue out) ⟨⟨h, hB, rfl, rfl, fits_nil⟩, hgo, hfin⟩
    ?_ ?_ (fun _ _ _ hi _ => hi.1.fits) hp
  · rintro t out m t' ht ⟨hfly, hgo, hfin⟩ hu hb hmore
    have hopen : t'.input.isFinished ≠ true := fun hdone =>
      hmore (hu.popped.wf.bytesInDeck_of_isFinished hdone)
    exact ⟨hfly.step hgo hfin hu (ht.finQueued_of_pushBody (.inr hb)), fun hh => hopen hh.2.2,
      fun hh => hopen hh.2.1⟩
  · rintro t out m t' ht ⟨hfly, hgo, hfin⟩ hu hb
    exact (hfly.step hgo hfin hu (ht.finQueued_of_pushBody (.inl hb))).fits

/-- Every message that a call of `push` transmits fits into the window, unless the FIN overruns it. -/
theorem push_fits_iff (hcap : capacity < 2 ^ 64)
    (h : SenderRun capacity isn rto s acc sent cleared) (hp : s.push = some (s', out)) :
    (∀ pre m post, out = pre ++ m :: post →
      s.sequenceNumbersInFlight + span (pre ++ [m]) ≤ max s.curWinSize 1) ↔
      ¬ (s.curWinSize = 0 ∧ s.input.isFinished = true ∧ s.finQueued = false ∧
        0 < s.sequenceNumbersInFlight) := by
  have hi := h.inv hcap
  have hgo : ¬ s.Hangs := (push_returns_iff hcap h).1 ⟨_, hp⟩
  constructor
  · rintro hfit ⟨hz, hdone, hq, hfly⟩
    have hS : s.synSent = true := by
      cases hS : s.synSent with
      | true => rfl
      | false =>
        have := (hi.ready.unsent hS).2
        rw [sequenceNumbersInFlight] at hfly
        omega
    have hF : s.setsFin = true := (Ready.setsFin_of_zero hz).trans hdone
    have hbody := hi.ready.pushBody_setsFin hS hF []
    rw [hq, if_neg Bool.false_ne_true] at hbody
    rw [push, loop, hbody] at hp
    cases hp
    have := hfit [] s.startMessage [] rfl
    rw [List.nil_append, span_cons, span_nil, length_startMessage hS hF] at this
    omega
  · exact fun hfin => hi.ready.push_fits hi.inFlight hgo hfin hp

/-- A window of two lets two bytes through. -/
theorem push_fits_iff_ab : ∃ s sent cleared s' out, SenderRun 4 ⟨7⟩ 1000 s [1, 2, 3] sent cleared ∧
    s.push = some (s', out) ∧ out.length = 1 ∧
    ∀ pre m post, out = pre ++ m :: post →
      s.sequenceNumbersInFlight + span (pre ++ [m]) ≤ max s.curWinSize 1 := by
  have h₀ : SenderRun 4 ⟨7⟩ 1000 _ _ _ _ := .start
  have h₁ := h₀.push rfl
  have h₂ : SenderRun 4 ⟨7⟩ 1000
      { input := { capacity := 4 }, isn := ⟨7⟩, initialRTO := 1000, synSent := true, curWinSize := 2 }
      [] _ _ := h₁.receive { ackno := some ⟨8⟩, windowSize := 2 } (by decide)
  have h₃ := h₂.write [1, 2, 3]
  exact ⟨_, _, _, _, _, h₃, rfl, rfl, (push_fits_iff (by decide) h₃ rfl).2 (by decide)⟩

/-- The SYN is in flight and no window has been advertised; the FIN goes out all the same. -/
theorem push_overruns : ∃ s sent cleared s' out, SenderRun 4 ⟨7⟩ 1000 s [] sent cleared ∧
    s.push = some (s', out) ∧ s.curWinSize = 0 ∧
    ∃ m, out = [m] ∧ s.sequenceNumbersInFlight + span [m] = 2 := by
  have h₀ : SenderRun 4 ⟨7⟩ 1000 _ _ _ _ := .start
  have h₁ := (h₀.push rfl).close
  exact ⟨_, _, _, _, _, h₁, rfl, rfl, _, rfl, rfl⟩

end Minnow.TCPSender
