import Mathlib.Tactic.ByContra
import Minnow.TCPSender

/-!
# One pass of `push`

A pass of the outer loop either returns and leaves the sender as it is, or transmits and queues
exactly one message (`pushBody_cases`, `Transmits`). The inner loop moves bytes from the stream into
the message and never overfills the window (`fill_spec`).
-/

namespace Minnow.TCPSender
open Prog ByteStream

variable {s s' : TCPSender} {m msg : TCPSenderMessage} {input : ByteStream}
  {sent sent' : List TCPSenderMessage} {n : Nat}

/-! ### The inner loop -/

/-- A message with more bytes in it. -/
def withPayload (m : TCPSenderMessage) (xs : Bytes) : TCPSenderMessage :=
  { m with payload := m.payload ++ xs }

theorem sequenceLength_withPayload (m : TCPSenderMessage) (xs : Bytes) :
    (withPayload m xs).sequenceLength = m.sequenceLength + xs.length := by
  simp only [withPayload, TCPSenderMessage.sequenceLength, List.length_append]; omega

/-- What the passes of the inner loop have done: `n` bytes have gone from the stream into the
message. A byte is only ever taken when the window has room for it; with a window of zero that is one
byte, with an empty queue. -/
structure Filled (s : TCPSender) (m : TCPSenderMessage) (n : Nat) (input : ByteStream)
    (m' : TCPSenderMessage) : Prop where
  popped : Popped s.input n input
  bound : n ≤ s.input.bytesBuffered
  msg : m' = withPayload m (s.input.queued.take n)
  same : n = 0 → input = s.input
  window : s.curWinSize ≠ 0 → 0 < n → s.inFlightWith m' ≤ s.curWinSize
  zero : s.curWinSize = 0 → 0 < n → n = 1 ∧ m'.sequenceLength = 1 ∧ s.msgQueue = []

theorem Filled.length (h : Filled s m n input msg) (hwf : s.input.Wf) :
    msg.sequenceLength = m.sequenceLength + n := by
  have := hwf.buffered
  have := h.bound
  rw [bytesBuffered] at this
  rw [h.msg, sequenceLength_withPayload, List.length_take]
  omega

/-- The bytes that a pass of the inner loop may take. -/
def remaining (s : TCPSender) (m : TCPSenderMessage) : Nat :=
  if s.curWinSize = 0 then 1 else min (sub64 s.curWinSize (s.inFlightWith m)) maxPayloadSize

/-- The three tests that end the inner loop. -/
def Stops (s : TCPSender) (input : ByteStream) (msg : TCPSenderMessage) : Prop :=
  ((s.inFlightWith msg ≥ s.curWinSize ∨ input.bytesBuffered = 0 ∨
      msg.payload.length = maxPayloadSize) ∧ s.curWinSize ≠ 0) ∨
    (s.curWinSize = 0 ∧ msg.sequenceLength = 1) ∨ (s.curWinSize = 0 ∧ s.msgQueue ≠ [])

instance (s : TCPSender) (input : ByteStream) (msg : TCPSenderMessage) :
    Decidable (s.Stops input msg) :=
  inferInstanceAs (Decidable (_ ∨ _ ∨ _))

theorem fillBody_eq (s : TCPSender) (input : ByteStream) (msg : TCPSenderMessage) :
    s.fillBody (input, msg) =
      if s.Stops input msg then .exit (input, msg)
      else if input.peek.take (s.remaining msg) = [] then .spin
      else
        match input.pop (input.peek.take (s.remaining msg)).length with
        | none => .spin
        | some i => .next (i, withPayload msg (input.peek.take (s.remaining msg))) := by
  rw [fillBody]
  by_cases h1 : (s.inFlightWith msg ≥ s.curWinSize ∨ input.bytesBuffered = 0 ∨
      msg.payload.length = maxPayloadSize) ∧ s.curWinSize ≠ 0
  · rw [if_pos h1, if_pos (.inl h1)]
  by_cases h2 : s.curWinSize = 0 ∧ msg.sequenceLength = 1
  · rw [if_neg h1, if_pos h2, if_pos (.inr (.inl h2))]
  by_cases h3 : s.curWinSize = 0 ∧ s.msgQueue ≠ []
  · rw [if_neg h1, if_neg h2, if_pos h3, if_pos (.inr (.inr h3))]
  · rw [if_neg h1, if_neg h2, if_neg h3, if_neg (c := s.Stops input msg) (by
      rintro (h | h | h)
      exacts [h1 h, h2 h, h3 h])]
    rfl

/-- Everything a pass does that goes round again: it takes from the front chunk what `remaining`
allows. -/
structure Takes (s : TCPSender) (input : ByteStream) (msg : TCPSenderMessage) (input' : ByteStream)
    (msg' : TCPSenderMessage) : Prop where
  more : ¬ s.Stops input msg
  nonempty : input.peek.take (s.remaining msg) ≠ []
  pop : input.pop (input.peek.take (s.remaining msg)).length = some input'
  msg : msg' = withPayload msg (input.peek.take (s.remaining msg))

theorem fillBody_takes {input' : ByteStream} {msg' : TCPSenderMessage}
    (h : s.fillBody (input, msg) = .next (input', msg')) : Takes s input msg input' msg' := by
  rw [fillBody_eq] at h
  split at h
  · cases h
  next hmore =>
  split at h
  · cases h
  next hne =>
  split at h
  · cases h
  next i hpop =>
  cases h
  exact ⟨hmore, hne, hpop, rfl⟩

/-- A positive window has room for what a pass takes. -/
theorem Takes.room {input' : ByteStream} {msg' : TCPSenderMessage}
    (h : Takes s input msg input' msg') (hw : s.curWinSize ≠ 0) (hwin : s.curWinSize < 2 ^ 64) :
    s.inFlightWith msg < s.curWinSize ∧
      s.remaining msg = min (s.curWinSize - s.inFlightWith msg) maxPayloadSize := by
  have hroom : s.inFlightWith msg < s.curWinSize := by
    by_contra hge
    exact h.more (.inl ⟨.inl (by omega), hw⟩)
  refine ⟨hroom, ?_⟩
  rw [remaining, if_neg hw, sub64_of_le (Nat.le_of_lt hroom) hwin]

/-- A window of zero has room for a pass with nothing in flight and an empty message. -/
theorem Takes.probe {input' : ByteStream} {msg' : TCPSenderMessage}
    (h : Takes s input msg input' msg') (hz : s.curWinSize = 0) :
    s.remaining msg = 1 ∧ s.msgQueue = [] ∧ msg.sequenceLength ≠ 1 := by
  refine ⟨if_pos hz, ?_, fun h1 => h.more (.inr (.inl ⟨hz, h1⟩))⟩
  by_contra hq
  exact h.more (.inr (.inr ⟨hz, hq⟩))

theorem fillBody_next (hwf : s.input.Wf) (hwin : s.curWinSize < 2 ^ 64) (hpay : m.payload = [])
    (hfin : m.FIN = true → s.input.bytesBuffered = 0) {n : Nat} (hf : Filled s m n input msg)
    {input' : ByteStream} {msg' : TCPSenderMessage}
    (h : s.fillBody (input, msg) = .next (input', msg')) :
    ∃ n', Filled s m n' input' msg' ∧ input'.bytesBuffered < input.bytesBuffered := by
  have ht := fillBody_takes h
  have hwfi := hf.popped.wf
  have hpos := List.length_pos_iff.2 ht.nonempty
  obtain ⟨hcur, i, hi, hp⟩ := pop_view hwfi (s.remaining msg)
  cases hi.symm.trans ht.pop
  have hlek : (input.peek.take (s.remaining msg)).length ≤ s.remaining msg := List.length_take_le ..
  have hleb := hp.le hwfi
  have hlen' := sequenceLength_withPayload msg (input.peek.take (s.remaining msg))
  rw [← ht.msg] at hlen'
  generalize hc : (input.peek.take (s.remaining msg)).length = c at *
  have hbuf := hf.popped.bytesInDeck hwf
  have hbuf' := hp.bytesInDeck hwfi
  have hbound := hf.bound
  rw [bytesBuffered] at hbound
  have hlen := hf.length hwf
  have hmsg : msg' = withPayload m (s.input.queued.take (n + c)) := by
    rw [ht.msg, hcur, hf.msg, hf.popped.queued, withPayload, withPayload, withPayload,
      List.append_assoc, List.take_add]
  refine ⟨n + c, ⟨hf.popped.trans hp, by rw [bytesBuffered]; omega, hmsg, by omega, fun hw _ => ?_,
    fun hz _ => ?_⟩, by rw [bytesBuffered, bytesBuffered]; omega⟩
  · obtain ⟨hroom, hk⟩ := ht.room hw hwin
    simp only [inFlightWith] at hroom hk ⊢
    omega
  · obtain ⟨hk, hq, hne1⟩ := ht.probe hz
    have hn : n = 0 := by
      by_contra hn
      exact hne1 (hf.zero hz (by omega)).2.1
    have hm : m.sequenceLength = 0 := by
      have hF : m.FIN = false := by
        cases hF : m.FIN with
        | false => rfl
        | true => have := hfin hF; rw [bytesBuffered] at this; omega
      rw [hlen, hn] at hne1
      have hS := Bool.toNat_le m.SYN
      unfold TCPSenderMessage.sequenceLength at hne1 ⊢
      rw [hpay, hF, List.length_nil, Bool.toNat_false] at hne1 ⊢
      omega
    exact ⟨by omega, by omega, hq⟩

theorem fillBody_exit {r : ByteStream × TCPSenderMessage}
    (h : s.fillBody (input, msg) = .exit r) : s.Stops input msg ∧ r = (input, msg) := by
  rw [fillBody_eq] at h
  split at h
  next hstop => cases h; exact ⟨hstop, rfl⟩
  split at h
  · cases h
  split at h <;> cases h

theorem fill_stops (h : s.fill m = some (input, msg)) : s.Stops input msg := by
  refine loop_inv (fun _ => True) (fun p => s.Stops p.1 p.2) (fun _ _ _ _ => trivial) ?_ trivial h
  rintro ⟨i, x⟩ ⟨i', x'⟩ - hb
  obtain ⟨hstop, he⟩ := fillBody_exit hb
  cases he
  exact hstop

/-- A pass only hangs when there is nothing to take. -/
theorem fillBody_spin (hwf : input.Wf) (h : s.fillBody (input, msg) = .spin) :
    ¬ s.Stops input msg ∧ input.peek.take (s.remaining msg) = [] := by
  rw [fillBody_eq] at h
  split at h
  · cases h
  next hmore =>
  refine ⟨hmore, ?_⟩
  by_contra hne
  rw [if_neg hne] at h
  obtain ⟨-, i, hi, -⟩ := pop_view hwf (s.remaining msg)
  rw [hi] at h
  cases h

theorem Filled.refl (hwf : s.input.Wf) : Filled s m 0 s.input m :=
  ⟨.refl hwf, Nat.zero_le _, by simp [withPayload], fun _ => rfl, fun _ h => absurd h (by omega),
    fun _ h => absurd h (by omega)⟩

theorem fill_spec (hwf : s.input.Wf) (hwin : s.curWinSize < 2 ^ 64) (hpay : m.payload = [])
    (hfin : m.FIN = true → s.input.bytesBuffered = 0) (h : s.fill m = some (input, msg)) :
    ∃ n, Filled s m n input msg := by
  refine loop_inv (fun p => ∃ n, Filled s m n p.1 p.2) (fun p => ∃ n, Filled s m n p.1 p.2)
    ?_ ?_ ⟨0, Filled.refl hwf⟩ h
  · rintro ⟨i, x⟩ ⟨i', x'⟩ ⟨n, hf⟩ hb
    obtain ⟨n', hf', -⟩ := fillBody_next hwf hwin hpay hfin hf hb
    exact ⟨n', hf'⟩
  · rintro ⟨i, x⟩ ⟨i', x'⟩ ⟨n, hf⟩ hb
    cases (fillBody_exit hb).2
    exact ⟨n, hf⟩

/-- The inner loop ends, except on a message of two sequence numbers with nothing to send and a
window of zero. -/
theorem fill_isSome (hwf : s.input.Wf) (hwin : s.curWinSize < 2 ^ 64) (hpay : m.payload = [])
    (hfin : m.FIN = true → s.input.bytesBuffered = 0)
    (hone : s.curWinSize = 0 → s.msgQueue = [] → s.input.bytesBuffered = 0 →
      m.sequenceLength = 1) : ∃ r, s.fill m = some r := by
  refine loop_isSome (fun p => ∃ n, Filled s m n p.1 p.2) (fun p => p.1.bytesBuffered) ?_ ?_
    ⟨0, Filled.refl hwf⟩ (Nat.lt_succ_self _)
  · rintro ⟨i, x⟩ ⟨i', x'⟩ ⟨n, hf⟩ hb
    obtain ⟨n', hf', hlt⟩ := fillBody_next hwf hwin hpay hfin hf hb
    exact ⟨⟨n', hf'⟩, hlt⟩
  · rintro ⟨i, x⟩ ⟨n, hf⟩ hb
    dsimp only at hf
    have hwfi := hf.popped.wf
    obtain ⟨hmore, hnil⟩ := fillBody_spin hwfi hb
    -- with nothing left to send a positive window stops the loop, and so does a message of length 1
    have hbuf : 0 < i.bytesBuffered := by
      refine Nat.pos_of_ne_zero fun h0 => hmore ?_
      by_cases hz : s.curWinSize = 0
      · by_cases hq : s.msgQueue = []
        · by_cases hn : n = 0
          · have hsame := hf.same hn
            have hlen := hf.length hwf
            rw [hn, Nat.add_zero, hone hz hq (hsame ▸ h0)] at hlen
            exact .inr (.inl ⟨hz, hlen⟩)
          · exact .inr (.inl ⟨hz, (hf.zero hz (by omega)).2.1⟩)
        · exact .inr (.inr ⟨hz, hq⟩)
      · exact .inl ⟨.inr (.inl h0), hz⟩
    have hkpos : s.remaining x ≠ 0 := by
      unfold remaining
      split
      · omega
      next hz =>
        have hroom : s.inFlightWith x < s.curWinSize := by
          by_contra hge
          exact hmore (.inl ⟨.inl (by omega), hz⟩)
        rw [sub64_of_le (Nat.le_of_lt hroom) hwin, maxPayloadSize]; omega
    exact (List.take_eq_nil_iff.1 hnil).elim hkpos ((peek_ne_nil_iff hwfi).2 hbuf)

/-! ### A pass of the outer loop -/

/-- What the flags of a sender have to do with one another between two passes. -/
structure Ready (s : TCPSender) : Prop where
  stream : s.input.Wf
  window : s.curWinSize < 2 ^ 64
  fin : s.fin = s.finQueued
  finished : s.finQueued = true → s.input.isFinished = true ∧ s.synSent = true
  finReceived : s.finReceived = true → s.finQueued = true
  unsent : s.synSent = false → s.msgQueue = [] ∧ s.bytesInQueue = 0

/-- A pass sets the FIN before it looks for bytes. -/
def setsFin (s : TCPSender) : Bool :=
  s.input.isFinished &&
    (decide (s.inFlightWith { SYN := !s.synSent } < s.curWinSize) || decide (s.curWinSize = 0))

/-- The message with which a pass gets to the inner loop. -/
def startMessage (s : TCPSender) : TCPSenderMessage where
  seqno := s.isn + (s.input.totalPopped + s.synSent.toNat)
  SYN := !s.synSent
  FIN := s.setsFin
  RST := s.input.hasError

theorem pushStart_eq (s : TCPSender) : s.pushStart =
    ({ s with synSent := true, fin := s.fin || s.setsFin },
      if (s.input.bytesBuffered = 0 ∧ s.synSent = true ∧ (s.fin || s.setsFin) = false) ∨
        ((s.fin || s.setsFin) = true ∧ s.finReceived = true) then none else some s.startMessage) := by
  unfold pushStart
  dsimp only
  change (if (_ && !(!s.synSent) && !(s.fin || s.setsFin)) || ((s.fin || s.setsFin) && _) then _
    else _) = _
  simp only [Bool.not_not, Bool.or_eq_true, Bool.and_eq_true, decide_eq_true_eq, Bool.not_eq_true',
    and_assoc, true_and]
  split
  · rfl
  · have : (if s.synSent = true then s.isn + s.input.bytesPopped + 1
        else s.isn + s.input.bytesPopped) = s.isn + (s.input.totalPopped + s.synSent.toNat) := by
      cases s.synSent <;> simp [Wrap32.add_add]
    rw [startMessage, ← this]
    rfl

theorem startMessage_FIN (h : s.startMessage.FIN = true) : s.input.isFinished = true ∧
    (s.curWinSize ≠ 0 → s.inFlightWith s.startMessage ≤ s.curWinSize) := by
  have hset : s.setsFin = true := h
  unfold setsFin at hset
  simp only [Bool.and_eq_true, Bool.or_eq_true, decide_eq_true_eq] at hset
  refine ⟨hset.1, fun hw => ?_⟩
  have := hset.2.resolve_right hw
  have hlen : s.inFlightWith s.startMessage = s.inFlightWith { SYN := !s.synSent } + 1 := by
    simp only [inFlightWith, TCPSenderMessage.sequenceLength, h]
    show (!s.synSent).toNat + 0 + 1 + _ = (!s.synSent).toNat + 0 + 0 + _ + 1
    omega
  omega

/-- Everything a pass that transmits a message does. -/
structure Transmits (s : TCPSender) (m : TCPSenderMessage) (s' : TCPSender) : Prop where
  popped : Popped s.input m.payload.length s'.input
  payload : m.payload = s.input.queued.take m.payload.length
  syn : m.SYN = !s.synSent
  seqno : m.seqno = s.isn + (s.input.totalPopped + s.synSent.toNat)
  rst : m.RST = s.input.hasError
  fin : m.FIN = true → s.finQueued = false ∧ s'.input.isFinished = true
  empty : m.sequenceLength = 0 → s.finQueued = true
  window : s.curWinSize ≠ 0 → s.inFlightWith m ≤ s.curWinSize
  probe : s.curWinSize = 0 → m.payload ≠ [] → s.msgQueue = [] ∧ m.sequenceLength = 1
  state : s' = { s with
    input := s'.input
    synSent := true
    fin := s.fin || m.FIN
    finQueued := s.finQueued || m.FIN
    msgQueue := s.msgQueue ++ [m]
    bytesInQueue := s.bytesInQueue + m.sequenceLength }

/-- The sender in which the inner loop runs, and ends with `input`. -/
def begun (s : TCPSender) (input : ByteStream) : TCPSender :=
  { s with input, synSent := true, fin := s.fin || s.setsFin }

/-- The message as it stands after the inner loop, with the FIN if it still fits. -/
def endMessage (s : TCPSender) (m : TCPSenderMessage) : TCPSenderMessage :=
  { m with FIN := m.FIN || (s.input.isFinished && decide (s.inFlightWith m < s.curWinSize)) }

/-- The reasons to return after the inner loop. -/
def Declines (s : TCPSender) (m : TCPSenderMessage) : Prop :=
  (m.FIN = true ∧ s.finQueued = true) ∨ (s.curWinSize < s.inFlightWith m ∧ s.curWinSize ≠ 0) ∨
    (m.payload = [] ∧ m.SYN = false ∧ (s.fin || m.FIN) = false)

theorem pushEnd_cases (s : TCPSender) (hfin : m.FIN = true → s.fin = true) :
    (s.Declines (s.endMessage m) ∧
      s.pushEnd m = ({ s with fin := s.fin || (s.endMessage m).FIN }, none)) ∨
    (¬ s.Declines (s.endMessage m) ∧ s.pushEnd m =
      ({ s with
        fin := s.fin || (s.endMessage m).FIN
        finQueued := s.finQueued || (s.endMessage m).FIN
        msgQueue := s.msgQueue ++ [s.endMessage m]
        bytesInQueue := s.bytesInQueue + (s.endMessage m).sequenceLength },
        some (s.endMessage m))) := by
  have hor : (s.fin || (s.input.isFinished && decide (s.inFlightWith m < s.curWinSize))) =
      (s.fin || (s.endMessage m).FIN) := by
    show _ = (s.fin || (m.FIN || _))
    cases hm : m.FIN with
    | false => rw [Bool.false_or]
    | true => rw [hfin hm]; rfl
  have heq : s.pushEnd m =
      if (((s.endMessage m).FIN && s.finQueued) ||
        (decide (s.inFlightWith (s.endMessage m) > s.curWinSize) && decide (s.curWinSize ≠ 0)) ||
        ((s.endMessage m).payload.isEmpty && !(s.endMessage m).SYN &&
          !(s.fin || (s.endMessage m).FIN))) = true then
        ({ s with fin := s.fin || (s.endMessage m).FIN }, none)
      else
        ({ s with
          fin := s.fin || (s.endMessage m).FIN
          finQueued := s.finQueued || (s.endMessage m).FIN
          msgQueue := s.msgQueue ++ [s.endMessage m]
          bytesInQueue := s.bytesInQueue + (s.endMessage m).sequenceLength },
          some (s.endMessage m)) := by
    rw [TCPSender.pushEnd]
    dsimp only
    rw [hor]
    rfl
  rw [heq]
  split
  next hret =>
    refine .inl ⟨?_, rfl⟩
    simpa only [Declines, Bool.or_eq_true, Bool.and_eq_true, decide_eq_true_eq, Bool.not_eq_true',
      and_assoc, or_assoc, List.isEmpty_iff] using hret
  next hret =>
    refine .inr ⟨fun hd => hret ?_, rfl⟩
    simpa only [Declines, Bool.or_eq_true, Bool.and_eq_true, decide_eq_true_eq, Bool.not_eq_true',
      and_assoc, or_assoc, List.isEmpty_iff] using hd

/-- The FIN, whether set before or after the inner loop, comes when nothing is left to send, and fits
into a window that is not zero. -/
theorem Ready.endMessage_FIN (h : Ready s) {n : Nat} (hf : Filled s s.startMessage n input msg)
    (he : ((s.begun input).endMessage msg).FIN = true) : input.isFinished = true ∧
      (s.curWinSize ≠ 0 → s.inFlightWith ((s.begun input).endMessage msg) ≤ s.curWinSize) := by
  cases hm : msg.FIN with
  | true =>
    have hstart : s.startMessage.FIN = true := by rw [hf.msg] at hm; exact hm
    obtain ⟨hdone, hwin⟩ := startMessage_FIN hstart
    have hn : n = 0 := by
      have := h.stream.bytesInDeck_of_isFinished hdone
      have := hf.bound
      rw [bytesBuffered] at this
      omega
    have hmsg : (s.begun input).endMessage msg = s.startMessage := by
      have : msg = s.startMessage := by rw [hf.msg, hn]; simp [withPayload]
      rw [endMessage, hm, this, Bool.true_or, ← hstart]
    rw [hmsg, hf.same hn]
    exact ⟨hdone, hwin⟩
  | false =>
    have hset : (false || (input.isFinished && decide (s.inFlightWith msg < s.curWinSize))) = true :=
      hm ▸ he
    simp only [Bool.false_or, Bool.and_eq_true, decide_eq_true_eq] at hset
    refine ⟨hset.1, fun _ => ?_⟩
    have hlen : ((s.begun input).endMessage msg).sequenceLength = msg.sequenceLength + 1 := by
      simp only [TCPSenderMessage.sequenceLength, he, hm]
      show msg.SYN.toNat + msg.payload.length + 1 = msg.SYN.toNat + msg.payload.length + 0 + 1
      omega
    have := hset.2
    simp only [inFlightWith] at this ⊢
    omega

theorem endMessage_length (s : TCPSender) (m : TCPSenderMessage) :
    (s.endMessage m).sequenceLength =
      m.SYN.toNat + m.payload.length + (s.endMessage m).FIN.toNat := rfl

theorem Filled.length_payload (h : Filled s s.startMessage n input msg) (hwf : s.input.Wf) :
    msg.payload.length = n := by
  have := h.bound
  rw [bytesBuffered, hwf.buffered] at this
  rw [h.msg]
  show (s.input.queued.take n).length = n
  rw [List.length_take]; omega

theorem Filled.begun_fin (h : Filled s s.startMessage n input msg) (hF : msg.FIN = true) :
    (s.begun input).fin = true := by
  rw [h.msg] at hF
  show (s.fin || s.setsFin) = true
  rw [show s.setsFin = true from hF, Bool.or_true]

theorem Filled.begun_fin_or (h : Filled s s.startMessage n input msg) :
    ((s.begun input).fin || ((s.begun input).endMessage msg).FIN) =
      (s.fin || ((s.begun input).endMessage msg).FIN) := by
  have hF : msg.FIN = s.setsFin := by rw [h.msg]; rfl
  show (s.fin || s.setsFin || (msg.FIN || _)) = (s.fin || (msg.FIN || _))
  rw [hF]
  cases s.fin <;> cases s.setsFin <;> rfl

/-- A pass that returns after the inner loop has taken nothing from the stream and set no flag that
was not set. -/
theorem Ready.declines (h : Ready s) (hf : Filled s s.startMessage n input msg)
    (hret : (s.begun input).Declines ((s.begun input).endMessage msg)) :
    { s.begun input with
      fin := (s.begun input).fin || ((s.begun input).endMessage msg).FIN } = s := by
  have hends := h.endMessage_FIN hf
  have hlen := endMessage_length (s.begun input) msg
  have hn := hf.length_payload h.stream
  have hsyn : msg.SYN = !s.synSent := by rw [hf.msg]; rfl
  have hflag := hf.begun_fin_or
  have back : n = 0 → s.synSent = true →
      (s.fin || ((s.begun input).endMessage msg).FIN) = s.fin → { s.begun input with
        fin := (s.begun input).fin || ((s.begun input).endMessage msg).FIN } = s := by
    intro h0 hS hF
    rw [hflag, hF, begun, hf.same h0, ← hS]
  rw [Declines, hflag] at hret
  rcases hret with ⟨hF, (hq : s.finQueued = true)⟩ |
    ⟨(hwin : s.curWinSize < s.inFlightWith _), (hw : s.curWinSize ≠ 0)⟩ |
    ⟨(hempty : msg.payload = []), (hS : msg.SYN = false), hF⟩
  · obtain ⟨hdone, hS⟩ := h.finished hq
    refine back ?_ hS (by rw [h.fin, hq, Bool.true_or])
    have := h.stream.bytesInDeck_of_isFinished hdone
    have := hf.bound
    rw [bytesBuffered] at this
    omega
  · -- the FIN fits and the bytes fit, so that the SYN alone would have to be too much
    have hF : ((s.begun input).endMessage msg).FIN = false :=
      Bool.eq_false_iff.2 fun hF => by have := (hends hF).2 hw; omega
    have hmsg : msg.sequenceLength = msg.SYN.toNat + msg.payload.length + msg.FIN.toNat := rfl
    rw [hF, Bool.toNat_false] at hlen
    rw [(Bool.or_eq_false_iff.1 hF).1, Bool.toNat_false] at hmsg
    have h0 : n = 0 := by
      by_contra h0
      have := hf.window hw (Nat.pos_of_ne_zero h0)
      simp only [inFlightWith] at this hwin
      omega
    refine back h0 ?_ (by rw [hF, Bool.or_false])
    by_contra hS
    have hB := (h.unsent (Bool.eq_false_iff.2 hS)).2
    have hle := Bool.toNat_le msg.SYN
    simp only [inFlightWith, sequenceNumbersInFlight] at hwin
    omega
  · refine back (by rw [← hn, hempty]; rfl) (by simpa [hsyn] using hS) ?_
    rw [hF, (Bool.or_eq_false_iff.1 hF).1]

/-- A pass that does not return transmits the message. -/
theorem Ready.transmits (h : Ready s) (hf : Filled s s.startMessage n input msg)
    (hgo : ¬ (s.begun input).Declines ((s.begun input).endMessage msg)) :
    Transmits s ((s.begun input).endMessage msg) { s.begun input with
      fin := (s.begun input).fin || ((s.begun input).endMessage msg).FIN
      finQueued := s.finQueued || ((s.begun input).endMessage msg).FIN
      msgQueue := s.msgQueue ++ [(s.begun input).endMessage msg]
      bytesInQueue := s.bytesInQueue + ((s.begun input).endMessage msg).sequenceLength } := by
  have hends := h.endMessage_FIN hf
  have hlen := endMessage_length (s.begun input) msg
  have hn := hf.length_payload h.stream
  have hflag := hf.begun_fin_or
  rw [Declines, hflag] at hgo
  simp only [not_or, not_and] at hgo
  obtain ⟨hq, hwin, hempty⟩ := hgo
  rw [hflag]
  refine ⟨?_, ?_, ?_, ?_, ?_, fun hF => ⟨Bool.eq_false_iff.2 (hq hF), (hends hF).1⟩, fun h0 => ?_,
    fun hw => ?_, fun hz hne => ?_, rfl⟩
  · show Popped _ msg.payload.length _
    rw [hn]; exact hf.popped
  · show msg.payload = s.input.queued.take msg.payload.length
    rw [hn, hf.msg]; rfl
  · show msg.SYN = _
    rw [hf.msg]; rfl
  · show msg.seqno = _
    rw [hf.msg]; rfl
  · show msg.RST = _
    rw [hf.msg]; rfl
  · obtain ⟨hS, hF⟩ : msg.SYN.toNat = 0 ∧ ((s.begun input).endMessage msg).FIN.toNat = 0 := by omega
    rw [Bool.toNat_eq_zero] at hS hF
    have := hempty (List.length_eq_zero_iff.1 (show msg.payload.length = 0 by omega)) hS
    rw [← h.fin]; simpa [hF] using this
  · by_contra hlt
    exact hwin (Nat.lt_of_not_le hlt) hw
  · -- with a window of zero no FIN is added after the inner loop
    have hF : ((s.begun input).endMessage msg).FIN = msg.FIN := by
      show (msg.FIN || (_ && decide (_ < s.curWinSize))) = _
      rw [hz]; simp
    have hpos : 0 < n := hn ▸ List.length_pos_iff.2 hne
    obtain ⟨-, h1, hq'⟩ := hf.zero hz hpos
    exact ⟨hq', by rw [hlen, hF]; exact h1⟩

theorem Ready.pushEnd (h : Ready s) (hf : Filled s s.startMessage n input msg) :
    (s.begun input).pushEnd msg = (s, none) ∨
      ∃ m s', (s.begun input).pushEnd msg = (s', some m) ∧ Transmits s m s' := by
  rcases (s.begun input).pushEnd_cases hf.begun_fin with ⟨hret, hpe⟩ | ⟨hgo, hpe⟩
  · exact .inl (by rw [hpe, h.declines hf hret])
  · exact .inr ⟨_, _, hpe, h.transmits hf hgo⟩

theorem Transmits.ready (ht : Transmits s m s') (h : Ready s) : Ready s' := by
  have hsync : s.synSent = true → s.finQueued = true → s'.input.isFinished = true := by
    intro _ hq
    have hd := (isFinished_iff h.stream).1 (h.finished hq).1
    rw [isFinished_iff ht.popped.wf, ht.popped.isClosed]
    have := ht.popped.wf.pushed
    have := ht.popped.totalPushed
    have := ht.popped.totalPopped
    simp only [bytesPopped, bytesPushed] at hd ⊢
    exact ⟨hd.1, by omega⟩
  have hq' : (s.finQueued || m.FIN) = true → s'.input.isFinished = true := by
    intro hq
    rcases Bool.or_eq_true _ _ ▸ hq with hq | hF
    · exact hsync (h.finished hq).2 hq
    · exact (ht.fin hF).2
  rw [ht.state]
  exact ⟨ht.popped.wf, h.window, by simp only [h.fin], fun hq => ⟨hq' hq, rfl⟩,
    fun hr => by simp only [h.finReceived hr, Bool.true_or], fun hs => absurd hs (by simp)⟩

/-- A pass that does not return at once fills the message and goes on with it. -/
theorem pushBody_eq (sent : List TCPSenderMessage)
    (hgo : ¬ ((s.input.bytesBuffered = 0 ∧ s.synSent = true ∧ (s.fin || s.setsFin) = false) ∨
      ((s.fin || s.setsFin) = true ∧ s.finReceived = true))) :
    pushBody (s, sent) =
      match s.fill s.startMessage with
      | none => .spin
      | some (input, msg) =>
        match (s.begun input).pushEnd msg with
        | (s, none) => .exit (s, sent)
        | (s, some msg) =>
          if s.input.bytesBuffered = 0 ∨ s.sequenceNumbersInFlight = s.curWinSize then
            .exit (s, sent ++ [msg])
          else .next (s, sent ++ [msg]) := by
  unfold pushBody
  dsimp only
  rw [pushStart_eq, if_neg hgo]
  rfl

/-- A pass that transmits does not end as one that does not. -/
theorem exit_append_ne {u : TCPSender} :
    (.exit (s, sent) : Ctl (TCPSender × List TCPSenderMessage) _) ≠ .exit (u, sent ++ [m]) := by
  intro h
  have hlen := congrArg (fun p => p.2.length) (Ctl.exit.inj h)
  simp at hlen

/-- A pass that returns at once leaves the sender as it is. -/
theorem Ready.pushBody_returns (h : Ready s) (sent : List TCPSenderMessage)
    (hret : (s.input.bytesBuffered = 0 ∧ s.synSent = true ∧ (s.fin || s.setsFin) = false) ∨
      ((s.fin || s.setsFin) = true ∧ s.finReceived = true)) :
    pushBody (s, sent) = .exit (s, sent) := by
  have hstate : s.synSent = true ∧ (s.fin || s.setsFin) = s.fin := by
    rcases hret with ⟨-, hS, hF⟩ | ⟨-, hr⟩
    · exact ⟨hS, hF.trans (Bool.or_eq_false_iff.1 hF).1.symm⟩
    · have hq := h.finReceived hr
      exact ⟨(h.finished hq).2, by rw [h.fin, hq, Bool.true_or]⟩
  unfold pushBody
  dsimp only
  rw [pushStart_eq, if_pos hret]
  dsimp only
  rw [hstate.2, ← hstate.1]

/-- A FIN that is set before the inner loop finds nothing left to send. -/
theorem Ready.bytesBuffered_of_FIN (h : Ready s) (hF : s.startMessage.FIN = true) :
    s.input.bytesBuffered = 0 :=
  h.stream.bytesInDeck_of_isFinished (startMessage_FIN hF).1

theorem Ready.filled (h : Ready s) (hf : s.fill s.startMessage = some (input, msg)) :
    ∃ n, Filled s s.startMessage n input msg :=
  fill_spec h.stream h.window rfl h.bytesBuffered_of_FIN hf

/-- What one pass of the outer loop can do. Going round again, it leaves bytes in the stream. -/
theorem Ready.pushBody_cases (h : Ready s) (sent : List TCPSenderMessage) :
    pushBody (s, sent) = .exit (s, sent) ∨
    (∃ m s', Transmits s m s' ∧ (pushBody (s, sent) = .exit (s', sent ++ [m]) ∨
      (pushBody (s, sent) = .next (s', sent ++ [m]) ∧ s'.input.bytesBuffered ≠ 0))) ∨
    (pushBody (s, sent) = .spin ∧ s.fill s.startMessage = none ∧
      ¬ (s.input.bytesBuffered = 0 ∧ s.synSent = true ∧ (s.fin || s.setsFin) = false)) := by
  by_cases hret : (s.input.bytesBuffered = 0 ∧ s.synSent = true ∧ (s.fin || s.setsFin) = false) ∨
      ((s.fin || s.setsFin) = true ∧ s.finReceived = true)
  · exact .inl (h.pushBody_returns sent hret)
  have hbody := pushBody_eq sent hret
  cases hf : s.fill s.startMessage with
  | none =>
    rw [hf] at hbody
    exact .inr (.inr ⟨hbody, rfl, fun hc => hret (.inl hc)⟩)
  | some r =>
    obtain ⟨input, msg⟩ := r
    rw [hf] at hbody
    obtain ⟨n, hfilled⟩ := h.filled hf
    rcases h.pushEnd hfilled with he | ⟨m, s', he, ht⟩
    · exact .inl (by rw [hbody]; dsimp only; rw [he])
    · refine .inr (.inl ⟨m, s', ht, ?_⟩)
      rw [hbody]
      dsimp only
      rw [he]
      dsimp only
      split
      · exact .inl rfl
      next hgo => exact .inr ⟨rfl, fun h0 => hgo (.inl h0)⟩

/-- A pass ends by itself or at one of the tests after the inner loop. -/
theorem Ready.pushBody_quits (h : Ready s) (hb : pushBody (s, sent) = .exit (s', sent)) :
    ((s.input.bytesBuffered = 0 ∧ s.synSent = true ∧ (s.fin || s.setsFin) = false) ∨
      ((s.fin || s.setsFin) = true ∧ s.finReceived = true)) ∨
    ∃ input msg n, s.fill s.startMessage = some (input, msg) ∧
      Filled s s.startMessage n input msg ∧
      (s.begun input).Declines ((s.begun input).endMessage msg) := by
  by_cases hret : (s.input.bytesBuffered = 0 ∧ s.synSent = true ∧ (s.fin || s.setsFin) = false) ∨
      ((s.fin || s.setsFin) = true ∧ s.finReceived = true)
  · exact .inl hret
  rw [pushBody_eq sent hret] at hb
  cases hf : s.fill s.startMessage with
  | none => rw [hf] at hb; cases hb
  | some r =>
    obtain ⟨input, msg⟩ := r
    obtain ⟨n, hn⟩ := h.filled hf
    rw [hf] at hb
    rcases (s.begun input).pushEnd_cases hn.begun_fin with ⟨hd, -⟩ | ⟨-, hpe⟩
    · exact .inr ⟨input, msg, n, rfl, hn, hd⟩
    · simp only [hpe] at hb
      split at hb
      · exact (exit_append_ne hb.symm).elim
      · cases hb

/-- A pass that transmits sends what the inner loop has filled, and says why it returns. -/
theorem Ready.pushBody_sends (h : Ready s) (hb : pushBody (s, sent) = .exit (s', sent ++ [m]) ∨
    pushBody (s, sent) = .next (s', sent ++ [m])) :
    (∃ msg, s.fill s.startMessage = some (s'.input, msg) ∧
      m = (s.begun s'.input).endMessage msg) ∧
    (pushBody (s, sent) = .exit (s', sent ++ [m]) →
      s'.input.bytesBuffered = 0 ∨ s'.sequenceNumbersInFlight = s'.curWinSize) := by
  by_cases hgo : (s.input.bytesBuffered = 0 ∧ s.synSent = true ∧ (s.fin || s.setsFin) = false) ∨
      ((s.fin || s.setsFin) = true ∧ s.finReceived = true)
  · rw [h.pushBody_returns sent hgo] at hb
    exact hb.elim (fun hb => (exit_append_ne hb).elim) fun hb => by cases hb
  rw [pushBody_eq sent hgo] at hb ⊢
  cases hf : s.fill s.startMessage with
  | none => rw [hf] at hb; rcases hb with hb | hb <;> cases hb
  | some r =>
    obtain ⟨input, msg⟩ := r
    obtain ⟨n, hn⟩ := h.filled hf
    rw [hf] at hb
    rcases (s.begun input).pushEnd_cases hn.begun_fin with ⟨-, hpe⟩ | ⟨-, hpe⟩ <;>
      simp only [hpe] at hb ⊢
    · exact hb.elim (fun hb => (exit_append_ne hb).elim) fun hb => by cases hb
    · have hsent : ∀ {t : TCPSender}, t.input = input →
          (t, sent ++ [(s.begun input).endMessage msg]) = (s', sent ++ [m]) →
          ∃ x, some (input, msg) = some (s'.input, x) ∧ m = (s.begun s'.input).endMessage x := by
        intro t ht he
        obtain ⟨rfl, hm⟩ := Prod.mk.inj he
        exact ⟨msg, by rw [ht], by rw [ht, List.singleton_inj.1 (List.append_inj' hm rfl).2]⟩
      split at hb
      next htest =>
        rcases hb with hb | hb
        · obtain ⟨ht, -⟩ := Prod.mk.inj (Ctl.exit.inj hb)
          exact ⟨hsent rfl (Ctl.exit.inj hb), fun _ => ht ▸ htest⟩
        · cases hb
      next htest =>
        rcases hb with hb | hb
        · cases hb
        · rw [if_neg htest]
          exact ⟨hsent rfl (Ctl.next.inj hb), fun hb => by cases hb⟩

/-- A series of passes and the messages they transmit. -/
inductive Sends : TCPSender → List TCPSenderMessage → TCPSender → Prop
  | nil {s : TCPSender} : Sends s [] s
  | snoc {s t t' : TCPSender} {sent : List TCPSenderMessage} {m : TCPSenderMessage}
      (h : Sends s sent t) (ht : Transmits t m t') : Sends s (sent ++ [m]) t'

/-- The rule for the outer loop: `Inv` goes from pass to pass, and `Post` follows from it whether the
last pass transmits or not. -/
theorem Ready.push_rule (Inv Post : TCPSender → List TCPSenderMessage → Prop) (h : Ready s)
    (hinit : Inv s [])
    (hnext : ∀ t out m t', Ready t → Inv t out → Transmits t m t' →
      pushBody (t, out) = .next (t', out ++ [m]) → t'.input.bytesBuffered ≠ 0 → Inv t' (out ++ [m]))
    (hlast : ∀ t out m t', Ready t → Inv t out → Transmits t m t' →
      pushBody (t, out) = .exit (t', out ++ [m]) → Post t' (out ++ [m]))
    (hquit : ∀ t out, Ready t → Inv t out → pushBody (t, out) = .exit (t, out) → Post t out)
    (hp : s.push = some (s', sent)) : Post s' sent := by
  refine loop_inv (fun p => Ready p.1 ∧ Inv p.1 p.2) (fun p => Post p.1 p.2) ?_ ?_ ⟨h, hinit⟩ hp
  · rintro ⟨t, out⟩ ⟨t', out'⟩ ⟨ht, hi⟩ hb
    rcases ht.pushBody_cases out with he | ⟨m, u, hu, he | ⟨he, hmore⟩⟩ | ⟨he, -⟩ <;>
      rw [he] at hb <;> cases hb
    exact ⟨hu.ready ht, hnext _ _ _ _ ht hi hu he hmore⟩
  · rintro ⟨t, out⟩ ⟨t', out'⟩ ⟨ht, hi⟩ hb
    rcases ht.pushBody_cases out with he | ⟨m, u, hu, he | ⟨he, -⟩⟩ | ⟨he, -⟩ <;>
      rw [he] at hb <;> cases hb
    · exact hquit _ _ ht hi he
    · exact hlast _ _ _ _ ht hi hu he

/-- All that a call of `push` does is to transmit messages, one a pass. -/
theorem Ready.push_sends (h : Ready s) (hp : s.push = some (s', sent)) : Sends s sent s' :=
  h.push_rule (fun t out => Sends s out t) (fun t out => Sends s out t) .nil
    (fun _ _ _ _ _ hs ht _ _ => hs.snoc ht) (fun _ _ _ _ _ hs ht _ => hs.snoc ht)
    (fun _ _ _ hs _ => hs) hp

/-- A pass that goes on has taken bytes off the stream or sent the SYN. -/
theorem Ready.lessToSend (h : Ready s) (ht : Transmits s m s') (hmore : s'.input.bytesBuffered ≠ 0) :
    s'.synSent = true ∧ s'.input.bytesBuffered + (!s'.synSent).toNat <
      s.input.bytesBuffered + (!s.synSent).toNat := by
  have hsyn : s'.synSent = true := by rw [ht.state]
  have hbuf := ht.popped.bytesInDeck h.stream
  have hpushed := h.stream.pushed
  have hpushed' := ht.popped.wf.pushed
  have hopen : s'.input.isFinished = false :=
    Bool.eq_false_iff.2 fun hf => hmore (ht.popped.wf.bytesInDeck_of_isFinished hf)
  have hlen : m.sequenceLength = m.SYN.toNat + m.payload.length + m.FIN.toNat := rfl
  have hF : m.FIN = false := Bool.eq_false_iff.2 fun hF => absurd (ht.fin hF).2 (by simp [hopen])
  have hpos : m.sequenceLength ≠ 0 := by
    intro h0
    have := (ht.ready h).finished (by rw [ht.state]; simp [ht.empty h0])
    simp [hopen] at this
  rw [hF, ht.syn, Bool.toNat_false] at hlen
  rw [hsyn, bytesBuffered, bytesBuffered]
  rw [bytesBuffered] at hmore
  have := Bool.toNat_le s.synSent
  refine ⟨rfl, ?_⟩
  simp only [Bool.not_true, Bool.toNat_false]
  omega

/-- The loop that fills a message ends if the message is not the first one on a finished stream with
a window of zero. -/
theorem Ready.fill_isSome (h : Ready s)
    (hgo : s.curWinSize = 0 → s.synSent = false → s.input.isFinished = false)
    (hne : ¬ (s.input.bytesBuffered = 0 ∧ s.synSent = true ∧ (s.fin || s.setsFin) = false)) :
    ∃ r, s.fill s.startMessage = some r := by
  refine TCPSender.fill_isSome h.stream h.window rfl h.bytesBuffered_of_FIN fun hz _ h0 => ?_
  have hset : s.setsFin = s.input.isFinished := by
    unfold setsFin; simp [hz]
  show (!s.synSent).toNat + 0 + s.setsFin.toNat = 1
  cases hS : s.synSent with
  | false => rw [hset, hgo hz hS]; rfl
  | true =>
    have hor : (s.fin || s.setsFin) = true :=
      Bool.not_eq_false _ ▸ fun hf => hne ⟨h0, hS, hf⟩
    rcases Bool.or_eq_true _ _ ▸ hor with hf | hf
    · rw [hset, (h.finished (h.fin ▸ hf)).1]; rfl
    · rw [hf]; rfl

/-- A first `push` on a finished stream with a window of zero never comes back; any other one does. -/
theorem Ready.push_isSome (h : Ready s)
    (hgo : s.curWinSize = 0 → s.synSent = false → s.input.isFinished = false) :
    ∃ r, s.push = some r := by
  refine loop_isSome
    (fun p => Ready p.1 ∧ (p.1.curWinSize = 0 → p.1.synSent = false → p.1.input.isFinished = false))
    (fun p => p.1.input.bytesBuffered + (!p.1.synSent).toNat) ?_ ?_ ⟨h, hgo⟩ ?_
  · rintro ⟨t, sent⟩ ⟨t', sent'⟩ ⟨ht, hgo⟩ hb
    rcases ht.pushBody_cases sent with he | ⟨m, u, hu, he | ⟨he, hmore⟩⟩ | ⟨he, -⟩ <;>
      rw [he] at hb <;> cases hb
    obtain ⟨hsyn, hless⟩ := ht.lessToSend hu hmore
    exact ⟨⟨hu.ready ht, fun _ hs => absurd hs (by simp [hsyn])⟩, hless⟩
  · rintro ⟨t, sent⟩ ⟨ht, hgo⟩ hb
    rcases ht.pushBody_cases sent with he | ⟨m, u, hu, he | ⟨he, -⟩⟩ | ⟨-, hspin, hne⟩
    · rw [he] at hb; cases hb
    · rw [he] at hb; cases hb
    · rw [he] at hb; cases hb
    · obtain ⟨r, hr⟩ := ht.fill_isSome hgo hne
      rw [hr] at hspin; cases hspin
  · have := Bool.toNat_le (!s.synSent)
    dsimp only
    omega

end Minnow.TCPSender
