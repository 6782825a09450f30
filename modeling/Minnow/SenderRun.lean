import Minnow.Lib.Tiling
import Minnow.SenderStep

/-!
# What the sender transmits

`SenderRun` collects the senders that writes, closes, errors, calls of `push`, ticks and receipts can
reach.
Those of its messages that occupy sequence numbers are laid end to end from the initial number on,
and their payloads are the bytes that have left the stream (`SenderInv`, `push_tiles`).
-/

namespace Minnow.TCPSender
open Prog ByteStream

/-- The sequence numbers that messages occupy together. -/
def span (ms : List TCPSenderMessage) : Nat := extent TCPSenderMessage.sequenceLength ms

@[simp] theorem span_nil : span [] = 0 := rfl

@[simp] theorem span_cons (m : TCPSenderMessage) (ms : List TCPSenderMessage) :
    span (m :: ms) = m.sequenceLength + span ms := extent_cons

@[simp] theorem span_append (ms ms' : List TCPSenderMessage) :
    span (ms ++ ms') = span ms + span ms' := extent_append

/-- `m` is one of the messages, and starts at the absolute sequence number `p`. -/
abbrev SentAt (ms : List TCPSenderMessage) (p : Nat) (m : TCPSenderMessage) : Prop :=
  At TCPSenderMessage.sequenceLength ms p m

/-- The messages that occupy sequence numbers. -/
def segments (ms : List TCPSenderMessage) : List TCPSenderMessage :=
  ms.filter fun m => decide (0 < m.sequenceLength)

def payloads (ms : List TCPSenderMessage) : Bytes := ms.flatMap (·.payload)

/-- The senders with a given capacity, with the bytes accepted so far, all that `push` has transmitted
so far, and the messages that have left the queue, each with the unwrapped ackno of the call that
removed it. -/
inductive SenderRun (capacity : Nat) (isn : Wrap32) (rto : Nat) : TCPSender → Bytes →
    List TCPSenderMessage → List (TCPSenderMessage × Nat) → Prop
  | start : SenderRun capacity isn rto { input := { capacity }, isn, initialRTO := rto } [] [] []
  | write {s : TCPSender} {acc : Bytes} {sent : List TCPSenderMessage}
      {cleared : List (TCPSenderMessage × Nat)} (data : Bytes)
      (h : SenderRun capacity isn rto s acc sent cleared) :
      SenderRun capacity isn rto { s with input := s.input.push data } (acc ++ s.input.taken data) sent
        cleared
  | close {s : TCPSender} {acc : Bytes} {sent : List TCPSenderMessage}
      {cleared : List (TCPSenderMessage × Nat)} (h : SenderRun capacity isn rto s acc sent cleared) :
      SenderRun capacity isn rto { s with input := s.input.close } acc sent cleared
  | setError {s : TCPSender} {acc : Bytes} {sent : List TCPSenderMessage}
      {cleared : List (TCPSenderMessage × Nat)} (h : SenderRun capacity isn rto s acc sent cleared) :
      SenderRun capacity isn rto { s with input := s.input.setError } acc sent cleared
  | push {s s' : TCPSender} {acc : Bytes} {sent out : List TCPSenderMessage}
      {cleared : List (TCPSenderMessage × Nat)} (h : SenderRun capacity isn rto s acc sent cleared)
      (hp : s.push = some (s', out)) : SenderRun capacity isn rto s' acc (sent ++ out) cleared
  | tick {s : TCPSender} {acc : Bytes} {sent : List TCPSenderMessage}
      {cleared : List (TCPSenderMessage × Nat)} (ms : Nat)
      (h : SenderRun capacity isn rto s acc sent cleared) :
      SenderRun capacity isn rto (s.tick ms).1 acc sent cleared
  | receive {s s' : TCPSender} {acc : Bytes} {sent : List TCPSenderMessage}
      {cleared : List (TCPSenderMessage × Nat)} (msg : TCPReceiverMessage)
      (h : SenderRun capacity isn rto s acc sent cleared) (hr : s.receive msg = .ok s') :
      SenderRun capacity isn rto s' acc sent
        (cleared ++ (s.msgQueue.take (s.msgQueue.length - s'.msgQueue.length)).map fun m =>
          (m, (msg.ackno.map (·.unwrap s.isn s.input.bytesPushed)).getD 0))

variable {s s' : TCPSender} {isn : Wrap32} {D acc : Bytes} {segs sent gone : List TCPSenderMessage}
  {m : TCPSenderMessage} {msg : TCPReceiverMessage} {capacity rto : Nat}
  {cleared : List (TCPSenderMessage × Nat)}

theorem payloads_append (ms ms' : List TCPSenderMessage) :
    payloads (ms ++ ms') = payloads ms ++ payloads ms' := List.flatMap_append

theorem payloads_segments (ms : List TCPSenderMessage) : payloads (segments ms) = payloads ms := by
  induction ms with
  | nil => rfl
  | cons m ms ih =>
    have hc : ∀ l, payloads (m :: l) = m.payload ++ payloads l := fun _ => rfl
    unfold segments at ih ⊢
    rw [List.filter_cons, hc, ← ih]
    split
    · exact hc _
    next h =>
      have h0 : m.sequenceLength = 0 := by simpa using h
      have : m.payload = [] := by
        rw [TCPSenderMessage.sequenceLength] at h0
        exact List.length_eq_zero_iff.1 (by omega)
      rw [this, List.nil_append]

/-! ### The receipt of an acknowledgment -/

/-- One of the two tests that take a message off the queue. -/
def Acknowledges (s : TCPSender) (ackno : Wrap32) (m : TCPSenderMessage) (inFlight : Nat) : Prop :=
  add64 (m.seqno.unwrap s.isn s.input.bytesPushed) m.sequenceLength =
      ackno.unwrap s.isn s.input.bytesPushed ∨
    add64 (m.seqno.unwrap s.isn s.input.bytesPushed) inFlight =
      ackno.unwrap s.isn s.input.bytesPushed

/-- Everything the loop in `receive` does: the messages `gone` leave the queue, each at the front of
it and past one of the tests. -/
structure Acks (s : TCPSender) (ackno : Option Wrap32) (queue gone : List TCPSenderMessage)
    (s' : TCPSender) : Prop where
  queue : queue = gone ++ s'.msgQueue
  inFlight : s'.bytesInQueue = s.bytesInQueue - span gone
  finReceived : s'.finReceived = true → s.finReceived = true ∨ ∃ m ∈ gone, m.FIN = true
  tests : ∀ pre m post, gone = pre ++ m :: post → ∃ a, ackno = some a ∧
    s.Acknowledges a m (s.bytesInQueue - span pre)
  state : s' = { s with
    msgQueue := s'.msgQueue
    bytesInQueue := s'.bytesInQueue
    finReceived := s'.finReceived
    timeSinceLastSend := s'.timeSinceLastSend
    consecRetransmissions := s'.consecRetransmissions }

/-- What a removed message leaves behind. -/
def dequeue (s : TCPSender) (m : TCPSenderMessage) : TCPSender :=
  { s with
    finReceived := s.finReceived || m.FIN
    bytesInQueue := sub64 s.bytesInQueue m.sequenceLength
    consecRetransmissions := 0
    timeSinceLastSend := 0 }

theorem receiveLoop_pos {ackno : Wrap32} {rest : List TCPSenderMessage}
    (hack : msg.ackno = some ackno) (h : s.Acknowledges ackno m s.sequenceNumbersInFlight) :
    receiveLoop msg (m :: rest) s = receiveLoop msg rest (s.dequeue m) := by
  rw [receiveLoop, hack]; exact if_pos h

theorem receiveLoop_neg {ackno : Wrap32} {rest : List TCPSenderMessage}
    (hack : msg.ackno = some ackno) (h : ¬ s.Acknowledges ackno m s.sequenceNumbersInFlight) :
    receiveLoop msg (m :: rest) s = .ok { s with msgQueue := m :: rest } := by
  rw [receiveLoop, hack]; exact if_neg h

theorem Acks.refl {ackno : Option Wrap32} {queue : List TCPSenderMessage} :
    Acks s ackno queue [] { s with msgQueue := queue } :=
  ⟨rfl, by simp, .inl, fun pre m post h => by simp at h, rfl⟩

/-- One test passed, and then what the rest of the loop does. -/
theorem Acks.cons {ackno : Wrap32} {front : TCPSenderMessage} {rest : List TCPSenderMessage}
    (h : Acks (s.dequeue front) (some ackno) rest gone s')
    (hsub : (s.dequeue front).bytesInQueue = s.bytesInQueue - front.sequenceLength)
    (htest : s.Acknowledges ackno front s.bytesInQueue) :
    Acks s (some ackno) (front :: rest) (front :: gone) s' := by
  refine ⟨by rw [h.queue]; rfl, ?_, fun h1 => ?_, fun pre m post hpre => ?_, h.state⟩
  · rw [h.inFlight, hsub, span_cons, Nat.sub_sub]
  · rcases h.finReceived h1 with h2 | ⟨m, hm, hF⟩
    · rcases Bool.or_eq_true _ _ ▸ h2 with h2 | h2
      · exact .inl h2
      · exact .inr ⟨front, List.mem_cons_self, h2⟩
    · exact .inr ⟨m, List.mem_cons_of_mem _ hm, hF⟩
  · cases pre with
    | nil =>
      obtain ⟨rfl, -⟩ := List.cons.inj hpre
      exact ⟨ackno, rfl, htest⟩
    | cons x pre =>
      obtain ⟨rfl, hrest⟩ := List.cons.inj hpre
      obtain ⟨a, ha, hA⟩ := h.tests pre m post hrest
      refine ⟨a, ha, ?_⟩
      rw [span_cons, ← Nat.sub_sub, ← hsub]
      exact hA

theorem receiveLoop_acks : ∀ (queue : List TCPSenderMessage) (s : TCPSender),
    s.bytesInQueue = span queue → s.bytesInQueue < 2 ^ 64 → receiveLoop msg queue s = .ok s' →
    ∃ gone, Acks s msg.ackno queue gone s' := by
  intro queue
  induction queue with
  | nil =>
    intro s _ _ h
    cases h
    exact ⟨[], .refl⟩
  | cons front rest ih =>
    intro s hB hlt h
    cases hack : msg.ackno with
    | none => rw [receiveLoop, hack] at h; cases h
    | some ackno =>
      rw [hack] at ih
      by_cases htest : s.Acknowledges ackno front s.sequenceNumbersInFlight
      · rw [receiveLoop_pos hack htest] at h
        rw [span_cons] at hB
        have hsub : (s.dequeue front).bytesInQueue = s.bytesInQueue - front.sequenceLength :=
          sub64_of_le (by omega) hlt
        obtain ⟨gone, hg⟩ := ih _ (by omega) (by omega) h
        exact ⟨front :: gone, hg.cons hsub htest⟩
      · rw [receiveLoop_neg hack htest] at h
        cases h
        exact ⟨[], .refl⟩

theorem noteWindow_eq (s : TCPSender) (msg : TCPReceiverMessage) : s.noteWindow msg = { s with
    input := if msg.RST then s.input.setError else s.input
    curWinSize := msg.windowSize.toNat
    winAdvertisedZero := decide (msg.windowSize = 0) } := by
  unfold noteWindow
  cases msg.RST <;> rfl

theorem noteWindow_queue (s : TCPSender) (msg : TCPReceiverMessage) :
    (s.noteWindow msg).msgQueue = s.msgQueue := by
  rw [noteWindow_eq]

theorem noteWindow_inFlight (s : TCPSender) (msg : TCPReceiverMessage) :
    (s.noteWindow msg).bytesInQueue = s.bytesInQueue := by
  rw [noteWindow_eq]

theorem noteWindow_isn (s : TCPSender) (msg : TCPReceiverMessage) :
    (s.noteWindow msg).isn = s.isn := by
  rw [noteWindow_eq]

theorem noteWindow_bytesPushed (s : TCPSender) (msg : TCPReceiverMessage) :
    (s.noteWindow msg).input.bytesPushed = s.input.bytesPushed := by
  rw [noteWindow_eq]; dsimp only; split <;> rfl

theorem receive_acks (hB : s.bytesInQueue = span s.msgQueue) (hlt : s.bytesInQueue < 2 ^ 64)
    (h : s.receive msg = .ok s') : ∃ gone, Acks (s.noteWindow msg) msg.ackno s.msgQueue gone s' := by
  have hb := noteWindow_inFlight s msg
  exact receiveLoop_acks _ _ (hb.trans hB) (hb ▸ hlt) h

/-! ### The invariant -/

/-- A message of the tiling, in its place. -/
structure Placed (isn : Wrap32) (D : Bytes) (total : Nat) (finQueued : Bool) (p : Nat)
    (m : TCPSenderMessage) : Prop where
  wellFormed : m.WellFormed isn D p
  first : p = 0 → m.SYN = true
  positive : 0 < m.sequenceLength
  last : m.FIN = true → finQueued = true ∧ p + m.sequenceLength = total

/-- A message without length, which a full window makes the sender transmit after the FIN. It has the
sequence number of the FIN. -/
structure Idle (isn : Wrap32) (total : Nat) (finQueued : Bool) (z : TCPSenderMessage) : Prop where
  length : z.sequenceLength = 0
  seqno : z.seqno = .wrap (total - 1) isn
  finQueued : finQueued = true

/-- What is known of a sender that has transmitted the tiling `segs` and whose stream has accepted
`D`. The queue is the rest of the tiling, followed by messages without length. -/
structure SenderInv (isn : Wrap32) (D : Bytes) (segs : List TCPSenderMessage) (s : TCPSender) :
    Prop where
  ready : Ready s
  origin : s.isn = isn
  window : s.curWinSize ≤ 65535
  accepted : D = payloads segs ++ s.input.queued
  popped : s.input.totalPopped = (payloads segs).length
  total : span segs = s.synSent.toNat + s.input.totalPopped + s.finQueued.toNat
  unsent : s.synSent = false → segs = []
  placed : ∀ p m, SentAt segs p m → Placed isn D (span segs) s.finQueued p m
  queue : ∃ old rest idle, segs = old ++ rest ∧ s.msgQueue = rest ++ idle ∧
    ∀ z ∈ idle, Idle isn (span segs) s.finQueued z
  inFlight : s.bytesInQueue = span s.msgQueue
  bound : s.bytesInQueue ≤ 65535 + s.finQueued.toNat

theorem senderInv_start {capacity : Nat} (hcap : capacity < 2 ^ 64) (isn : Wrap32) (rto : Nat) :
    SenderInv isn [] [] { input := { capacity }, isn, initialRTO := rto } := by
  refine ⟨⟨wf_new hcap, Nat.two_pow_pos 64, rfl, fun h => ?_, fun h => ?_, fun _ => ⟨rfl, rfl⟩⟩, rfl,
    Nat.zero_le _, rfl, rfl, rfl, fun _ => rfl, fun p m h => absurd h not_at_nil,
    ⟨[], [], [], rfl, rfl, ?_⟩, rfl, Nat.zero_le _⟩
  · cases h
  · cases h
  · simp

theorem SenderInv.length (h : SenderInv isn D segs s) :
    D.length = s.input.totalPopped + s.input.bytesInDeck := by
  rw [h.accepted, List.length_append, h.popped, h.ready.stream.buffered]

theorem SenderInv.pushed (h : SenderInv isn D segs s) : s.input.totalPushed = D.length := by
  rw [h.length, h.ready.stream.pushed]

theorem SenderInv.drop_popped (h : SenderInv isn D segs s) :
    D.drop s.input.totalPopped = s.input.queued := by
  rw [h.accepted, h.popped, List.drop_left]

/-- A message that occupies no sequence number carries nothing. -/
theorem eq_of_sequenceLength (h : m.sequenceLength = 0) :
    m.SYN = false ∧ m.payload = [] ∧ m.FIN = false := by
  simpa [TCPSenderMessage.sequenceLength, and_assoc] using h

theorem SenderInv.write (h : SenderInv isn D segs s) (data : Bytes) :
    SenderInv isn (D ++ s.input.taken data) segs { s with input := s.input.push data } := by
  have hp := push_pushed s.input data
  have hclosed : s.finQueued = true → s.input.taken data = [] ∧ s.input.push data = s.input := by
    intro hq
    have hc := ((isFinished_iff h.ready.stream).1 (h.ready.finished hq).1).1
    exact ⟨by rw [taken, if_pos hc], by rw [ByteStream.push, if_pos (.inr (.inl hc))]⟩
  refine ⟨⟨h.ready.stream.push data, h.ready.window, h.ready.fin, fun hq => ?_, h.ready.finReceived,
    h.ready.unsent⟩, h.origin, h.window, ?_, hp.totalPopped.trans h.popped, ?_, h.unsent,
    fun p m hm => ?_, h.queue, h.inFlight, h.bound⟩
  · show (s.input.push data).isFinished = true ∧ _
    rw [(hclosed hq).2]; exact h.ready.finished hq
  · show _ = _ ++ (s.input.push data).queued
    rw [hp.queued, ← List.append_assoc, ← h.accepted]
  · show _ = _ + (s.input.push data).totalPopped + _
    rw [hp.totalPopped]; exact h.total
  · have hpl := h.placed p m hm
    refine ⟨?_, hpl.first, hpl.positive, hpl.last⟩
    cases hF : m.FIN with
    | false => exact hpl.wellFormed.append hF _
    | true =>
      rw [(hclosed (hpl.last hF).1).1, List.append_nil]
      exact hpl.wellFormed

theorem SenderInv.close (h : SenderInv isn D segs s) :
    SenderInv isn D segs { s with input := s.input.close } := by
  refine ⟨⟨h.ready.stream.close, h.ready.window, h.ready.fin, fun hq => ⟨?_, (h.ready.finished hq).2⟩,
    h.ready.finReceived, h.ready.unsent⟩, h.origin, h.window, h.accepted, h.popped, h.total, h.unsent,
    h.placed, h.queue, h.inFlight, h.bound⟩
  have := (isFinished_iff h.ready.stream).1 (h.ready.finished hq).1
  rw [isFinished_iff h.ready.stream.close]
  exact ⟨rfl, this.2⟩

theorem SenderInv.setError (h : SenderInv isn D segs s) :
    SenderInv isn D segs { s with input := s.input.setError } :=
  ⟨⟨h.ready.stream.setError, h.ready.window, h.ready.fin, h.ready.finished, h.ready.finReceived,
    h.ready.unsent⟩, h.origin, h.window, h.accepted, h.popped, h.total, h.unsent, h.placed, h.queue,
    h.inFlight, h.bound⟩

/-- A message transmitted after the FIN has no length, and one transmitted before has. -/
theorem Transmits.sequenceLength_eq_zero_iff (ht : Transmits s m s') (h : Ready s) :
    m.sequenceLength = 0 ↔ s.finQueued = true := by
  refine ⟨ht.empty, fun hq => ?_⟩
  obtain ⟨hdone, hS⟩ := h.finished hq
  have hempty := h.stream.bytesInDeck_of_isFinished hdone
  have hsync := h.stream.pushed
  have hsync' := ht.popped.wf.pushed
  have hP := ht.popped.totalPopped
  have hP' := ht.popped.totalPushed
  have hF : m.FIN = false := by
    cases hF : m.FIN with
    | false => rfl
    | true => exact absurd hq (by simp [(ht.fin hF).1])
  have hlen : m.sequenceLength = m.SYN.toNat + m.payload.length + m.FIN.toNat := rfl
  rw [ht.syn, hS, hF] at hlen
  simp only [Bool.not_true, Bool.toNat_false] at hlen
  omega

theorem SenderInv.transmits_idle (h : SenderInv isn D segs s) (ht : Transmits s m s')
    (hq : s.finQueued = true) : SenderInv isn D segs s' := by
  have h0 := (ht.sequenceLength_eq_zero_iff h.ready).2 hq
  obtain ⟨-, hpay, hF⟩ := eq_of_sequenceLength h0
  have hS := (h.ready.finished hq).2
  have hr := ht.ready h.ready
  have hpop := ht.popped
  rw [hpay] at hpop
  rw [ht.state] at hr ⊢
  refine ⟨hr, h.origin, h.window, ?_, hpop.totalPopped.trans h.popped, ?_, fun hs => (by cases hs), ?_,
    ?_, ?_, ?_⟩
  · show _ = _ ++ s'.input.queued
    rw [hpop.queued, List.length_nil, List.drop_zero]; exact h.accepted
  · show _ = true.toNat + s'.input.totalPopped + (s.finQueued || m.FIN).toNat
    rw [hpop.totalPopped, hF, Bool.or_false, ← hS]; exact h.total
  · intro p x hx
    show Placed _ _ _ (s.finQueued || m.FIN) _ _
    rw [hF, Bool.or_false]; exact h.placed p x hx
  · obtain ⟨old, rest, idle, h1, h2, h3⟩ := h.queue
    refine ⟨old, rest, idle ++ [m], h1, by rw [h2, List.append_assoc], fun z hz => ?_⟩
    show Idle _ _ (s.finQueued || m.FIN) z
    rw [hF, Bool.or_false]
    rcases List.mem_append.1 hz with hz | hz
    · exact h3 z hz
    · obtain rfl := List.mem_singleton.1 hz
      refine ⟨h0, ?_, hq⟩
      rw [ht.seqno, h.origin, Wrap32.wrap, h.total, hS, hq]
      congr 1
      simp only [Bool.toNat_true]
      omega
  · show _ = span (_ ++ [m])
    rw [span_append, span_cons, span_nil, h.inFlight]; rfl
  · show _ + m.sequenceLength ≤ _ + (s.finQueued || m.FIN).toNat
    rw [hF, Bool.or_false, h0]; exact h.bound

theorem SenderInv.unsent_eq (h : SenderInv isn D segs s) (hS : s.synSent = false) :
    span segs = 0 ∧ s.input.totalPopped = 0 ∧ s.bytesInQueue = 0 := by
  have hsegs := h.unsent hS
  exact ⟨by rw [hsegs]; rfl, by rw [h.popped, hsegs]; rfl, (h.ready.unsent hS).2⟩

/-- A message transmitted before the FIN goes to the end of the tiling. -/
theorem SenderInv.placed_next (h : SenderInv isn D segs s) (ht : Transmits s m s')
    (hq : s.finQueued = false) :
    Placed isn D (span (segs ++ [m])) (s.finQueued || m.FIN) (span segs) m := by
  have htotal := h.total
  rw [hq, Bool.toNat_false, Nat.add_zero] at htotal
  have hidx : m.index (span segs) = s.input.totalPopped := by
    rw [TCPSenderMessage.index, ht.syn]
    cases hS : s.synSent with
    | false => rw [(h.unsent_eq hS).2.1]; rfl
    | true => rw [hS] at htotal; simp [htotal]
  refine ⟨⟨?_, fun hS => ?_, fun _ => ?_, ?_, fun hF => ?_⟩, fun h0 => ?_, ?_, fun hF => ⟨?_, ?_⟩⟩
  · rw [ht.seqno, h.origin, Wrap32.wrap, htotal, Nat.add_comm]
  · exact (h.unsent_eq (by simpa [ht.syn] using hS)).1
  · cases hS : s.synSent with
    | false => exact .inl (by rw [ht.syn, hS]; rfl)
    | true => rw [hS] at htotal; exact .inr (by rw [htotal, Bool.toNat_true]; omega)
  · rw [hidx, h.drop_popped, ht.payload]; exact List.take_prefix _ _
  · have hempty := ht.popped.wf.bytesInDeck_of_isFinished (ht.fin hF).2
    have h1 := h.ready.stream.pushed
    have h2 := ht.popped.wf.pushed
    have h3 := ht.popped.totalPopped
    have h4 := ht.popped.totalPushed
    rw [hidx, h.length]; omega
  · rw [ht.syn]
    cases hS : s.synSent with
    | false => rfl
    | true => rw [hS, Bool.toNat_true] at htotal; omega
  · refine Nat.pos_of_ne_zero fun h0 => ?_
    have := (ht.sequenceLength_eq_zero_iff h.ready).1 h0
    rw [hq] at this; cases this
  · rw [hF, Bool.or_true]
  · rw [span_append, span_cons, span_nil]; rfl

/-- What is in flight stays within the largest window, up to the FIN. -/
theorem SenderInv.bound_next (h : SenderInv isn D segs s) (ht : Transmits s m s')
    (hq : s.finQueued = false) : s.bytesInQueue + m.sequenceLength ≤ 65535 + m.FIN.toNat := by
  have hlen : m.sequenceLength = m.SYN.toNat + m.payload.length + m.FIN.toNat := rfl
  have hbound := h.bound
  rw [hq, Bool.toNat_false] at hbound
  by_cases hz : s.curWinSize = 0
  swap
  · have hfit := ht.window hz
    have := h.window
    simp only [inFlightWith, sequenceNumbersInFlight] at hfit
    omega
  by_cases hne : m.payload = []
  · have hF := Bool.toNat_le m.FIN
    rw [hne, ht.syn, List.length_nil] at hlen
    cases hS : s.synSent with
    | false =>
      have hB := (h.unsent_eq hS).2.2
      rw [hS, Bool.not_false, Bool.toNat_true] at hlen
      omega
    | true =>
      rw [hS, Bool.not_true, Bool.toNat_false] at hlen
      omega
  · obtain ⟨hqe, h1⟩ := ht.probe hz hne
    have : s.bytesInQueue = 0 := by rw [h.inFlight, hqe]; rfl
    omega

theorem SenderInv.transmits (h : SenderInv isn D segs s) (ht : Transmits s m s')
    (hq : s.finQueued = false) : SenderInv isn D (segs ++ [m]) s' := by
  have hnew := h.placed_next ht hq
  have hr := ht.ready h.ready
  have hlen : m.sequenceLength = m.SYN.toNat + m.payload.length + m.FIN.toNat := rfl
  have hm : payloads [m] = m.payload := by simp [payloads]
  rw [ht.state] at hr ⊢
  refine ⟨hr, h.origin, h.window, ?_, ?_, ?_, fun hs => (by cases hs), ?_, ?_, ?_, ?_⟩
  · show _ = _ ++ s'.input.queued
    have htake : s.input.queued = m.payload ++ s.input.queued.drop m.payload.length := by
      conv_lhs => rw [← List.take_append_drop m.payload.length s.input.queued, ← ht.payload]
    rw [payloads_append, hm, ht.popped.queued, List.append_assoc, ← htake, ← h.accepted]
  · show s'.input.totalPopped = _
    rw [ht.popped.totalPopped, payloads_append, hm, List.length_append, h.popped]
  · show _ = true.toNat + s'.input.totalPopped + (s.finQueued || m.FIN).toNat
    rw [span_append, span_cons, span_nil, hlen, ht.syn, ht.popped.totalPopped, h.total, hq,
      Bool.false_or]
    cases s.synSent <;> simp only [Bool.not_true, Bool.not_false, Bool.toNat_true, Bool.toNat_false] <;>
      omega
  · intro p x hx
    show Placed _ _ _ (s.finQueued || m.FIN) _ _
    rcases at_concat_iff.1 hx with hx | ⟨rfl, rfl⟩
    · have hpl := h.placed p x hx
      exact ⟨hpl.wellFormed, hpl.first, hpl.positive, fun hF => absurd (hpl.last hF).1 (by simp [hq])⟩
    · exact hnew
  · obtain ⟨old, rest, idle, h1, h2, h3⟩ := h.queue
    have hidle : idle = [] := by
      refine List.eq_nil_iff_forall_not_mem.2 fun z hz => ?_
      have := (h3 z hz).finQueued
      rw [hq] at this; cases this
    refine ⟨old, rest ++ [m], [], by rw [h1, List.append_assoc], ?_, by simp⟩
    show _ ++ [m] = _
    rw [h2, hidle, List.append_nil, List.append_nil]
  · show _ = span (_ ++ [m])
    rw [span_append, span_cons, span_nil, h.inFlight]; rfl
  · show s.bytesInQueue + m.sequenceLength ≤ 65535 + (s.finQueued || m.FIN).toNat
    rw [hq, Bool.false_or]; exact h.bound_next ht hq

theorem segments_of_pos (h : 0 < m.sequenceLength) : segments [m] = [m] := by
  simp [segments, h]

theorem segments_of_zero (h : m.sequenceLength = 0) : segments [m] = [] := by
  simp [segments, h]

theorem segments_append (ms ms' : List TCPSenderMessage) :
    segments (ms ++ ms') = segments ms ++ segments ms' := List.filter_append ..

/-- A pass adds what it transmits to the tiling, unless that has no length. -/
theorem SenderInv.step (h : SenderInv isn D segs s) (ht : Transmits s m s') :
    SenderInv isn D (segs ++ segments [m]) s' := by
  have hiff := ht.sequenceLength_eq_zero_iff h.ready
  cases hq : s.finQueued with
  | true =>
    rw [segments_of_zero (hiff.2 hq), List.append_nil]
    exact h.transmits_idle ht hq
  | false =>
    rw [segments_of_pos (Nat.pos_of_ne_zero fun h0 => by simp [hiff.1 h0] at hq)]
    exact h.transmits ht hq

theorem SenderInv.sends {out : List TCPSenderMessage} (h : SenderInv isn D segs s)
    (hs : Sends s out s') : SenderInv isn D (segs ++ segments out) s' := by
  induction hs with
  | nil => rw [segments, List.filter_nil, List.append_nil]; exact h
  | snoc _ ht ih =>
    rw [segments_append, ← List.append_assoc]
    exact ih.step ht

theorem SenderInv.push {out : List TCPSenderMessage} (h : SenderInv isn D segs s)
    (hp : s.push = some (s', out)) : SenderInv isn D (segs ++ segments out) s' :=
  h.sends (h.ready.push_sends hp)

/-- The timer only touches its own two counters. -/
theorem tick_eq (s : TCPSender) (ms : Nat) : ∃ t c,
    (s.tick ms).1 = { s with timeSinceLastSend := t, consecRetransmissions := c } := by
  unfold TCPSender.tick
  split
  · exact ⟨_, _, rfl⟩
  · dsimp only
    split
    · split <;> exact ⟨_, _, rfl⟩
    · exact ⟨_, _, rfl⟩

theorem SenderInv.tick (h : SenderInv isn D segs s) (ms : Nat) :
    SenderInv isn D segs (s.tick ms).1 := by
  obtain ⟨t, c, heq⟩ := tick_eq s ms
  rw [heq]
  exact ⟨⟨h.ready.stream, h.ready.window, h.ready.fin, h.ready.finished, h.ready.finReceived,
    h.ready.unsent⟩, h.origin, h.window, h.accepted, h.popped, h.total, h.unsent, h.placed, h.queue,
    h.inFlight, h.bound⟩

theorem segments_eq_self {ms : List TCPSenderMessage} (h : ∀ m ∈ ms, 0 < m.sequenceLength) :
    segments ms = ms := List.filter_eq_self.2 fun m hm => decide_eq_true (h m hm)

theorem segments_eq_nil {ms : List TCPSenderMessage} (h : ∀ m ∈ ms, m.sequenceLength = 0) :
    segments ms = [] := List.filter_eq_nil_iff.2 fun m hm => by simp [h m hm]

theorem SenderInv.positive (h : SenderInv isn D segs s) (hm : m ∈ segs) : 0 < m.sequenceLength := by
  obtain ⟨pre, post, rfl⟩ := List.append_of_mem hm
  exact (h.placed _ _ at_split).positive

/-- A front part of the queue is a piece of the tiling, and perhaps messages without length; what is
behind it goes on from there. -/
theorem SenderInv.split (h : SenderInv isn D segs s) {left : List TCPSenderMessage}
    (hq : s.msgQueue = gone ++ left) : ∃ old rest idle, segs = old ++ segments gone ++ rest ∧
      left = rest ++ idle ∧ segments left = rest ∧ (∀ z ∈ idle, Idle isn (span segs) s.finQueued z) ∧
      ∀ z ∈ gone, z.sequenceLength = 0 → Idle isn (span segs) s.finQueued z := by
  obtain ⟨old, rest, idle, h1, h2, h3⟩ := h.queue
  have hrest : ∀ x ∈ rest, 0 < x.sequenceLength := fun x hx => h.positive (by simp [h1, hx])
  rcases List.append_eq_append_iff.1 (hq.symm.trans h2) with ⟨r, hr, hl⟩ | ⟨i, hg, hi⟩
  · have hpos : ∀ x ∈ gone ++ r, 0 < x.sequenceLength := fun x hx => hrest x (hr ▸ hx)
    have hg : segments gone = gone := segments_eq_self fun x hx => hpos x (by simp [hx])
    refine ⟨old, r, idle, by rw [hg, h1, hr, List.append_assoc], hl, ?_, h3, fun z hz h0 => ?_⟩
    · rw [hl, segments_append, segments_eq_self fun x hx => hpos x (by simp [hx]),
        segments_eq_nil fun z hz => (h3 z hz).length, List.append_nil]
    · have := hpos z (by simp [hz]); omega
  · have hidle : ∀ z ∈ i ++ left, Idle isn (span segs) s.finQueued z := fun z hz => h3 z (hi ▸ hz)
    refine ⟨old, [], left, ?_, rfl, segments_eq_nil fun z hz => (hidle z (by simp [hz])).length,
      fun z hz => hidle z (by simp [hz]), fun z hz h0 => ?_⟩
    · rw [hg, segments_append, segments_eq_self hrest,
        segments_eq_nil fun z hz => (hidle z (by simp [hz])).length, List.append_nil, List.append_nil,
        h1]
    · rcases List.mem_append.1 (hg ▸ hz) with hz | hz
      · have := hrest z hz; omega
      · exact hidle z (by simp [hz])

theorem SenderInv.noteWindow (h : SenderInv isn D segs s) (msg : TCPReceiverMessage) :
    SenderInv isn D segs (s.noteWindow msg) := by
  have hwin : msg.windowSize.toNat ≤ 65535 := by have := msg.windowSize.toNat_lt; omega
  have window : ∀ {t : TCPSender} {b : Bool}, SenderInv isn D segs t →
      SenderInv isn D segs { t with curWinSize := msg.windowSize.toNat, winAdvertisedZero := b } :=
    fun h => ⟨⟨h.ready.stream, Nat.lt_of_le_of_lt hwin (by decide), h.ready.fin, h.ready.finished,
      h.ready.finReceived, h.ready.unsent⟩, h.origin, hwin, h.accepted, h.popped, h.total, h.unsent,
      h.placed, h.queue, h.inFlight, h.bound⟩
  rw [noteWindow_eq]
  cases msg.RST with
  | false => exact window h
  | true => exact window h.setError

theorem SenderInv.acks {ackno : Option Wrap32} (h : SenderInv isn D segs s)
    (ha : Acks s ackno s.msgQueue gone s') : SenderInv isn D segs s' := by
  obtain ⟨old, rest, idle, h1, h2, -, h4, -⟩ := h.split ha.queue
  have hin := ha.inFlight
  have hfin : s'.finReceived = true → s.finQueued = true := by
    intro hr
    rcases ha.finReceived hr with hr | ⟨z, hz, hF⟩
    · exact h.ready.finReceived hr
    · have hpos : 0 < z.sequenceLength := by
        rw [TCPSenderMessage.sequenceLength, hF, Bool.toNat_true]; omega
      have hmem : z ∈ segs := by
        rw [h1]
        exact List.mem_append_left _ (List.mem_append_right _
          (List.mem_filter.2 ⟨hz, decide_eq_true hpos⟩))
      obtain ⟨pre, post, rfl⟩ := List.append_of_mem hmem
      exact ((h.placed _ _ at_split).last hF).1
  have hspan : s'.bytesInQueue = span s'.msgQueue := by
    have := h.inFlight
    rw [ha.queue, span_append] at this
    omega
  have hunsent : s.synSent = false → s'.msgQueue = [] ∧ s'.bytesInQueue = 0 := by
    intro hS
    have := ha.queue
    rw [(h.ready.unsent hS).1] at this
    have hnil := (List.append_eq_nil_iff.1 this.symm).2
    exact ⟨hnil, by rw [hspan, hnil]; rfl⟩
  have hbound : s'.bytesInQueue ≤ 65535 + s.finQueued.toNat := by
    have := h.bound
    omega
  rw [ha.state]
  exact ⟨⟨h.ready.stream, h.ready.window, h.ready.fin, h.ready.finished, hfin, hunsent⟩, h.origin,
    h.window, h.accepted, h.popped, h.total, h.unsent, h.placed,
    ⟨old ++ segments gone, rest, idle, h1, h2, h4⟩, hspan, hbound⟩

theorem SenderInv.inFlight_lt (h : SenderInv isn D segs s) : s.bytesInQueue < 2 ^ 64 := by
  have := h.bound
  have := Bool.toNat_le s.finQueued
  omega

theorem SenderInv.receive (h : SenderInv isn D segs s) (hr : s.receive msg = .ok s') :
    SenderInv isn D segs s' := by
  obtain ⟨gone, ha⟩ := receive_acks h.inFlight h.inFlight_lt hr
  rw [← noteWindow_queue s msg] at ha
  exact (h.noteWindow msg).acks ha

theorem SenderRun.inv (hcap : capacity < 2 ^ 64) (h : SenderRun capacity isn rto s acc sent cleared) :
    SenderInv isn acc (segments sent) s := by
  induction h with
  | start => exact senderInv_start hcap isn rto
  | write data _ ih => exact ih.write data
  | close _ ih => exact ih.close
  | setError _ ih => exact ih.setError
  | push _ hp ih => rw [segments_append]; exact ih.push hp
  | tick ms _ ih => exact ih.tick ms
  | receive msg _ hr ih => exact ih.receive hr

/-- The segments tile the sequence space from `isn` on and carry the bytes that have left the stream. -/
theorem push_tiles (hcap : capacity < 2 ^ 64) (h : SenderRun capacity isn rto s acc sent cleared) :
    (∀ m rest, segments sent = m :: rest →
      m.SYN = true ∧ m.seqno = isn ∧ ∀ x ∈ rest, x.SYN = false) ∧
    (∀ pre a b post, segments sent = pre ++ a :: b :: post →
      b.seqno = a.seqno + a.sequenceLength) ∧
    payloads (segments sent) = acc.take s.input.bytesPopped ∧ s.input.bytesPopped ≤ acc.length ∧
    ∀ pre m post, segments sent = pre ++ m :: post → m.FIN = true →
      post = [] ∧ s.input.isClosed = true ∧ s.input.bytesPopped = acc.length := by
  have hi := h.inv hcap
  have hlen := hi.length
  refine ⟨fun m rest hseg => ?_, fun pre a b post hseg => ?_, ?_, ?_, fun pre m post hseg hF => ?_⟩
  · have hm : SentAt (segments sent) 0 m := ⟨[], rest, hseg, rfl⟩
    have hp := hi.placed _ _ hm
    refine ⟨hp.first rfl, ?_, fun x hx => ?_⟩
    · rw [hp.wellFormed.seqno, Wrap32.wrap, Wrap32.add_zero]
    · obtain ⟨pre, post, rfl⟩ := List.append_of_mem hx
      have hx : SentAt (segments sent) (span (m :: pre)) x := ⟨m :: pre, post, by simp [hseg], rfl⟩
      -- only the segment at the initial sequence number is a SYN
      have hpos := hp.positive
      have hne := mt (hi.placed _ _ hx).wellFormed.syn (by rw [span_cons]; omega)
      exact Bool.eq_false_iff.2 hne
  · have ha : SentAt (segments sent) (span pre) a := ⟨pre, b :: post, hseg, rfl⟩
    have hb : SentAt (segments sent) (span (pre ++ [a])) b := ⟨pre ++ [a], post, by simp [hseg], rfl⟩
    rw [(hi.placed _ _ ha).wellFormed.seqno, (hi.placed _ _ hb).wellFormed.seqno, span_append,
      span_cons, span_nil, Nat.add_zero, Wrap32.wrap, Wrap32.wrap, Wrap32.add_add]
  · rw [bytesPopped, hi.popped]
    conv_rhs => rw [hi.accepted]
    rw [List.take_left]
  · rw [bytesPopped]; omega
  · have hm : SentAt (segments sent) (span pre) m := ⟨pre, post, hseg, rfl⟩
    obtain ⟨hq, hend⟩ := (hi.placed _ _ hm).last hF
    have hdone := (hi.ready.finished hq).1
    have hempty := hi.ready.stream.bytesInDeck_of_isFinished hdone
    refine ⟨?_, ((isFinished_iff hi.ready.stream).1 hdone).1, by rw [bytesPopped]; omega⟩
    have hpost : span post = 0 := by
      rw [hseg, span_append, span_cons] at hend; omega
    refine List.eq_nil_iff_forall_not_mem.2 fun x hx => ?_
    obtain ⟨l, r, rfl⟩ := List.append_of_mem hx
    have := hi.positive (m := x) (by rw [hseg]; simp)
    rw [span_append, span_cons] at hpost
    omega

/-- A SYN that is acknowledged, then two bytes and the FIN. -/
theorem push_tiles_ab : ∃ s sent cleared, SenderRun 4 ⟨7⟩ 1000 s [1, 2] sent cleared ∧
    payloads (segments sent) = [1, 2] ∧ (segments sent).length = 2 := by
  have h₀ : SenderRun 4 ⟨7⟩ 1000 _ _ _ _ := .start
  have h₁ := h₀.push rfl
  have h₂ : SenderRun 4 ⟨7⟩ 1000
      { input := { capacity := 4 }, isn := ⟨7⟩, initialRTO := 1000, synSent := true, curWinSize := 5 }
      [] _ _ := h₁.receive { ackno := some ⟨8⟩, windowSize := 5 } (by decide)
  have h₃ := (h₂.write [1, 2]).close.push rfl
  exact ⟨_, _, _, h₃, (push_tiles (by decide) h₃).2.2.1, rfl⟩

/-! ### The sequence number of an empty message -/

/-- `makeEmptyMessage` counts the SYN whether it has been sent or not. -/
theorem SenderInv.makeEmptyMessage_seqno (h : SenderInv isn D segs s) :
    s.makeEmptyMessage.seqno = .wrap (1 + s.input.totalPopped + s.finQueued.toNat) isn := by
  have hfin := h.ready.fin
  unfold makeEmptyMessage
  dsimp only
  rw [h.origin, hfin, Wrap32.wrap, bytesPopped]
  cases s.finQueued with
  | false =>
    show isn + s.input.totalPopped + 1 = isn + (1 + s.input.totalPopped + 0)
    rw [Wrap32.add_add, Nat.add_comm 1, Nat.add_zero]
  | true =>
    show isn + s.input.totalPopped + 1 + 1 = isn + (1 + s.input.totalPopped + 1)
    rw [Wrap32.add_add, Wrap32.add_add]
    congr 1
    omega

/-- An empty message has the sequence number of the next segment from the SYN on, and before it that
of the byte after it. -/
theorem makeEmptyMessage_seqno_iff (hcap : capacity < 2 ^ 64)
    (h : SenderRun capacity isn rto s acc sent cleared) :
    s.makeEmptyMessage.seqno = .wrap (span sent) isn ↔ s.synSent = true := by
  have hi := h.inv hcap
  have hspan : span sent = s.synSent.toNat + s.input.totalPopped + s.finQueued.toNat := by
    rw [← hi.total]; exact (extent_filter _ sent).symm
  rw [hi.makeEmptyMessage_seqno, hspan]
  cases hS : s.synSent with
  | true => exact iff_of_true rfl rfl
  | false =>
    have hq : s.finQueued = false :=
      Bool.eq_false_iff.2 fun hq => by simpa [hS] using (hi.ready.finished hq).2
    rw [(hi.unsent_eq hS).2.1, hq, Wrap32.wrap, Wrap32.wrap, Wrap32.add_eq_add_iff]
    exact iff_of_false (by decide) (by decide)

/-- After the SYN and two bytes. -/
theorem makeEmptyMessage_seqno_iff_ab : ∃ s sent cleared,
    SenderRun 4 ⟨7⟩ 1000 s [1, 2] sent cleared ∧
    s.makeEmptyMessage.seqno = .wrap (span sent) ⟨7⟩ := by
  have h₀ : SenderRun 4 ⟨7⟩ 1000 _ _ _ _ := .start
  have h₁ := (h₀.write [1, 2]).push rfl
  exact ⟨_, _, _, h₁, (makeEmptyMessage_seqno_iff (by decide) h₁).2 rfl⟩

/-- Nothing has been sent, and the next segment is the SYN. -/
theorem makeEmptyMessage_before_syn : ∃ s acc sent cleared,
    SenderRun 4 ⟨7⟩ 1000 s acc sent cleared ∧
    s.makeEmptyMessage.seqno = ⟨8⟩ ∧ Wrap32.wrap (span sent) ⟨7⟩ = ⟨7⟩ ∧
    s.makeEmptyMessage.seqno ≠ .wrap (span sent) ⟨7⟩ :=
  ⟨_, _, _, _, .start, by decide, by decide, by decide⟩

end Minnow.TCPSender
