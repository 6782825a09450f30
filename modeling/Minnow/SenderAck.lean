import Minnow.SenderQueue

/-!
# What an acknowledgment does to the queue

`receive` compares an acknowledgment with two numbers only, the end of the message at the front of the
queue and the end of all that is in flight. One that ends between them removes nothing, and one is read
whether it is there or not. A message without length passes both tests at its own sequence number.
-/

namespace Minnow.TCPSender
open Prog ByteStream

/-- The absolute sequence number that comes next. -/
def nextSeqno (s : TCPSender) : Nat := s.synSent.toNat + s.input.bytesPopped + s.finQueued.toNat

/-- The absolute sequence number of the front of the queue; a message without length has that of the
FIN. -/
def oldestSeqno (s : TCPSender) : Nat :=
  match s.msgQueue with
  | [] => s.nextSeqno
  | m :: _ =>
    if 0 < m.sequenceLength then s.nextSeqno - s.sequenceNumbersInFlight else s.nextSeqno - 1

/-- The messages, each with its absolute sequence number when the first of them is at `p`. -/
def numbered (p : Nat) : List TCPSenderMessage → List (Nat × TCPSenderMessage)
  | [] => []
  | m :: ms => (p, m) :: numbered (p + m.sequenceLength) ms

/-- The last sequence number of the message is below `a`. A message without length has none. -/
def EndsBelow (a : Nat) (x : Nat × TCPSenderMessage) : Prop :=
  0 < x.2.sequenceLength ∧ x.1 + x.2.sequenceLength ≤ a

instance (a : Nat) (x : Nat × TCPSenderMessage) : Decidable (EndsBelow a x) :=
  inferInstanceAs (Decidable (_ ∧ _))

/-- The messages from `p` on that end below `a`. -/
def acknowledged (a p : Nat) (ms : List TCPSenderMessage) : List TCPSenderMessage :=
  ((numbered p ms).filter fun x => decide (EndsBelow a x)).map Prod.snd

/-- The messages from `p` on that do not. -/
def unacknowledged (a p : Nat) (ms : List TCPSenderMessage) : List TCPSenderMessage :=
  ((numbered p ms).filter fun x => !decide (EndsBelow a x)).map Prod.snd

variable {s s' : TCPSender} {isn ackno : Wrap32} {D acc : Bytes}
  {segs sent queue rest : List TCPSenderMessage} {front m : TCPSenderMessage}
  {msg : TCPReceiverMessage} {capacity rto a p : Nat} {cleared : List (TCPSenderMessage × Nat)}

theorem acknowledged_cons (a p : Nat) (m : TCPSenderMessage) (ms : List TCPSenderMessage) :
    acknowledged a p (m :: ms) =
      if EndsBelow a (p, m) then m :: acknowledged a (p + m.sequenceLength) ms
      else acknowledged a (p + m.sequenceLength) ms := by
  unfold acknowledged
  rw [numbered, List.filter_cons]
  by_cases h : EndsBelow a (p, m) <;> simp [h]

theorem unacknowledged_cons (a p : Nat) (m : TCPSenderMessage) (ms : List TCPSenderMessage) :
    unacknowledged a p (m :: ms) =
      if EndsBelow a (p, m) then unacknowledged a (p + m.sequenceLength) ms
      else m :: unacknowledged a (p + m.sequenceLength) ms := by
  unfold unacknowledged
  rw [numbered, List.filter_cons]
  by_cases h : EndsBelow a (p, m) <;> simp [h]

/-- An acknowledgment of nothing. -/
theorem acknowledged_of_le (h : a ≤ p) (ms : List TCPSenderMessage) :
    acknowledged a p ms = [] ∧ unacknowledged a p ms = ms := by
  induction ms generalizing p with
  | nil => exact ⟨rfl, rfl⟩
  | cons m ms ih =>
    have hout : ¬ EndsBelow a (p, m) := by
      rintro ⟨hpos, hle⟩
      dsimp only at hpos hle
      omega
    obtain ⟨h1, h2⟩ := ih (p := p + m.sequenceLength) (by omega)
    rw [acknowledged_cons, unacknowledged_cons, if_neg hout, if_neg hout, h1, h2]
    exact ⟨rfl, rfl⟩

/-- An acknowledgment of everything. -/
theorem acknowledged_of_span_le (ms : List TCPSenderMessage) (h : p + span ms ≤ a) :
    acknowledged a p ms = segments ms ∧
      unacknowledged a p ms = ms.filter fun m => decide (m.sequenceLength = 0) := by
  induction ms generalizing p with
  | nil => exact ⟨rfl, rfl⟩
  | cons m ms ih =>
    rw [span_cons] at h
    obtain ⟨h1, h2⟩ := ih (p := p + m.sequenceLength) (by omega)
    rw [acknowledged_cons, unacknowledged_cons, h1, h2, segments, segments, List.filter_cons,
      List.filter_cons]
    rcases Nat.eq_zero_or_pos m.sequenceLength with h0 | hpos
    · have hout : ¬ EndsBelow a (p, m) := fun hb => absurd hb.1 (by rw [h0]; exact Nat.lt_irrefl 0)
      rw [if_neg hout, if_neg hout, h0]
      exact ⟨rfl, rfl⟩
    · have hin : EndsBelow a (p, m) := ⟨hpos, by dsimp only; omega⟩
      rw [if_pos hin, if_pos hin, if_pos (decide_eq_true hpos),
        if_neg (by rw [decide_eq_true_eq]; exact Nat.ne_of_gt hpos)]
      exact ⟨rfl, rfl⟩

/-! ### The queue in the sequence space -/

/-- The queue goes on from `p`: first the segments, then the messages without length. -/
def Laid (isn : Wrap32) (p : Nat) : List TCPSenderMessage → Prop
  | [] => True
  | m :: ms =>
    ((0 < m.sequenceLength ∧ m.seqno = .wrap p isn) ∨
      (m.sequenceLength = 0 ∧ span ms = 0 ∧ 0 < p ∧ m.seqno = .wrap (p - 1) isn)) ∧
    Laid isn (p + m.sequenceLength) ms

theorem laid_idle {finQueued : Bool} (hp : finQueued = true → 0 < p) :
    ∀ {idle : List TCPSenderMessage}, (∀ z ∈ idle, Idle isn p finQueued z) →
      span idle = 0 ∧ Laid isn p idle
  | [], _ => ⟨rfl, trivial⟩
  | z :: idle, h => by
    have hz := h z List.mem_cons_self
    obtain ⟨h0, hl⟩ := laid_idle hp fun x hx => h x (List.mem_cons_of_mem z hx)
    refine ⟨by rw [span_cons, hz.length, h0], .inr ⟨hz.length, h0, hp hz.finQueued, hz.seqno⟩, ?_⟩
    rw [hz.length]; exact hl

/-- The queue ends where the tiling does. -/
theorem SenderInv.laid (h : SenderInv isn D segs s) :
    ∃ p, span segs = p + span s.msgQueue ∧ Laid isn p s.msgQueue := by
  obtain ⟨old, rest, idle, hsegs, hq, hidle⟩ := h.queue
  have htotal := h.total
  obtain ⟨h0, hl⟩ := laid_idle (fun hF => by rw [htotal, hF, Bool.toNat_true]; omega) hidle
  refine ⟨span old, by rw [hsegs, hq, span_append, span_append, h0, Nat.add_zero], ?_⟩
  rw [hq]
  clear hq
  induction rest generalizing old with
  | nil => rw [hsegs, List.append_nil] at hl; exact hl
  | cons m rest ih =>
    have hm : SentAt segs (span old) m := ⟨old, rest, hsegs, rfl⟩
    have hpl := h.placed _ _ hm
    refine ⟨.inl ⟨hpl.positive, hpl.wellFormed.seqno⟩, ?_⟩
    have := ih (old ++ [m]) (by rw [hsegs, List.append_assoc]; rfl)
    rwa [span_append, span_cons, span_nil] at this

/-! ### The two tests -/

theorem acknowledges_iff (hc : s.input.bytesPushed + 2 ^ 33 < 2 ^ 64) {inFlight : Nat}
    (hlen : m.sequenceLength ≤ inFlight) (hI : inFlight < 2 ^ 32) :
    s.Acknowledges ackno m inFlight ↔
      m.seqno.unwrap s.isn s.input.bytesPushed + m.sequenceLength =
          ackno.unwrap s.isn s.input.bytesPushed ∨
        m.seqno.unwrap s.isn s.input.bytesPushed + inFlight =
          ackno.unwrap s.isn s.input.bytesPushed := by
  have hu : m.seqno.unwrap s.isn s.input.bytesPushed ≤ _ := Wrap32.unwrap_le hc
  rw [Acknowledges, add64_of_lt (by omega), add64_of_lt (by omega)]

/-- A segment that `p` up to `p + inFlight` starts with is acknowledged by two of the numbers in
between, and by none unless `unwrap` finds it there. -/
theorem acknowledges_segment_iff (hc : s.input.bytesPushed + 2 ^ 33 < 2 ^ 64) {inFlight : Nat}
    (hseq : m.seqno = .wrap p s.isn) (hlen : m.sequenceLength ≤ inFlight) (hI : inFlight < 2 ^ 32)
    (hlo : p < ackno.unwrap s.isn s.input.bytesPushed)
    (hhi : ackno.unwrap s.isn s.input.bytesPushed ≤ p + inFlight) :
    s.Acknowledges ackno m inFlight ↔ m.seqno.unwrap s.isn s.input.bytesPushed = p ∧
      (ackno.unwrap s.isn s.input.bytesPushed = p + m.sequenceLength ∨
        ackno.unwrap s.isn s.input.bytesPushed = p + inFlight) := by
  have hmod := Wrap32.unwrap_mod p s.isn s.input.bytesPushed
  rw [acknowledges_iff hc hlen hI, hseq]
  omega

/-- An acknowledgment up to where the front message starts does not take it off. -/
theorem Laid.not_acknowledges (hc : s.input.bytesPushed + 2 ^ 33 < 2 ^ 64)
    (h : Laid s.isn p (m :: rest)) (hI : span (m :: rest) < 2 ^ 32)
    (ha : ackno.unwrap s.isn s.input.bytesPushed = p) :
    ¬ s.Acknowledges ackno m (span (m :: rest)) := by
  rw [span_cons] at hI ⊢
  rw [acknowledges_iff hc (Nat.le_add_right _ _) hI, ha]
  rcases h.1 with ⟨hpos, hseq⟩ | ⟨h0, hrest, hp, hseq⟩ <;>
    have hmod := Wrap32.unwrap_mod p s.isn s.input.bytesPushed <;>
    have hmod' := Wrap32.unwrap_mod (p - 1) s.isn s.input.bytesPushed <;> rw [hseq] <;> omega

/-! ### The loop -/

theorem dequeue_inFlight (hB : s.bytesInQueue = span (m :: rest)) (hI : span (m :: rest) < 2 ^ 32) :
    (s.dequeue m).bytesInQueue = span rest := by
  rw [span_cons] at hB hI
  show sub64 _ _ = _
  rw [sub64_of_le (by omega) (by omega), hB, Nat.add_sub_cancel_left]

/-- An acknowledgment up to where the front message starts removes nothing. -/
theorem Laid.receiveLoop_stops (hc : s.input.bytesPushed + 2 ^ 33 < 2 ^ 64)
    (hack : msg.ackno = some ackno) (h : Laid s.isn p queue) (hB : s.bytesInQueue = span queue)
    (hI : span queue < 2 ^ 32) (ha : ackno.unwrap s.isn s.input.bytesPushed = p) :
    receiveLoop msg queue s = .ok { s with msgQueue := queue } := by
  cases queue with
  | nil => rfl
  | cons m rest =>
    have := h.not_acknowledges hc hI ha
    rw [← hB] at this
    exact receiveLoop_neg hack this

/-- An acknowledgment of everything in flight removes all the segments, and no message without
length. -/
theorem Laid.receiveLoop_all (hack : msg.ackno = some ackno) : ∀ (queue : List TCPSenderMessage)
    (s : TCPSender) (p : Nat), s.input.bytesPushed + 2 ^ 33 < 2 ^ 64 → Laid s.isn p queue →
    s.bytesInQueue = span queue → span queue < 2 ^ 32 →
    (0 < span queue → (Wrap32.wrap p s.isn).unwrap s.isn s.input.bytesPushed = p) →
    ackno.unwrap s.isn s.input.bytesPushed = p + span queue →
    ∃ s', receiveLoop msg queue s = .ok s' ∧ s'.bytesInQueue = 0 ∧
      s'.msgQueue = queue.filter fun m => decide (m.sequenceLength = 0) := by
  intro queue
  induction queue with
  | nil => exact fun s p _ _ hB _ _ _ => ⟨_, rfl, hB, rfl⟩
  | cons m rest ih =>
    intro s p hc h hB hI hp ha
    rcases h.1 with ⟨hpos, hseq⟩ | ⟨h0, hrest, -, -⟩
    · rw [span_cons] at ha hp
      have hu := hp (by omega)
      have htest : s.Acknowledges ackno m s.sequenceNumbersInFlight := by
        rw [sequenceNumbersInFlight, hB, span_cons]
        rw [span_cons] at hI
        exact (acknowledges_segment_iff hc hseq (Nat.le_add_right _ _) hI (by omega) (by omega)).2
          ⟨by rw [hseq, hu], .inr ha⟩
      have hnext : (Wrap32.wrap (p + m.sequenceLength) s.isn).unwrap s.isn s.input.bytesPushed =
          p + m.sequenceLength := by
        have hend : (Wrap32.wrap (p + (m.sequenceLength + span rest)) s.isn).unwrap s.isn
            s.input.bytesPushed = p + (m.sequenceLength + span rest) := by
          rw [← ha, Wrap32.wrap_unwrap]
        exact Wrap32.unwrap_wrap_between hc hu hend (by omega) (by omega)
      obtain ⟨s', hr, hB', hq'⟩ := ih (s.dequeue m) _ hc h.2 (dequeue_inFlight hB hI)
        (by rw [span_cons] at hI; omega) (fun _ => hnext) (by rw [Nat.add_assoc]; exact ha)
      refine ⟨s', (receiveLoop_pos hack htest).trans hr, hB', ?_⟩
      rw [hq', List.filter_cons, if_neg (by rw [decide_eq_true_eq]; exact Nat.ne_of_gt hpos)]
    · have hz : span (m :: rest) = 0 := by rw [span_cons, h0, hrest]
      refine ⟨_, h.receiveLoop_stops hc hack hB hI (by rw [ha, hz, Nat.add_zero]), hB.trans hz,
        (List.filter_eq_self.2 fun x hx => decide_eq_true ?_).symm⟩
      have hx : x ∈ m :: rest := hx
      obtain ⟨l, r, hlr⟩ := List.append_of_mem hx
      rw [hlr, span_append, span_cons] at hz
      omega

/-- The loop takes off the queue exactly what ends below `a`. -/
def Removes (msg : TCPReceiverMessage) (a p : Nat) (queue : List TCPSenderMessage)
    (s : TCPSender) : Prop :=
  ∃ s', receiveLoop msg queue s = .ok s' ∧ s'.msgQueue = unacknowledged a p queue ∧
    s'.bytesInQueue + span (acknowledged a p queue) = s.bytesInQueue

/-- Everything in flight is acknowledged. -/
theorem Laid.removes_all (hc : s.input.bytesPushed + 2 ^ 33 < 2 ^ 64)
    (hack : msg.ackno = some ackno) (h : Laid s.isn p queue) (hB : s.bytesInQueue = span queue)
    (hI : span queue < 2 ^ 32)
    (hu : 0 < span queue → (Wrap32.wrap p s.isn).unwrap s.isn s.input.bytesPushed = p)
    (ha : ackno.unwrap s.isn s.input.bytesPushed = a) (hend : a = p + span queue) :
    Removes msg a p queue s := by
  obtain ⟨s', hr, hB', hq'⟩ := Laid.receiveLoop_all hack _ s p hc h hB hI hu (ha.trans hend)
  obtain ⟨h1, h2⟩ := acknowledged_of_span_le queue (Nat.le_of_eq hend.symm)
  exact ⟨s', hr, hq'.trans h2.symm, by rw [h1, span_segments, hB', hB, Nat.zero_add]⟩

/-- The front segment is acknowledged: the rest of the queue starts where that ends. -/
theorem Laid.removes_front (hc : s.input.bytesPushed + 2 ^ 33 < 2 ^ 64)
    (hack : msg.ackno = some ackno) (h : Laid s.isn p (front :: rest))
    (hB : s.bytesInQueue = span (front :: rest)) (hI : span (front :: rest) < 2 ^ 32)
    (hpos : 0 < front.sequenceLength)
    (hin : s.Acknowledges ackno front s.sequenceNumbersInFlight)
    (ha : ackno.unwrap s.isn s.input.bytesPushed = a) (he : a = p + front.sequenceLength) :
    Removes msg a p (front :: rest) s := by
  have hbelow : EndsBelow a (p, front) := ⟨hpos, Nat.le_of_eq he.symm⟩
  obtain ⟨h1, h2⟩ := acknowledged_of_le (Nat.le_of_eq he) rest
  have hB' := dequeue_inFlight hB hI
  rw [Removes, receiveLoop_pos hack hin, acknowledged_cons, unacknowledged_cons, if_pos hbelow,
    if_pos hbelow, h1, h2]
  refine ⟨_, Laid.receiveLoop_stops hc hack h.2 hB' (by rw [span_cons] at hI; omega)
    (ha.trans he), rfl, ?_⟩
  rw [hB, span_cons, span_cons, span_nil]
  exact (congrArg (· + _) hB').trans (Nat.add_comm _ _)

/-- Nothing ends below an acknowledgment that ends inside the front message. -/
theorem removes_none (hack : msg.ackno = some ackno)
    (hout : ¬ s.Acknowledges ackno front s.sequenceNumbersInFlight)
    (hlt : a < p + front.sequenceLength) : Removes msg a p (front :: rest) s := by
  have hnot : ¬ EndsBelow a (p, front) := fun hb => Nat.not_le.2 hlt hb.2
  obtain ⟨h1, h2⟩ := acknowledged_of_le (Nat.le_of_lt hlt) rest
  refine ⟨_, receiveLoop_neg hack hout, ?_, ?_⟩
  · rw [unacknowledged_cons, if_neg hnot, h2]
  · rw [acknowledged_cons, if_neg hnot, h1]; rfl

/-- Past the end of the front segment something should be removed. -/
theorem not_removes (hack : msg.ackno = some ackno)
    (hout : ¬ s.Acknowledges ackno front s.sequenceNumbersInFlight)
    (hpos : 0 < front.sequenceLength) (hge : p + front.sequenceLength ≤ a) :
    ¬ Removes msg a p (front :: rest) s := by
  rintro ⟨s', hr, -, hkeep⟩
  rw [receiveLoop_neg hack hout] at hr
  cases hr
  rw [acknowledged_cons, if_pos ⟨hpos, hge⟩, span_cons] at hkeep
  dsimp only at hkeep
  omega

/-- What the loop does to a queue with a segment at the front. -/
theorem Laid.removes_iff (hc : s.input.bytesPushed + 2 ^ 33 < 2 ^ 64)
    (hack : msg.ackno = some ackno) (h : Laid s.isn p (front :: rest))
    (hB : s.bytesInQueue = span (front :: rest)) (hI : span (front :: rest) < 2 ^ 32)
    (hpos : 0 < front.sequenceLength) (ha : ackno.unwrap s.isn s.input.bytesPushed = a)
    (hlo : p < a) (hhi : a ≤ p + span (front :: rest)) :
    Removes msg a p (front :: rest) s ↔
      a < p + front.sequenceLength ∨ (front.seqno.unwrap s.isn s.input.bytesPushed = p ∧
        (a = p + front.sequenceLength ∨ a = p + span (front :: rest))) := by
  have hseq : front.seqno = .wrap p s.isn := by
    rcases h.1 with ⟨-, hseq⟩ | ⟨h0, -⟩
    · exact hseq
    · omega
  have htest : s.Acknowledges ackno front s.sequenceNumbersInFlight ↔
      front.seqno.unwrap s.isn s.input.bytesPushed = p ∧
        (a = p + front.sequenceLength ∨ a = p + span (front :: rest)) := by
    rw [sequenceNumbersInFlight, hB, acknowledges_segment_iff hc hseq (by rw [span_cons]; omega) hI
      (ha ▸ hlo) (ha ▸ hhi), ha]
  by_cases hin : s.Acknowledges ackno front s.sequenceNumbersInFlight
  · obtain ⟨hu, hends⟩ := htest.1 hin
    refine iff_of_true ?_ (.inr ⟨hu, hends⟩)
    rcases hends with he | he
    · exact h.removes_front hc hack hB hI hpos hin ha he
    · exact h.removes_all hc hack hB hI (fun _ => by rw [← hseq, hu]) ha he
  · by_cases hlt : a < p + front.sequenceLength
    · exact iff_of_true (removes_none hack hin hlt) (.inl hlt)
    · refine iff_of_false (not_removes hack hin hpos (Nat.le_of_not_lt hlt)) ?_
      rintro (h | h)
      · exact hlt h
      · exact hin (htest.2 h)

/-! ### Cumulative acknowledgment -/

theorem acknowledges_noteWindow (s : TCPSender) (msg : TCPReceiverMessage) :
    (s.noteWindow msg).Acknowledges ackno m (s.noteWindow msg).sequenceNumbersInFlight ↔
      s.Acknowledges ackno m s.sequenceNumbersInFlight := by
  rw [Acknowledges, sequenceNumbersInFlight, noteWindow_isn, noteWindow_bytesPushed,
    noteWindow_inFlight]
  rfl

/-- What a reachable sender knows of its queue. -/
structure Counted (s : TCPSender) (p : Nat) : Prop where
  laid : Laid s.isn p s.msgQueue
  next : s.nextSeqno = p + span s.msgQueue
  inFlight : s.bytesInQueue = span s.msgQueue
  bound : span s.msgQueue < 2 ^ 32
  oldest : ∀ m rest, s.msgQueue = m :: rest → 0 < m.sequenceLength → s.oldestSeqno = p
  checkpoint : s.input.bytesPushed + 2 ^ 33 < 2 ^ 64

theorem SenderInv.counted (h : SenderInv isn D segs s) (hD : D.length < 2 ^ 63) :
    ∃ p, Counted s p := by
  obtain ⟨p, hspan, hlaid⟩ := h.laid
  have hB := h.inFlight
  have hbound := h.bound
  have hF := Bool.toNat_le s.finQueued
  have hnext : s.nextSeqno = p + span s.msgQueue := h.total.symm.trans hspan
  refine ⟨p, by rw [h.origin]; exact hlaid, hnext, hB, by omega, fun m rest hq hpos => ?_, ?_⟩
  · rw [oldestSeqno, hq]
    dsimp only
    rw [if_pos hpos, hnext, sequenceNumbersInFlight, hB, Nat.add_sub_cancel]
  · rw [bytesPushed, h.pushed]; omega

/-- The absolute sequence number of the front of the queue is what its message says. -/
theorem Counted.seqno_front (h : Counted s p) (hq : s.msgQueue = front :: rest) :
    front.seqno = .wrap s.oldestSeqno s.isn ∧
      (front.sequenceLength = 0 → s.oldestSeqno + 1 = p ∧ span s.msgQueue = 0) := by
  have hl := h.laid
  rw [hq] at hl
  rcases hl.1 with ⟨hpos, hseq⟩ | ⟨h0, hrest, hp, hseq⟩
  · rw [h.oldest _ _ hq hpos]
    exact ⟨hseq, fun h0 => by omega⟩
  · have hspan : span s.msgQueue = 0 := by rw [hq, span_cons, h0, hrest]
    have hold : s.oldestSeqno = p - 1 := by
      rw [oldestSeqno, hq]
      dsimp only
      rw [if_neg (by omega), h.next, hspan, Nat.add_zero]
    rw [hold]
    exact ⟨hseq, fun _ => ⟨by omega, hspan⟩⟩

/-- An acknowledgment of something new takes off the queue what ends below it, when it ends inside
the front message, with the front message, or with everything that is in flight; then only while 32 bits
tell where the front message is. A message without length has nothing to acknowledge. -/
theorem receive_removes_iff (msg : TCPReceiverMessage) (hcap : capacity < 2 ^ 64)
    (hacc : acc.length < 2 ^ 63) (h : SenderRun capacity isn rto s acc sent cleared)
    (hq : s.msgQueue = front :: rest) (hack : msg.ackno = some ackno)
    (ha : ackno.unwrap s.isn s.input.bytesPushed = a)
    (hlo : s.oldestSeqno < a) (hhi : a ≤ s.nextSeqno) :
    (∃ s', s.receive msg = .ok s' ∧
      s'.msgQueue = unacknowledged a s.oldestSeqno s.msgQueue ∧
      s'.sequenceNumbersInFlight + span (acknowledged a s.oldestSeqno s.msgQueue) =
        s.sequenceNumbersInFlight) ↔
      front.sequenceLength = 0 ∨ a < s.oldestSeqno + front.sequenceLength ∨
        (front.seqno.unwrap s.isn s.input.bytesPushed = s.oldestSeqno ∧
          (a = s.oldestSeqno + front.sequenceLength ∨ a = s.nextSeqno)) := by
  obtain ⟨p, hk⟩ := (h.inv hcap).counted hacc
  have hl := hk.laid
  have hB := hk.inFlight
  have hI := hk.bound
  have hc := hk.checkpoint
  have hnext := hk.next
  rw [receive, hq]
  rw [hq] at hl hB hI hnext
  rw [← noteWindow_isn s msg] at hl ha
  rw [← noteWindow_bytesPushed s msg] at hc ha
  rcases Nat.eq_zero_or_pos front.sequenceLength with h0 | hpos
  · refine iff_of_true ?_ (.inl h0)
    obtain ⟨hold, hspan⟩ := (hk.seqno_front hq).2 h0
    rw [hq] at hspan
    obtain ⟨s', hr, hB', hq'⟩ := Laid.receiveLoop_all hack _ _ p hc hl
      ((noteWindow_inFlight s msg).trans hB) hI (by omega) (ha.trans (by omega))
    obtain ⟨h1, h2⟩ := acknowledged_of_span_le (a := a) (p := s.oldestSeqno) (front :: rest) (by omega)
    refine ⟨s', hr, hq'.trans h2.symm, ?_⟩
    rw [h1, span_segments, sequenceNumbersInFlight, sequenceNumbersInFlight, hB', hB, Nat.zero_add]
  · have hold := hk.oldest _ _ hq hpos
    rw [hold] at hlo ⊢
    have hiff := hl.removes_iff hc hack ((noteWindow_inFlight s msg).trans hB) hI hpos ha hlo
      (hnext ▸ hhi)
    rw [Removes, noteWindow_isn, noteWindow_bytesPushed, noteWindow_inFlight, ← hnext] at hiff
    exact hiff.trans ⟨.inr, fun h => h.resolve_left (Nat.ne_of_gt hpos)⟩

/-- The SYN has been acknowledged; two bytes in one segment are, too. -/
theorem receive_removes_iff_ab : ∃ s sent cleared, SenderRun 4 ⟨7⟩ 1000 s [1, 2] sent cleared ∧
    s.sequenceNumbersInFlight = 2 ∧
    ∃ s', s.receive { ackno := some ⟨10⟩, windowSize := 5 } = .ok s' ∧
      s'.msgQueue = unacknowledged 3 s.oldestSeqno s.msgQueue ∧
      s'.sequenceNumbersInFlight + span (acknowledged 3 s.oldestSeqno s.msgQueue) =
        s.sequenceNumbersInFlight := by
  have h₀ : SenderRun 4 ⟨7⟩ 1000 _ _ _ _ := .start
  have h₁ := h₀.push rfl
  have h₂ : SenderRun 4 ⟨7⟩ 1000
      { input := { capacity := 4 }, isn := ⟨7⟩, initialRTO := 1000, synSent := true, curWinSize := 5 }
      [] _ _ := h₁.receive { ackno := some ⟨8⟩, windowSize := 5 } (by decide)
  have h₃ := (h₂.write [1, 2]).push rfl
  have h := receive_removes_iff (a := 3) { ackno := some ⟨10⟩, windowSize := 5 } (by decide)
    (by decide) h₃ rfl rfl (by decide) (by decide) (by decide)
  exact ⟨_, _, _, h₃, rfl, h.2 (.inr (.inr (by decide)))⟩

/-- Three segments of a byte each; an acknowledgment of the first two of them removes none. -/
theorem receive_keeps : ∃ s sent cleared, SenderRun 4 ⟨7⟩ 1000 s [1, 2, 3] sent cleared ∧
    s.oldestSeqno = 1 ∧ s.nextSeqno = 4 ∧ (⟨10⟩ : Wrap32).unwrap s.isn s.input.bytesPushed = 3 ∧
    s.receive { ackno := some ⟨10⟩, windowSize := 5 } = .ok s ∧
    (acknowledged 3 s.oldestSeqno s.msgQueue).length = 2 ∧
    s.msgQueue ≠ unacknowledged 3 s.oldestSeqno s.msgQueue := by
  have h₀ : SenderRun 4 ⟨7⟩ 1000 _ _ _ _ := .start
  have h₁ := h₀.push rfl
  have h₂ : SenderRun 4 ⟨7⟩ 1000
      { input := { capacity := 4 }, isn := ⟨7⟩, initialRTO := 1000, synSent := true, curWinSize := 5 }
      [] _ _ := h₁.receive { ackno := some ⟨8⟩, windowSize := 5 } (by decide)
  have h₃ : SenderRun 4 ⟨7⟩ 1000
      { input := { capacity := 4, totalPushed := 1, totalPopped := 1 }, isn := ⟨7⟩, initialRTO := 1000,
        synSent := true, curWinSize := 5, msgQueue := [⟨⟨8⟩, false, [1], false, false⟩],
        bytesInQueue := 1 } [1] _ _ := (h₂.write [1]).push rfl
  have h₄ : SenderRun 4 ⟨7⟩ 1000
      { input := { capacity := 4, totalPushed := 2, totalPopped := 2 }, isn := ⟨7⟩, initialRTO := 1000,
        synSent := true, curWinSize := 5,
        msgQueue := [⟨⟨8⟩, false, [1], false, false⟩, ⟨⟨9⟩, false, [2], false, false⟩],
        bytesInQueue := 2 } [1, 2] _ _ := (h₃.write [2]).push rfl
  have h₅ := (h₄.write [3]).push rfl
  exact ⟨_, _, _, h₅, by decide, by decide, by decide, by decide, by decide, by decide⟩

/-! ### Acknowledgments of nothing new -/

/-- A queue whose front message leaves it is shorter. -/
theorem receiveLoop_length (hB : s.bytesInQueue = span (front :: rest))
    (hI : span (front :: rest) < 2 ^ 32) (hr : receiveLoop msg rest (s.dequeue front) = .ok s') :
    s'.msgQueue.length < (front :: rest).length := by
  have hB' := dequeue_inFlight hB hI
  have hlt : (s.dequeue front).bytesInQueue < 2 ^ 64 := by
    rw [hB']
    rw [span_cons] at hI
    omega
  obtain ⟨gone, ha⟩ := receiveLoop_acks rest _ hB' hlt hr
  rw [ha.queue, List.length_cons, List.length_append]
  omega

/-- The front message passes a test of an old acknowledgment, or of an impossible one, only without
length at its own sequence number, or where 32 bits do not tell where it is. -/
theorem Counted.acknowledges_iff (h : Counted s p) (hq : s.msgQueue = front :: rest)
    (hstale : ackno.unwrap s.isn s.input.bytesPushed ≤ s.oldestSeqno ∨
      s.nextSeqno < ackno.unwrap s.isn s.input.bytesPushed) :
    s.Acknowledges ackno front s.sequenceNumbersInFlight ↔
      ¬ ((front.sequenceLength = 0 → ackno ≠ front.seqno) ∧
        (front.seqno.unwrap s.isn s.input.bytesPushed ≠ s.oldestSeqno →
          ackno.unwrap s.isn s.input.bytesPushed ≠
              front.seqno.unwrap s.isn s.input.bytesPushed + front.sequenceLength ∧
            ackno.unwrap s.isn s.input.bytesPushed ≠
              front.seqno.unwrap s.isn s.input.bytesPushed + s.sequenceNumbersInFlight)) := by
  have hI := h.bound
  have hnext := h.next
  rw [← h.inFlight] at hI hnext
  have hle : front.sequenceLength ≤ s.bytesInQueue := by
    rw [h.inFlight, hq, span_cons]; omega
  rw [sequenceNumbersInFlight, TCPSender.acknowledges_iff h.checkpoint hle hI]
  rcases Nat.eq_zero_or_pos front.sequenceLength with h0 | hpos
  · have hsame : ackno = front.seqno ↔ front.seqno.unwrap s.isn s.input.bytesPushed =
        ackno.unwrap s.isn s.input.bytesPushed := by
      refine ⟨fun he => by rw [he], fun he => ?_⟩
      rw [← Wrap32.wrap_unwrap ackno s.isn s.input.bytesPushed, ← he, Wrap32.wrap_unwrap]
    have hnone : s.bytesInQueue = 0 := h.inFlight.trans ((h.seqno_front hq).2 h0).2
    rw [ne_eq, hsame, h0, hnone]
    omega
  · have hold := h.oldest _ _ hq hpos
    rw [hold] at hstale ⊢
    omega

/-- An acknowledgment of nothing new is harmless when it is there, and does not name the sequence
number of a message without length at the front of the queue, as long as 32 bits tell where that is. -/
theorem receive_harmless_iff (msg : TCPReceiverMessage) (hcap : capacity < 2 ^ 64)
    (hacc : acc.length < 2 ^ 63) (h : SenderRun capacity isn rto s acc sent cleared)
    (hstale : ∀ ackno, msg.ackno = some ackno →
      ackno.unwrap s.isn s.input.bytesPushed ≤ s.oldestSeqno ∨
        s.nextSeqno < ackno.unwrap s.isn s.input.bytesPushed) :
    s.receive msg = .ok { s with
        input := if msg.RST then s.input.setError else s.input
        curWinSize := msg.windowSize.toNat
        winAdvertisedZero := decide (msg.windowSize = 0) } ↔
      ∀ front rest, s.msgQueue = front :: rest → ∃ ackno, msg.ackno = some ackno ∧
        (front.sequenceLength = 0 → ackno ≠ front.seqno) ∧
        (front.seqno.unwrap s.isn s.input.bytesPushed ≠ s.oldestSeqno →
          ackno.unwrap s.isn s.input.bytesPushed ≠
              front.seqno.unwrap s.isn s.input.bytesPushed + front.sequenceLength ∧
            ackno.unwrap s.isn s.input.bytesPushed ≠
              front.seqno.unwrap s.isn s.input.bytesPushed + s.sequenceNumbersInFlight) := by
  obtain ⟨p, hk⟩ := (h.inv hcap).counted hacc
  have hB := (noteWindow_inFlight s msg).trans hk.inFlight
  have hI := hk.bound
  rw [← noteWindow_eq, receive]
  cases hq : s.msgQueue with
  | nil =>
    refine iff_of_true ?_ fun front rest hc => by cases hc
    rw [receiveLoop, ← hq, noteWindow_eq]
  | cons front rest =>
    rw [hq] at hB hI
    cases hack : msg.ackno with
    | none =>
      refine iff_of_false ?_ fun hall => ?_
      · rw [receiveLoop, hack]; exact fun hc => by cases hc
      · obtain ⟨_, hc, -⟩ := hall _ _ rfl
        cases hc
    | some ackno =>
      have hiff := hk.acknowledges_iff hq (hstale _ hack)
      rw [← acknowledges_noteWindow s msg] at hiff
      by_cases hin : (s.noteWindow msg).Acknowledges ackno front
          (s.noteWindow msg).sequenceNumbersInFlight
      · refine iff_of_false (fun hr => ?_) fun hall => ?_
        · rw [receiveLoop_pos hack hin] at hr
          have hlt := receiveLoop_length hB hI hr
          rw [noteWindow_eq] at hlt
          exact absurd hlt (by rw [← hq]; exact Nat.lt_irrefl _)
        · obtain ⟨_, hc, hfree⟩ := hall _ _ rfl
          cases hc
          exact hiff.1 hin hfree
      · refine iff_of_true ?_ fun f r hc => ?_
        · rw [receiveLoop_neg hack hin, ← hq, noteWindow_eq]
        · cases hc
          exact ⟨ackno, rfl, Classical.not_not.1 (mt hiff.2 hin)⟩

/-- The SYN is outstanding, and the peer acknowledges what comes before it. -/
theorem receive_harmless_iff_syn : ∃ s sent cleared, SenderRun 4 ⟨7⟩ 1000 s [] sent cleared ∧
    s.sequenceNumbersInFlight = 1 ∧
    s.receive { ackno := some ⟨7⟩, windowSize := 5, RST := true } = .ok { s with
      input := s.input.setError
      curWinSize := 5
      winAdvertisedZero := false } := by
  have h₀ : SenderRun 4 ⟨7⟩ 1000 _ _ _ _ := .start
  have h₁ : SenderRun 4 ⟨7⟩ 1000
      { input := { capacity := 4 }, isn := ⟨7⟩, initialRTO := 1000, synSent := true,
        msgQueue := [⟨⟨7⟩, true, [], false, false⟩], bytesInQueue := 1 } [] _ _ := h₀.push rfl
  have h := receive_harmless_iff { ackno := some ⟨7⟩, windowSize := 5, RST := true } (by decide)
    (by decide) h₁ (by rintro _ ⟨⟩; exact .inl (by decide))
  refine ⟨_, _, _, h₁, rfl, h.2 ?_⟩
  rintro _ _ ⟨⟩
  exact ⟨⟨7⟩, rfl, by decide, by decide⟩

/-- The SYN is outstanding, and a message without an ackno comes in: the optional is read all the
same. -/
theorem receive_harms : ∃ s sent cleared, SenderRun 4 ⟨7⟩ 1000 s [] sent cleared ∧
    s.sequenceNumbersInFlight = 1 ∧ s.receive { windowSize := 5 } = .undefined .noValue := by
  have h₀ : SenderRun 4 ⟨7⟩ 1000 _ _ _ _ := .start
  exact ⟨_, _, _, h₀.push rfl, rfl, rfl⟩

end Minnow.TCPSender
