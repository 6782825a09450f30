import Minnow.SenderRun

/-!
# What leaves the queue of the sender

All that `push` has transmitted is either still queued or has been removed by an acknowledgment, in
the order of transmission (`QueueInv`). While 32 bits tell which sequence number is meant, a message
is only removed by an acknowledgment at or past its end (`queue_sound`).
-/

namespace Minnow.TCPSender
open Prog ByteStream

variable {s s' : TCPSender} {isn : Wrap32} {D acc before : Bytes}
  {segs sent gone out : List TCPSenderMessage} {cleared : List (TCPSenderMessage × Nat)}
  {m : TCPSenderMessage} {msg : TCPReceiverMessage} {capacity rto : Nat} {ackno : Wrap32}

/-- A call of `push` only adds to the queue. -/
theorem Sends.queue (hs : Sends s out s') : s'.msgQueue = s.msgQueue ++ out := by
  induction hs with
  | nil => rw [List.append_nil]
  | snoc _ ht ih => rw [ht.state, ← List.append_assoc, ← ih]

/-- The capacity of the stream never changes. -/
theorem SenderRun.capacity_eq (hcap : capacity < 2 ^ 64)
    (h : SenderRun capacity isn rto s acc sent cleared) : s.input.capacity = capacity := by
  induction h with
  | start => rfl
  | write data _ ih => exact (push_pushed _ _).capacity.trans ih
  | close _ ih => exact ih
  | setError _ ih => exact ih
  | push h hp ih =>
    have hs := (h.inv hcap).ready.push_sends hp
    clear hp
    induction hs with
    | nil => exact ih
    | snoc _ ht ih => exact ht.popped.capacity.trans ih
  | tick ms _ ih =>
    obtain ⟨t, c, heq⟩ := tick_eq _ ms
    rw [heq]; exact ih
  | receive msg h hr ih =>
    have hi := h.inv hcap
    obtain ⟨gone, ha⟩ := receive_acks hi.inFlight hi.inFlight_lt hr
    rw [ha.state, noteWindow_eq]
    dsimp only
    split <;> exact ih

/-- Where a queued segment is: not more than a window behind the end of the tiling. -/
theorem SenderInv.near (h : SenderInv isn D segs s) {p : Nat} (hlo : span segs ≤ p + s.bytesInQueue + 1)
    (hhi : p ≤ span segs) (hdeck : s.input.bytesInDeck < 2 ^ 30) (hD : D.length < 2 ^ 63) :
    (Wrap32.wrap p isn).unwrap s.isn s.input.bytesPushed = p := by
  have ht := h.total
  have hlen := h.length
  have hb := h.bound
  have h1 := Bool.toNat_le s.finQueued
  have h2 := Bool.toNat_le s.synSent
  have hpush := h.pushed
  rw [h.origin, bytesPushed, hpush]
  exact Wrap32.unwrap_wrap (by omega) (by omega) (by omega)

theorem span_segments (ms : List TCPSenderMessage) : span (segments ms) = span ms := extent_filter _ ms

theorem span_eq_zero_or_split (ms : List TCPSenderMessage) : span ms = 0 ∨
    ∃ pre m post, ms = pre ++ m :: post ∧ 0 < m.sequenceLength ∧ span post = 0 := by
  induction ms with
  | nil => exact .inl rfl
  | cons x ms ih =>
    rcases ih with h0 | ⟨pre, m, post, rfl, hm, hpost⟩
    · rcases Nat.eq_zero_or_pos x.sequenceLength with hx | hx
      · exact .inl (by rw [span_cons, hx, h0])
      · exact .inr ⟨[], x, ms, rfl, hx, h0⟩
    · exact .inr ⟨x :: pre, m, post, rfl, hm, hpost⟩

/-- Where a queued message is in the sequence space, and how much comes from there on. -/
theorem SenderInv.position (h : SenderInv isn D segs s) {pre post : List TCPSenderMessage}
    (hq : s.msgQueue = pre ++ m :: post) : ∃ p, m.seqno = .wrap p isn ∧ p ≤ span segs ∧
      span segs ≤ p + s.bytesInQueue + 1 ∧
      (0 < m.sequenceLength → SentAt segs p m ∧ span segs = p + span (m :: post)) := by
  have hB := h.inFlight
  rw [hq, span_append] at hB
  rcases Nat.eq_zero_or_pos m.sequenceLength with h0 | hpos
  · have hq' : s.msgQueue = (pre ++ [m]) ++ post := by rw [hq, List.append_assoc]; rfl
    obtain ⟨-, -, -, -, -, -, -, hidle⟩ := h.split hq'
    exact ⟨span segs - 1, (hidle m (by simp) h0).seqno, by omega, by omega, fun hp => by omega⟩
  · obtain ⟨old, rest, idle, hsegs, -, hrest, -, -⟩ := h.split hq
    have hcons : rest = m :: segments post := by
      rw [← hrest, segments, List.filter_cons, if_pos (decide_eq_true hpos)]; rfl
    have hspan : span rest = span (m :: post) := by rw [← hrest, span_segments]
    have hat : SentAt segs (span (old ++ segments pre)) m := ⟨_, segments post, by rw [hsegs, hcons], rfl⟩
    have htotal : span segs = span (old ++ segments pre) + span (m :: post) := by
      rw [hsegs, span_append, hspan]
    exact ⟨_, (h.placed _ _ hat).wellFormed.seqno, by omega, by omega, fun _ => ⟨hat, htotal⟩⟩

/-- A message that an acknowledgment removes ends at or before it. -/
theorem SenderInv.acked (h : SenderInv isn D segs s) (hcap : s.input.capacity < 2 ^ 30)
    (hD : D.length < 2 ^ 63)
    (ha : Acks (s.noteWindow msg) msg.ackno s.msgQueue gone s') {pre post : List TCPSenderMessage}
    (hg : gone = pre ++ m :: post) : ∃ ackno, msg.ackno = some ackno ∧ ∃ p, m.seqno = .wrap p isn ∧
      p + m.sequenceLength ≤ ackno.unwrap s.isn s.input.bytesPushed ∧
      (0 < m.sequenceLength → span segs = p + span (m :: post ++ s'.msgQueue)) := by
  have hq : s.msgQueue = pre ++ m :: (post ++ s'.msgQueue) := by rw [ha.queue, hg]; simp
  obtain ⟨p, hseq, hle, hge, hpos⟩ := h.position hq
  obtain ⟨ackno, hack, htest⟩ := ha.tests pre m post hg
  refine ⟨ackno, hack, p, hseq, ?_, fun hm => (hpos hm).2⟩
  have hu := h.near hge hle (Nat.lt_of_le_of_lt h.ready.stream.fits hcap) hD
  have hB := h.inFlight
  have hbound := h.bound
  have h1 := Bool.toNat_le s.finQueued
  have h2 := Bool.toNat_le s.synSent
  have ht := h.total
  have hlen := h.length
  rw [hq, span_append, span_cons] at hB
  rw [Acknowledges, noteWindow_isn, noteWindow_bytesPushed, noteWindow_inFlight, hseq, hu] at htest
  rcases htest with htest | htest
  · rw [add64_of_lt (by omega)] at htest
    omega
  · rw [add64_of_lt (by omega)] at htest
    omega

/-- Everything transmitted is accounted for, and everything removed had been acknowledged. -/
structure QueueInv (isn : Wrap32) (s : TCPSender) (sent : List TCPSenderMessage)
    (cleared : List (TCPSenderMessage × Nat)) : Prop where
  sent : sent = cleared.map Prod.fst ++ s.msgQueue
  acked : ∀ pre m A post, cleared = pre ++ (m, A) :: post → ∃ p, m.seqno = .wrap p isn ∧
    p + m.sequenceLength ≤ A ∧ (0 < m.sequenceLength → p = span (pre.map Prod.fst))

theorem QueueInv.receive (hq : QueueInv isn s sent cleared)
    (hi : SenderInv isn D (segments sent) s) (hcap : s.input.capacity < 2 ^ 30)
    (hD : D.length < 2 ^ 63) (hr : s.receive msg = .ok s') :
    QueueInv isn s' sent (cleared ++ (s.msgQueue.take (s.msgQueue.length - s'.msgQueue.length)).map
      fun m => (m, (msg.ackno.map (·.unwrap s.isn s.input.bytesPushed)).getD 0)) := by
  obtain ⟨gone, ha⟩ := receive_acks hi.inFlight hi.inFlight_lt hr
  have hgone : s.msgQueue.take (s.msgQueue.length - s'.msgQueue.length) = gone := by
    rw [ha.queue, List.length_append, Nat.add_sub_cancel]; exact List.take_left
  have hsent := hq.sent
  rw [ha.queue] at hsent
  have hacked : ∀ {pre m post}, gone = pre ++ m :: post → ∃ p, m.seqno = .wrap p isn ∧
      p + m.sequenceLength ≤ (msg.ackno.map (·.unwrap s.isn s.input.bytesPushed)).getD 0 ∧
      (0 < m.sequenceLength → span (segments sent) = p + span (m :: post ++ s'.msgQueue)) := by
    intro pre m post hg
    obtain ⟨ackno, hack, h⟩ := hi.acked hcap hD ha hg
    rw [hack, Option.map_some, Option.getD_some]
    exact h
  rw [hgone]
  generalize (msg.ackno.map (·.unwrap s.isn s.input.bytesPushed)).getD 0 = A at hacked ⊢
  have hfst : ∀ l : List TCPSenderMessage, (l.map fun m => (m, A)).map Prod.fst = l := by
    intro l
    rw [List.map_map]; exact List.map_id l
  refine ⟨by rw [hsent, List.map_append, hfst, List.append_assoc], fun pre m B post hpre => ?_⟩
  -- a message removed by this call
  have hnew : ∀ {l}, pre = cleared ++ l → (gone.map fun m => (m, A)) = l ++ (m, B) :: post →
      ∃ p, m.seqno = .wrap p isn ∧ p + m.sequenceLength ≤ B ∧
        (0 < m.sequenceLength → p = span (pre.map Prod.fst)) := by
    rintro l rfl hpost
    obtain ⟨l, rest, hg, rfl, hrest⟩ := List.map_eq_append_iff.1 hpost
    obtain ⟨x, post, rfl, hx, rfl⟩ := List.map_eq_cons_iff.1 hrest
    obtain ⟨rfl, rfl⟩ := Prod.mk.inj hx
    obtain ⟨p, hseq, hle, hpos⟩ := hacked hg
    refine ⟨p, hseq, hle, fun hm => ?_⟩
    have htotal := hpos hm
    rw [span_segments, hsent, hg] at htotal
    rw [List.map_append, hfst]
    simp only [span_append, span_cons] at htotal ⊢
    omega
  rcases List.append_eq_append_iff.1 hpre with ⟨l, hl, hpost⟩ | ⟨l, hl, hpost⟩
  · exact hnew hl hpost
  · cases l with
    | nil => exact hnew (l := []) (by rw [hl, List.append_nil, List.append_nil]) hpost.symm
    | cons x l =>
      obtain ⟨rfl, hl'⟩ := List.cons.inj hpost
      exact hq.acked pre m B l hl

/-- The queue is sound: nothing leaves it but by an acknowledgment of all of it. -/
theorem queue_sound (hcap : capacity < 2 ^ 30) (hacc : acc.length < 2 ^ 63)
    (h : SenderRun capacity isn rto s acc sent cleared) :
    s.sequenceNumbersInFlight = span s.msgQueue ∧ segments s.msgQueue <:+ segments sent ∧
    sent = cleared.map Prod.fst ++ s.msgQueue ∧
    ∀ pre m A post, cleared = pre ++ (m, A) :: post → ∃ p, m.seqno = .wrap p isn ∧
      p + m.sequenceLength ≤ A ∧ (0 < m.sequenceLength → p = span (pre.map Prod.fst)) := by
  have hcap' : capacity < 2 ^ 64 := by omega
  have hq : QueueInv isn s sent cleared := by
    induction h with
    | start => exact ⟨rfl, fun pre m A post h => by simp at h⟩
    | write data h ih =>
      rw [List.length_append] at hacc
      have := ih (by omega)
      exact ⟨this.sent, this.acked⟩
    | close _ ih => exact ⟨(ih hacc).sent, (ih hacc).acked⟩
    | setError _ ih => exact ⟨(ih hacc).sent, (ih hacc).acked⟩
    | push h hp ih =>
      have hs := (h.inv hcap').ready.push_sends hp
      exact ⟨by rw [hs.queue, ← List.append_assoc, ← (ih hacc).sent], (ih hacc).acked⟩
    | tick ms _ ih =>
      obtain ⟨t, c, heq⟩ := tick_eq _ ms
      rw [heq]
      exact ⟨(ih hacc).sent, (ih hacc).acked⟩
    | receive msg h hr ih =>
      exact (ih hacc).receive (h.inv hcap') (h.capacity_eq hcap' ▸ hcap) hacc hr
  refine ⟨(h.inv hcap').inFlight, ⟨segments (cleared.map Prod.fst), ?_⟩, hq.sent, hq.acked⟩
  rw [← segments_append, ← hq.sent]

/-- A SYN that has been acknowledged, and two bytes that have not. -/
theorem queue_sound_ab : ∃ s sent cleared, SenderRun 4 ⟨7⟩ 1000 s [1, 2] sent cleared ∧
    s.sequenceNumbersInFlight = span s.msgQueue ∧ sent = cleared.map Prod.fst ++ s.msgQueue ∧
    cleared.length = 1 ∧ s.msgQueue.length = 1 := by
  have h₀ : SenderRun 4 ⟨7⟩ 1000 _ _ _ _ := .start
  have h₁ := h₀.push rfl
  have h₂ : SenderRun 4 ⟨7⟩ 1000
      { input := { capacity := 4 }, isn := ⟨7⟩, initialRTO := 1000, synSent := true, curWinSize := 5 }
      [] _ _ := h₁.receive { ackno := some ⟨8⟩, windowSize := 5 } (by decide)
  have h₃ := (h₂.write [1, 2]).push rfl
  have h := queue_sound (by decide) (by decide) h₃
  exact ⟨_, _, _, h₃, h.1, h.2.2.1, rfl, rfl⟩

end Minnow.TCPSender
