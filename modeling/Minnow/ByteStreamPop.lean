import Minnow.ByteStream

/-!
# Pops of more than is buffered

`pop` asks once, before its loop, whether the deque is empty, and the loop stops only when it has
removed as many bytes as it was asked for. So a pop of more than is buffered does nothing to an empty
stream, and runs off the end of the deque of any other.
-/

namespace Minnow.ByteStream
open Prog

/-- The streams of a given capacity that any calls reach, pops of any length among them. A pop that
runs off the deque has no stream after it. -/
inductive Reached (capacity : Nat) : ByteStream → Prop
  | start : Reached capacity { capacity }
  | push {s : ByteStream} (data : Bytes) (h : Reached capacity s) : Reached capacity (s.push data)
  | close {s : ByteStream} (h : Reached capacity s) : Reached capacity s.close
  | setError {s : ByteStream} (h : Reached capacity s) : Reached capacity s.setError
  | pop {s s' : ByteStream} (len : Nat) (h : Reached capacity s) (hpop : s.pop len = some s') :
      Reached capacity s'

/-- The first `n` bytes are gone, the three counts say so, and nothing else has changed. -/
structure Removed (s : ByteStream) (n : Nat) (s' : ByteStream) : Prop where
  queued : s'.queued = s.queued.drop n
  bytesPopped : s'.bytesPopped = s.bytesPopped + n
  bytesBuffered : s'.bytesBuffered = s.bytesBuffered - n
  availableCapacity : s'.availableCapacity = s.availableCapacity + n
  bytesPushed : s'.bytesPushed = s.bytesPushed
  isClosed : s'.isClosed = s.isClosed
  hasError : s'.hasError = s.hasError

variable {s s' : ByteStream} {capacity len : Nat}

theorem Popped.removed (h : Popped s len s') (hs : s.Wf) : Removed s len s' where
  queued := h.queued
  bytesPopped := h.totalPopped
  bytesBuffered := h.bytesInDeck hs
  availableCapacity := by
    have hle := h.le hs
    have hfits := hs.fits
    rw [h.wf.availableCapacity_eq, hs.availableCapacity_eq, h.capacity, h.bytesInDeck hs]
    omega
  bytesPushed := h.totalPushed
  isClosed := h.isClosed
  hasError := h.error

theorem pop_of_empty (h : s.deck = []) (len : Nat) : s.pop len = some s := by
  rw [pop, if_pos h]

/-- The loop of an over-long pop does not go on for ever: it ends at the front of an empty deque. -/
theorem pop_overrun (h : s.Wf) (hd : s.deck ≠ []) (hlen : s.bytesBuffered < len) :
    loop (popBody len) (s.deck.length + 2) (s, 0) = some none ∧ s.pop len = none := by
  obtain ⟨r, hr, ⟨s', -, hp⟩ | ⟨rfl, -⟩⟩ := pop_loop h len
  · have hle := hp.le h
    unfold bytesBuffered at hlen
    omega
  · exact ⟨hr, by rw [pop, if_neg hd, hr]; rfl⟩

/-- A pop that returns did not run off the deque, and removed what there was of the bytes asked for. -/
theorem Wf.popped_min (h : s.Wf) (hpop : s.pop len = some s') :
    (len ≤ s.bytesBuffered ∨ s.bytesBuffered = 0) ∧ Popped s (min len s.bytesBuffered) s' := by
  rcases Nat.lt_or_ge s.bytesBuffered len with hlt | hle
  · by_cases hd : s.deck = []
    · have hz : s.bytesBuffered = 0 := h.deck_eq_nil_iff.1 hd
      rw [pop_of_empty hd] at hpop; cases hpop
      rw [hz, Nat.min_zero]
      exact ⟨.inr rfl, .refl h⟩
    · rw [(pop_overrun h hd hlt).2] at hpop; cases hpop
  · rw [Nat.min_eq_left hle]
    exact ⟨.inl hle, h.popped hle hpop⟩

theorem Reached.wf (hc : capacity < 2 ^ 64) (h : Reached capacity s) : s.Wf := by
  induction h with
  | start => exact wf_new hc
  | push data _ ih => exact ih.push data
  | close _ ih => exact ih.close
  | setError _ ih => exact ih.setError
  | pop len _ hpop ih => exact (ih.popped_min hpop).2.wf

/-- A pop of any length removes what there is of the bytes asked for, unless some but not enough of
them are buffered: then it looks at the front of an empty deque. -/
theorem pop_safe_iff (hc : capacity < 2 ^ 64) (h : Reached capacity s) (len : Nat) :
    (∃ s', s.pop len = some s' ∧ Removed s (min len s.bytesBuffered) s') ↔
      len ≤ s.bytesBuffered ∨ s.bytesBuffered = 0 := by
  have hwf := h.wf hc
  constructor
  · rintro ⟨s', hpop, -⟩
    exact (hwf.popped_min hpop).1
  · intro hlen
    have hret : ∃ s', s.pop len = some s' := by
      rcases hlen with hle | hz
      · obtain ⟨s', hpop, -⟩ := pop_spec hwf hle
        exact ⟨s', hpop⟩
      · exact ⟨s, pop_of_empty (hwf.deck_eq_nil_iff.2 hz) len⟩
    obtain ⟨s', hpop⟩ := hret
    exact ⟨s', hpop, (hwf.popped_min hpop).2.removed hwf⟩

/-- Two bytes buffered, two popped. -/
theorem pop_safe_iff_two :
    ∃ s, Reached 4 s ∧ ∃ s', s.pop 2 = some s' ∧ Removed s (min 2 s.bytesBuffered) s' := by
  have h : Reached 4 _ := (Reached.start : Reached 4 _).push [1, 2]
  exact ⟨_, h, (pop_safe_iff (by decide) h 2).2 (.inl (by decide))⟩

/-- Two bytes buffered, three popped. -/
theorem pop_three_of_two :
    ∃ s, Reached 4 s ∧ s.bytesBuffered = 2 ∧
      loop (popBody 3) (s.deck.length + 2) (s, 0) = some none ∧
      ¬ ∃ s', s.pop 3 = some s' ∧ Removed s (min 3 s.bytesBuffered) s' := by
  refine ⟨_, (Reached.start : Reached 4 _).push [1, 2], by decide, by decide, ?_⟩
  rintro ⟨s', hpop, -⟩
  cases (show (push { capacity := 4 } [1, 2]).pop 3 = none by decide).symm.trans hpop

end Minnow.ByteStream
