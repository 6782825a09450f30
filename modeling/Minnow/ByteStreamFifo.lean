import Minnow.ByteStream
import Minnow.Lib.Fifo

/-!
# The byte stream is a bounded FIFO

`ByteStream.Run` collects the streams that pushes, closes and pops of buffered bytes can reach. Each
of them refines a `Fifo` that went through the same operations, so the order of the bytes is the
library's `Fifo.Run.split`; what is left for the stream itself are its counters and its chunks.
-/

namespace Minnow.ByteStream
open Prog

/-- The streams of a given capacity, with the bytes accepted by the pushes so far (`acc`), the bytes
removed by the pops so far (`out`), and whether there has been a close. A push is accepted as far as
there is room, and not at all after a close. `peek` is a const method and takes no step. -/
inductive Run (capacity : Nat) : ByteStream → Bytes → Bytes → Bool → Prop
  | start : Run capacity { capacity } [] [] false
  | push {s : ByteStream} {acc out : Bytes} {closed : Bool} (data : Bytes)
      (h : Run capacity s acc out closed) :
      Run capacity (s.push data)
        (acc ++ if closed then [] else data.take s.availableCapacity) out closed
  | close {s : ByteStream} {acc out : Bytes} {closed : Bool} (h : Run capacity s acc out closed) :
      Run capacity s.close acc out true
  | pop {s s' : ByteStream} {acc out : Bytes} {closed : Bool} (len : Nat)
      (h : Run capacity s acc out closed) (hlen : len ≤ s.bytesBuffered)
      (hpop : s.pop len = some s') : Run capacity s' acc (out ++ s.queued.take len) closed

/-- The stream and the FIFO hold the same bytes and are closed or not alike. -/
structure Refines (s : ByteStream) (f : Fifo Byte) : Prop where
  capacity : f.capacity = s.capacity
  items : f.items = s.queued
  closed : f.closed = s.isClosed

variable {s s' : ByteStream} {f : Fifo Byte} {capacity len : Nat} {acc out data : Bytes}
  {closed : Bool}

theorem Refines.kept (hr : Refines s f) (h : s.Wf) : f.kept data = s.taken data := by
  simp only [Fifo.kept, Fifo.room, taken, hr.closed, hr.capacity, hr.items, h.availableCapacity_eq,
    h.buffered]

theorem Refines.push (hr : Refines s f) (h : s.Wf) (data : Bytes) :
    Refines (s.push data) (f.write data) := by
  have hp := push_pushed s data
  refine ⟨hr.capacity.trans hp.capacity.symm, ?_, hr.closed.trans hp.isClosed.symm⟩
  show f.items ++ f.kept data = _
  rw [hp.queued, hr.items, hr.kept h]

theorem Refines.pop (hr : Refines s f) (hp : Popped s len s') : Refines s' (f.drop len) := by
  refine ⟨hr.capacity.trans hp.capacity.symm, ?_, hr.closed.trans hp.isClosed.symm⟩
  show f.items.drop len = _
  rw [hp.queued, hr.items]

/-- Forward simulation: every run of the stream is a run of the FIFO, and the stream counts as closed
when there has been a close. -/
theorem Run.simulates (hc : capacity < 2 ^ 64) (h : Run capacity s acc out closed) :
    s.Wf ∧ s.isClosed = closed ∧ ∃ f, Fifo.Run capacity f acc out ∧ Refines s f := by
  induction h with
  | start => exact ⟨wf_new hc, rfl, _, .start, rfl, rfl, rfl⟩
  | push data _ ih =>
    obtain ⟨hwf, rfl, f, hf, hr⟩ := ih
    have hk : f.kept data = _ := hr.kept hwf
    rw [taken] at hk
    exact ⟨hwf.push data, (push_pushed _ data).isClosed, _, hk ▸ hf.write data, hr.push hwf data⟩
  | close _ ih =>
    obtain ⟨hwf, -, f, hf, hr⟩ := ih
    exact ⟨hwf.close, rfl, _, hf.close, hr.capacity, hr.items, rfl⟩
  | pop len _ hlen hpop ih =>
    obtain ⟨hwf, hcl, f, hf, hr⟩ := ih
    have hp := hwf.popped hlen hpop
    exact ⟨hp.wf, hp.isClosed.trans hcl, _, hr.items ▸ hf.drop len, hr.pop hp⟩

theorem Run.bytesPopped_eq (hc : capacity < 2 ^ 64) (h : Run capacity s acc out closed) :
    s.bytesPopped = out.length := by
  induction h with
  | start => rfl
  | push data _ ih => rw [← ih]; exact (push_pushed _ data).totalPopped
  | close _ ih => exact ih
  | pop len h hlen hpop ih =>
    have hwf := (h.simulates hc).1
    have hp := hwf.popped hlen hpop
    have hb := hwf.buffered
    unfold bytesBuffered at hlen
    rw [List.length_append, List.length_take, ← hb, ← ih, Nat.min_eq_left hlen]
    exact hp.totalPopped

/-- The byte stream refines a bounded FIFO, whatever is pushed, popped and closed in whatever order:
nothing that was accepted is lost, repeated or reordered, nothing is accepted after a close, the
counters agree with the chunks, and no pop of buffered bytes hangs or runs off the deque. -/
theorem run_refines_fifo (hc : capacity < 2 ^ 64) (h : Run capacity s acc out closed) :
    out ++ s.deck.flatten = acc ∧
    s.bytesBuffered = s.deck.flatten.length ∧
    s.bytesPopped = out.length ∧
    s.bytesPushed = s.bytesPopped + s.bytesBuffered ∧
    s.bytesBuffered ≤ capacity ∧
    s.availableCapacity = capacity - s.bytesBuffered ∧
    (∀ c ∈ s.deck, c ≠ []) ∧
    (s.peek ≠ [] ↔ 0 < s.bytesBuffered) ∧
    (∀ len ≤ s.bytesBuffered, ∃ s', s.pop len = some s') ∧
    s.isClosed = closed ∧
    (s.isFinished = true ↔ closed = true ∧ s.bytesPopped = s.bytesPushed) := by
  obtain ⟨hwf, rfl, f, hf, hr⟩ := h.simulates hc
  have hcap : s.capacity = capacity := by rw [← hr.capacity, hf.capacity_eq]
  have hsplit := hf.split
  rw [hr.items] at hsplit
  refine ⟨hsplit, hwf.buffered, h.bytesPopped_eq hc, hwf.pushed, hcap ▸ hwf.fits, ?_, hwf.chunks,
    peek_ne_nil_iff hwf, fun len hlen => ?_, rfl, isFinished_iff hwf⟩
  · rw [← hcap]; exact hwf.availableCapacity_eq
  · obtain ⟨s', hs', -⟩ := pop_spec hwf hlen
    exact ⟨s', hs'⟩

/-- Capacity 3: an over-long push, a pop through part of the chunk, a close, a push that comes too
late, and a pop of the rest. -/
theorem run_refines_fifo_abc :
    ∃ s t, Run 3 s [1, 2, 3] [1, 2] true ∧ [1, 2] ++ s.deck.flatten = [1, 2, 3] ∧
      s.isClosed = true ∧ s.isFinished = false ∧
      Run 3 t [1, 2, 3] [1, 2, 3] true ∧ t.isFinished = true := by
  have h₂ : Run 3 _ _ _ _ := ((Run.start : Run 3 _ _ _ _).push [1, 2, 3, 4]).pop 2 (by decide) rfl
  have h : Run 3 _ [1, 2, 3] [1, 2] true := h₂.close.push [5]
  have h' : Run 3 _ [1, 2, 3] [1, 2, 3] true := h.pop 1 (by decide) rfl
  obtain ⟨hq, -, -, -, -, -, -, -, -, hcl, -⟩ := run_refines_fifo (by decide) h
  obtain ⟨hq', hb, -, hp, -, -, -, -, -, -, hfin⟩ := run_refines_fifo (by decide) h'
  rw [List.append_right_eq_self.1 hq'] at hb
  exact ⟨_, _, h, hq, hcl, rfl, h', hfin.2 ⟨rfl, by rw [hp, hb]; rfl⟩⟩

end Minnow.ByteStream
