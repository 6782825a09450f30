import Minnow.ByteStreamFifo
import Minnow.ByteStreamPop
import Minnow.Lib.Outcome

/-!
# The helper `read` (`byte_stream_helpers.cc`)

`read` looks at the front chunk, takes what it still wants of it and pops that. It comes to an end with
the bytes that were asked for, or with an empty stream (`read_exact`).
-/

namespace Minnow.ByteStream
open Prog

/-- One pass of the loop in `read`, which carries the reader and `out`. -/
def readBody (len : Nat) :
    ByteStream × Bytes → Ctl (ByteStream × Bytes) (Outcome (ByteStream × Bytes))
  | (reader, out) =>
    if reader.bytesBuffered ≠ 0 ∧ out.length < len then
      let view := reader.peek
      if view = [] then .exit (.throws .runtimeError (reader, out))
      else
        let view := view.take (len - out.length)
        match reader.pop view.length with
        | none => .exit (.undefined .emptyFront)
        | some reader => .next (reader, out ++ view)
    else .exit (.ok (reader, out))

/-- Every pass but the last pops a byte. -/
def read (reader : ByteStream) (len : Nat) : Option (Outcome (ByteStream × Bytes)) :=
  loop (readBody len) (reader.bytesBuffered + 1) (reader, [])

variable {s t t' : ByteStream} {acc popped out out' : Bytes} {capacity len : Nat}
  {closed : Bool}
  {r : Outcome (ByteStream × Bytes)}

/-- So far `out` has been read of `s`, and `t` is left. -/
structure Reading (s : ByteStream) (len : Nat) (t : ByteStream) (out : Bytes) : Prop where
  popped : Popped s out.length t
  bytes : out = s.queued.take out.length
  le : out.length ≤ len

theorem Reading.next (h : Reading s len t out) (hb : readBody len (t, out) = .next (t', out')) :
    Reading s len t' out' ∧ t'.bytesBuffered < t.bytesBuffered := by
  rw [readBody] at hb
  split at hb
  swap
  · cases hb
  next hmore =>
  dsimp only at hb
  split at hb
  · cases hb
  next hview =>
  obtain ⟨htake, t₁, hpop, hp⟩ := pop_view h.popped.wf (len - out.length)
  have hk : (t.peek.take (len - out.length)).length = min (len - out.length) t.peek.length :=
    List.length_take
  have hpos := List.length_pos_iff.2 hview
  have hleft := hp.bytesInDeck h.popped.wf
  rw [hpop] at hb
  cases hb
  unfold bytesBuffered at *
  refine ⟨⟨?_, ?_, ?_⟩, by omega⟩
  · rw [List.length_append]; exact h.popped.trans hp
  · rw [List.length_append, List.take_add, ← h.bytes, ← h.popped.queued, ← htake]
  · rw [List.length_append]; omega

theorem Reading.exit (h : Reading s len t out) (hs : s.Wf) (hb : readBody len (t, out) = .exit r) :
    r = .ok (t, s.queued.take (min len s.bytesBuffered)) ∧
      Popped s (min len s.bytesBuffered) t := by
  rw [readBody] at hb
  split at hb
  next hmore =>
    have hview := (peek_ne_nil_iff h.popped.wf).2 (Nat.pos_of_ne_zero hmore.1)
    obtain ⟨-, t₁, hpop, -⟩ := pop_view h.popped.wf (len - out.length)
    dsimp only at hb
    rw [if_neg hview, hpop] at hb
    cases hb
  next hdone =>
    cases hb
    have hleft := h.popped.bytesInDeck hs
    have hle := h.popped.le hs
    have hlen := h.le
    unfold bytesBuffered at *
    have hn : out.length = min len s.bytesInDeck := by omega
    have hp := h.popped
    rw [← hn, ← h.bytes]
    exact ⟨rfl, hp⟩

theorem readBody_ne_spin (len : Nat) (p : ByteStream × Bytes) : readBody len p ≠ .spin := by
  rw [readBody]
  split
  · dsimp only
    split
    · nofun
    · split <;> nofun
  · nofun

/-- `read` ends without an exception, with the first bytes of the queue, as many as were asked for or as
there are, and they are gone from the stream. -/
theorem read_exact (hc : capacity < 2 ^ 64) (h : Run capacity s acc popped closed) (len : Nat) :
    ∃ s', s.read len = some (.ok (s', s.queued.take (min len s.bytesBuffered))) ∧
      Removed s (min len s.bytesBuffered) s' := by
  have hwf := (h.simulates hc).1
  have hloop : ∃ r, loop (readBody len) (s.bytesBuffered + 1) (s, []) = some r ∧
      ∃ s', r = .ok (s', s.queued.take (min len s.bytesBuffered)) ∧
        Popped s (min len s.bytesBuffered) s' := by
    refine loop_total (fun p : ByteStream × Bytes => Reading s len p.1 p.2)
      (fun r => ∃ s', r = Outcome.ok (s', s.queued.take (min len s.bytesBuffered)) ∧
        Popped s (min len s.bytesBuffered) s')
      (fun p => p.1.bytesBuffered) ?_ ?_ ?_ ⟨.refl hwf, rfl, Nat.zero_le _⟩
      (Nat.lt_succ_self _)
    · exact fun p p' hi hb => hi.next hb
    · exact fun p r hi hb => ⟨p.1, hi.exit hwf hb⟩
    · exact fun p _ => readBody_ne_spin len p
  obtain ⟨r, hr, s', rfl, hp⟩ := hloop
  exact ⟨s', hr, hp.removed hwf⟩

/-- Three bytes in two chunks, two read: the second chunk is read in part. -/
theorem read_exact_ab : ∃ s, Run 4 s [1, 2, 3] [] false ∧ ∃ s', s.read 2 = some (.ok (s', [1, 2])) ∧
    Removed s 2 s' := by
  have h : Run 4 _ _ _ _ := ((Run.start : Run 4 _ _ _ _).push [1]).push [2, 3]
  exact ⟨_, h, read_exact (by decide) h 2⟩

end Minnow.ByteStream
