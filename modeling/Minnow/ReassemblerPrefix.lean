import Minnow.ReassemblerTracks

/-!
# What the reassembler puts out is a prefix of the stream

`PieceRun` collects the reassemblers that pieces of a fixed stream `D` and reads can reach. As long
as every piece is `Safe` when it is inserted, the bytes put out are a prefix of `D`
(`prefix_of_safe`); `prefix_fails` is a run with a piece that is not.
-/

namespace Minnow.Reassembler
open Prog ByteStream

/-- `data` is the part of `D` that starts at `firstIndex`. -/
structure Piece (D : Bytes) (firstIndex : Nat) (data : Bytes) : Prop where
  bound : firstIndex + data.length ≤ D.length
  bytes : data <+: D.drop firstIndex

structure Call where
  firstIndex : Nat
  data : Bytes
  isLast : Bool

def Call.Covers (c : Call) (k : Nat) : Prop :=
  c.firstIndex ≤ k ∧ k < c.firstIndex + c.data.length

instance (c : Call) (k : Nat) : Decidable (c.Covers k) := inferInstanceAs (Decidable (_ ∧ _))

/-- A call with a piece of `D`, marked as the last only where `D` ends. -/
structure Call.Fits (D : Bytes) (c : Call) : Prop where
  piece : Piece D c.firstIndex c.data
  last : c.isLast = true → c.firstIndex + c.data.length = D.length

/-- The reassemblers over a stream of a given capacity, with the calls of `insert` so far and the
bytes read so far. `Ok` says which calls may be made in which state. A call that throws leaves the
object as it then is. -/
inductive PieceRun (capacity : Nat) (D : Bytes) (Ok : Reassembler → Call → Prop) :
    Reassembler → List Call → Bytes → Prop
  | start : PieceRun capacity D Ok (ofStream { capacity }) [] []
  | insert {r r' : Reassembler} {calls : List Call} {out : Bytes} (c : Call)
      (h : PieceRun capacity D Ok r calls out) (hc : c.Fits D) (hok : Ok r c)
      (hl : (r.insert c.firstIndex c.data c.isLast).Leaves r') :
      PieceRun capacity D Ok r' (c :: calls) out
  | pop {r : Reassembler} {o : ByteStream} {calls : List Call} {out : Bytes} (len : Nat)
      (h : PieceRun capacity D Ok r calls out) (hlen : len ≤ r.output.bytesBuffered)
      (hpop : r.output.pop len = some o) :
      PieceRun capacity D Ok { r with output := o } calls (out ++ r.output.queued.take len)

variable {r r' : Reassembler} {a a' : Assembly Byte} {D data out xs : Bytes} {firstIndex k : Nat}
  {isLast : Bool} {calls : List Call} {capacity : Nat}

theorem Piece.getElem? (h : Piece D firstIndex data) {b : Byte} (hk : firstIndex ≤ k)
    (hb : data[k - firstIndex]? = some b) : D[k]? = some b := by
  obtain ⟨hlt, rfl⟩ := List.getElem?_eq_some_iff.1 hb
  have := List.prefix_iff_getElem?.1 h.bytes _ hlt
  rwa [List.getElem?_drop, Nat.add_sub_cancel' hk] at this

theorem accepted_agrees (h : Piece D firstIndex data) {b : Byte}
    (hb : r.accepted firstIndex data k = some b) : D[k]? = some b := by
  unfold accepted at hb
  split at hb
  next hk => exact h.getElem? (by omega) hb
  next => cases hb

/-- What a reassembler knows of the stream `D` is right. -/
structure Knows (D : Bytes) (r : Reassembler) (a : Assembly Byte) (out : Bytes) : Prop where
  tracks : r.Tracks a
  agrees : a.Agrees D
  split : out ++ r.output.queued = a.out
  total : r.seenLast = true → r.totalLen = D.length
  closed : r.output.isClosed = true → r.seenLast = true ∧ r.output.totalPushed = D.length

theorem Knows.pushed_le (h : Knows D r a out) : r.output.totalPushed ≤ D.length := by
  rw [← h.tracks.length]; exact h.agrees.out.length_le

theorem knows_ofStream {capacity : Nat} (hc : capacity < 2 ^ 64) (D : Bytes) :
    Knows D (ofStream { capacity }) .empty [] :=
  ⟨tracks_ofStream hc, Assembly.agrees_empty D, rfl, fun h => (by cases h), fun h => (by cases h)⟩

theorem Knows.inserted (h : Knows D r a out) (hD : D.length < 2 ^ 64)
    (hacc : ∀ k b, r.accepted firstIndex data k = some b → D[k]? = some b)
    (hlast : isLast = true → firstIndex + data.length = D.length)
    (hi : Inserted r a firstIndex data isLast r' a' xs) : Knows D r' a' out := by
  have hagrees := hi.absorbs.agrees h.agrees fun k b _ hb => hacc k b hb
  have htotal : r'.seenLast = true → r'.totalLen = D.length := by
    intro hs
    rw [hi.totalLen, endAfter]
    split
    next hl => rw [← hlast hl, add64_of_lt (by rw [hlast hl]; exact hD)]
    next hl => rw [hi.seenLast] at hs; exact h.total (by simpa [hl] using hs)
  have hle : r'.output.totalPushed ≤ D.length := by
    rw [← hi.tracks.length]; exact hagrees.out.length_le
  refine ⟨hi.tracks, hagrees, ?_, htotal, fun hc => ?_⟩
  · rw [hi.moves.queued, hi.out, ← h.split, List.append_assoc]
  · rw [hi.isClosed, Bool.or_eq_true, Bool.and_eq_true, decide_eq_true_eq] at hc
    rcases hc with hc | ⟨hs, hP⟩
    · have hcl := h.closed hc
      have := hi.moves.totalPushed
      exact ⟨by rw [hi.seenLast, hcl.1, Bool.true_or], by omega⟩
    · exact ⟨hs, hP.trans (htotal hs)⟩

theorem Knows.skipped (h : Knows D r a out) (hs : Skipped r r') (ht : r'.Tracks a) :
    Knows D r' a out :=
  ⟨ht, h.agrees, hs.output ▸ h.split, fun hl => hs.totalLen ▸ h.total (hs.seenLast ▸ hl),
    fun hc => by rw [hs.seenLast, hs.output]; exact h.closed (hs.output ▸ hc)⟩

/-- Once the output is closed a piece has nothing to add to it. -/
theorem Knows.open (h : Knows D r a out) (hpiece : Piece D firstIndex data) :
    r.output.isClosed = false ∨ r.curIndex < firstIndex ∨
      firstIndex + data.length ≤ r.curIndex := by
  cases hc : r.output.isClosed with
  | false => exact .inl rfl
  | true =>
    have := (h.closed hc).2
    have := h.tracks.sync
    have := hpiece.bound
    exact .inr (.inr (by omega))

/-- A safe call keeps what the reassembler knows right. -/
theorem Knows.insert (h : Knows D r a out) (hD : D.length < 2 ^ 64)
    (hpiece : Piece D firstIndex data)
    (hlast : isLast = true → firstIndex + data.length = D.length)
    (hsafe : r.Safe firstIndex data) (hl : (r.insert firstIndex data isLast).Leaves r') :
    ∃ a', Knows D r' a' out := by
  have hbound := hpiece.bound
  have hcur : r.curIndex < 2 ^ 64 := by
    have := h.tracks.sync
    have := h.pushed_le
    omega
  rcases h.tracks.insert_spec hsafe (by omega) hcur (h.open hpiece) hl with
    ⟨-, a', xs, hi⟩ | ⟨hs, ht, -⟩
  · exact ⟨a', h.inserted hD (fun k b => accepted_agrees hpiece) hlast hi⟩
  · exact ⟨a, h.skipped hs ht⟩

/-- An insert of nothing can only tell where the stream ends. -/
theorem Knows.insert_nil (h : Knows D r a out) (hD : D.length < 2 ^ 64)
    (hopen : r.output.isClosed = false) (hlast : isLast = true → firstIndex = D.length)
    (hl : (r.insert firstIndex [] isLast).Leaves r') : ∃ a', Knows D r' a' out := by
  have hcur : r.curIndex < 2 ^ 64 := by
    have := h.tracks.sync
    have := h.pushed_le
    omega
  have hacc : ∀ k b, r.accepted firstIndex [] k = some b → D[k]? = some b := by
    intro k b hb
    rw [accepted_nil] at hb; cases hb
  rcases h.tracks.insert_spec (h.tracks.safe_nil _) (Nat.zero_le _) hcur (.inl hopen) hl with
    ⟨-, a', xs, hi⟩ | ⟨hs, ht, -⟩
  · exact ⟨a', h.inserted hD hacc hlast hi⟩
  · exact ⟨a, h.skipped hs ht⟩

theorem Knows.setError (h : Knows D r a out) :
    Knows D { r with output := r.output.setError } a out :=
  ⟨h.tracks.setError, h.agrees, h.split, h.total, h.closed⟩

/-- A stream whose end has not been seen may go on. -/
theorem Knows.append (h : Knows D r a out) (hs : r.seenLast = false) (xs : Bytes) :
    Knows (D ++ xs) r a out :=
  ⟨h.tracks, h.agrees.mono (List.prefix_append _ _), h.split, fun hl => absurd hl (by simp [hs]),
    fun hc => absurd (h.closed hc).1 (by simp [hs])⟩

theorem Knows.pop {o : ByteStream} {len : Nat} (h : Knows D r a out)
    (hpop : Popped r.output len o) :
    Knows D { r with output := o } a (out ++ r.output.queued.take len) := by
  refine ⟨h.tracks.pop hpop, h.agrees, ?_, h.total, fun hc => ?_⟩
  · show _ ++ o.queued = _
    rw [hpop.queued, List.append_assoc, List.take_append_drop, h.split]
  · show _ ∧ o.totalPushed = _
    rw [hpop.totalPushed]; exact h.closed (hpop.isClosed ▸ hc)

theorem PieceRun.knows (hc : capacity < 2 ^ 64) (hD : D.length < 2 ^ 64)
    (h : PieceRun capacity D (fun r c => r.Safe c.firstIndex c.data) r calls out) :
    ∃ a, Knows D r a out := by
  induction h with
  | start => exact ⟨_, knows_ofStream hc D⟩
  | insert c _ hfits hsafe hl ih =>
    obtain ⟨a, ha⟩ := ih
    exact ha.insert hD hfits.piece hfits.last hsafe hl
  | pop len _ hlen hpop ih =>
    obtain ⟨a, ha⟩ := ih
    exact ⟨a, ha.pop (ha.tracks.stream.popped hlen hpop)⟩

/-- Prefix safety of the runs in which every piece is safe when it is inserted. -/
theorem prefix_of_safe (hc : capacity < 2 ^ 64) (hD : D.length < 2 ^ 64)
    (h : PieceRun capacity D (fun r c => r.Safe c.firstIndex c.data) r calls out) :
    out ++ r.output.queued <+: D := by
  obtain ⟨a, ha⟩ := h.knows hc hD
  rw [ha.split]; exact ha.agrees.out

/-- Capacity 3: a piece ahead, the piece before it, a read, and a piece in the second lap. -/
theorem prefix_of_safe_abcde :
    ∃ r calls out,
      PieceRun 3 [1, 2, 3, 4, 5] (fun r c => r.Safe c.firstIndex c.data) r calls out ∧
      out ++ r.output.queued <+: [1, 2, 3, 4, 5] := by
  have h₀ : PieceRun 3 [1, 2, 3, 4, 5] (fun r c => r.Safe c.firstIndex c.data) _ _ _ := .start
  have h₁ := h₀.insert ⟨1, [2, 3], false⟩ ⟨⟨by decide, by decide⟩, by decide⟩ (by decide) (.inl rfl)
  have h₂ := h₁.insert ⟨0, [1], false⟩ ⟨⟨by decide, by decide⟩, by decide⟩ (by decide) (.inl rfl)
  have h₃ := h₂.pop 2 (by decide) rfl
  have h₄ := h₃.insert ⟨3, [4, 5], true⟩ ⟨⟨by decide, by decide⟩, by decide⟩ (by decide) (.inl rfl)
  exact ⟨_, _, _, h₄, prefix_of_safe (by decide) (by decide) h₄⟩

/-- Capacity 2: three bytes are in, the first two of them read. The byte at index 5 lies past the
window, but 5 and the next index 3 are the same modulo 2, so it is put where the byte at index 3
belongs and pushed at once. -/
theorem prefix_fails :
    ∃ r calls out, PieceRun 2 [1, 2, 3, 4, 5, 6] (fun _ _ => True) r calls out ∧
      ¬ out ++ r.output.queued <+: [1, 2, 3, 4, 5, 6] := by
  have h₀ : PieceRun 2 [1, 2, 3, 4, 5, 6] (fun _ _ => True) _ _ _ := .start
  have h₁ := h₀.insert ⟨0, [1, 2], false⟩ ⟨⟨by decide, by decide⟩, by decide⟩ trivial (.inl rfl)
  have h₂ := h₁.pop 2 (by decide) rfl
  have h₃ := h₂.insert ⟨2, [3], false⟩ ⟨⟨by decide, by decide⟩, by decide⟩ trivial (.inl rfl)
  have h₄ := h₃.insert ⟨5, [6], true⟩ ⟨⟨by decide, by decide⟩, by decide⟩ trivial (.inl rfl)
  exact ⟨_, _, _, h₄, by decide⟩

end Minnow.Reassembler
