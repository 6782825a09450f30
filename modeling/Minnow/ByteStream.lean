import Minnow.Lib.Loop
import Minnow.Lib.Word

/-!
# The byte stream (`byte_stream.cc`)

The writer's and the reader's functions are methods of two views of the same object, so they all
live in the namespace `ByteStream` here.
-/

namespace Minnow
open Prog

abbrev Byte := UInt8

abbrev Bytes := List Byte

/-- The bytes pushed and not yet popped, in the chunks they were pushed in. `totalPushed` and
`totalPopped` count bytes that went through and are not reduced modulo `2 ^ 64`. -/
structure ByteStream where
  capacity : Nat
  deck : List Bytes := []
  error : Bool := false
  isClosed : Bool := false
  totalPushed : Nat := 0
  totalPopped : Nat := 0
  bytesInDeck : Nat := 0
deriving Repr, DecidableEq

namespace ByteStream

def setError (s : ByteStream) : ByteStream := { s with error := true }

def hasError (s : ByteStream) : Bool := s.error

/-- `int getCapacity()`: the 64-bit capacity narrowed to an `int`. -/
def getCapacity (s : ByteStream) : Int := (s.capacity : Int).bmod (2 ^ 32)

/-! ### Writer -/

def availableCapacity (s : ByteStream) : Nat := sub64 s.capacity s.bytesInDeck

def bytesPushed (s : ByteStream) : Nat := s.totalPushed

def push (s : ByteStream) (data : Bytes) : ByteStream :=
  if s.availableCapacity = 0 ∨ s.isClosed = true ∨ data = [] then s
  else
    let curStr := data.take s.availableCapacity
    { s with
      deck := s.deck ++ [curStr]
      totalPushed := s.totalPushed + curStr.length
      bytesInDeck := s.bytesInDeck + curStr.length }

def close (s : ByteStream) : ByteStream := { s with isClosed := true }

/-! ### Reader -/

def isFinished (s : ByteStream) : Bool := s.isClosed && s.deck.isEmpty

def bytesPopped (s : ByteStream) : Nat := s.totalPopped

def bytesBuffered (s : ByteStream) : Nat := s.bytesInDeck

def peek (s : ByteStream) : Bytes :=
  match s.deck with
  | [] => []
  | chunk :: _ => chunk

/-- One pass of the loop in `pop`, which carries the stream and `bytes_removed`. Looking at the
front of an empty deque is undefined (`none`). -/
def popBody (len : Nat) : ByteStream × Nat → Ctl (ByteStream × Nat) (Option ByteStream)
  | (s, removed) =>
    if removed = len then .exit (some s)
    else
      match s.deck with
      | [] => .exit none
      | curStr :: rest =>
        if curStr.length ≤ len - removed then
          .next ({ s with
            deck := rest
            bytesInDeck := sub64 s.bytesInDeck curStr.length
            totalPopped := s.totalPopped + curStr.length }, removed + curStr.length)
        else
          let left := curStr.drop (len - removed)
          .next ({ s with
            deck := left :: rest
            bytesInDeck := sub64 s.bytesInDeck curStr.length + left.length
            totalPopped := s.totalPopped + (curStr.length - left.length) },
            removed + (curStr.length - left.length))

/-- Every pass but the last shortens the deque, so `deck.length + 2` passes are enough
(`pop_spec`). -/
def pop (s : ByteStream) (len : Nat) : Option ByteStream :=
  if s.deck = [] then some s
  else (loop (popBody len) (s.deck.length + 2) (s, 0)).join

/-! ### What the operations do to the queued bytes -/

attribute [simp] bytesPushed bytesPopped bytesBuffered

/-- The queued bytes, without the division into chunks. -/
def queued (s : ByteStream) : Bytes := s.deck.flatten

/-- What the four counters and the chunks have to do with one another. -/
structure Wf (s : ByteStream) : Prop where
  word : s.capacity < 2 ^ 64
  buffered : s.bytesInDeck = s.queued.length
  fits : s.bytesInDeck ≤ s.capacity
  chunks : ∀ c ∈ s.deck, c ≠ []
  pushed : s.totalPushed = s.totalPopped + s.bytesInDeck

theorem wf_new {capacity : Nat} (h : capacity < 2 ^ 64) : Wf { capacity } :=
  ⟨h, rfl, Nat.zero_le _, by simp, rfl⟩

variable {s s' : ByteStream} {data : Bytes} {len : Nat}

theorem Wf.availableCapacity_eq (h : s.Wf) : s.availableCapacity = s.capacity - s.bytesInDeck :=
  sub64_of_le h.fits h.word

/-- The part of `data` that `push` adds to the stream. -/
def taken (s : ByteStream) (data : Bytes) : Bytes :=
  if s.isClosed then [] else data.take s.availableCapacity

/-- Everything `push` does: the bytes of `taken` go to the end of the queue and into both counts. -/
structure Pushed (s : ByteStream) (xs : Bytes) (s' : ByteStream) : Prop where
  queued : s'.queued = s.queued ++ xs
  totalPushed : s'.totalPushed = s.totalPushed + xs.length
  bytesInDeck : s'.bytesInDeck = s.bytesInDeck + xs.length
  totalPopped : s'.totalPopped = s.totalPopped
  capacity : s'.capacity = s.capacity
  isClosed : s'.isClosed = s.isClosed
  error : s'.error = s.error

theorem Pushed.refl : Pushed s [] s := by constructor <;> simp

theorem push_nil (s : ByteStream) : s.push [] = s := if_pos (.inr (.inr rfl))

theorem push_pushed (s : ByteStream) (data : Bytes) : Pushed s (s.taken data) (s.push data) := by
  unfold push
  split
  next h =>
    have : s.taken data = [] := by
      rcases h with h | h | h <;> simp [taken, h]
    rw [this]; exact .refl
  next h =>
    have : s.taken data = data.take s.availableCapacity := by simp_all [taken]
    constructor <;> simp [this, ByteStream.queued]

theorem Wf.push (h : s.Wf) (data : Bytes) : (s.push data).Wf := by
  have hp := push_pushed s data
  have hle : (s.taken data).length ≤ s.capacity - s.bytesInDeck := by
    have := h.availableCapacity_eq
    unfold taken
    split
    · exact Nat.zero_le _
    · rw [List.length_take]; omega
  have hf := h.fits
  refine ⟨hp.capacity ▸ h.word, ?_, ?_, ?_, ?_⟩
  · rw [hp.bytesInDeck, hp.queued, List.length_append, h.buffered]
  · rw [hp.bytesInDeck, hp.capacity]; omega
  · intro c hc
    unfold ByteStream.push at hc
    split at hc
    next => exact h.chunks c hc
    next hn =>
      -- a chunk enters the deque only when there is room for a non-empty part of `data`
      rcases List.mem_append.1 hc with hc | hc
      · exact h.chunks c hc
      · obtain rfl := List.mem_singleton.1 hc
        simp only [not_or] at hn
        simp [List.take_eq_nil_iff, hn]
  · rw [hp.totalPushed, hp.totalPopped, hp.bytesInDeck, h.pushed]; omega

theorem Wf.close (h : s.Wf) : s.close.Wf := ⟨h.word, h.buffered, h.fits, h.chunks, h.pushed⟩

theorem Wf.setError (h : s.Wf) : s.setError.Wf := ⟨h.word, h.buffered, h.fits, h.chunks, h.pushed⟩

theorem Wf.deck_eq_nil_iff (h : s.Wf) : s.deck = [] ↔ s.bytesInDeck = 0 := by
  constructor
  · intro hd; rw [h.buffered, queued, hd]; rfl
  · intro hb
    cases hd : s.deck with
    | nil => rfl
    | cons c rest =>
      have hc := h.chunks c (by simp [hd])
      rw [h.buffered, queued, hd, List.flatten_cons, List.length_append] at hb
      exact absurd (List.length_eq_zero_iff.1 (by omega)) hc

/-- Everything `pop` does to a stream that holds `len` bytes. -/
structure Popped (s : ByteStream) (len : Nat) (s' : ByteStream) : Prop where
  wf : s'.Wf
  queued : s'.queued = s.queued.drop len
  totalPopped : s'.totalPopped = s.totalPopped + len
  totalPushed : s'.totalPushed = s.totalPushed
  capacity : s'.capacity = s.capacity
  isClosed : s'.isClosed = s.isClosed
  error : s'.error = s.error

theorem Popped.refl (h : s.Wf) : Popped s 0 s := ⟨h, rfl, rfl, rfl, rfl, rfl, rfl⟩

theorem Popped.trans {t : ByteStream} {n : Nat} (h : Popped s len s') (h' : Popped s' n t) :
    Popped s (len + n) t where
  wf := h'.wf
  queued := by rw [h'.queued, h.queued, List.drop_drop]
  totalPopped := by rw [h'.totalPopped, h.totalPopped]; omega
  totalPushed := h'.totalPushed.trans h.totalPushed
  capacity := h'.capacity.trans h.capacity
  isClosed := h'.isClosed.trans h.isClosed
  error := h'.error.trans h.error

theorem Popped.bytesInDeck (h : Popped s len s') (hs : s.Wf) :
    s'.bytesInDeck = s.bytesInDeck - len := by
  rw [h.wf.buffered, h.queued, List.length_drop, hs.buffered]

theorem Popped.le (h : Popped s len s') (hs : s.Wf) : len ≤ s.bytesInDeck := by
  have hb := h.bytesInDeck hs
  have hp := h.wf.pushed
  rw [h.totalPushed, h.totalPopped, hs.pushed] at hp
  omega

theorem Wf.front (h : s.Wf) {c : Bytes} {rest : List Bytes} (hd : s.deck = c :: rest) :
    s.bytesInDeck = c.length + rest.flatten.length ∧
      sub64 s.bytesInDeck c.length = s.bytesInDeck - c.length := by
  have hb := h.buffered
  rw [queued, hd, List.flatten_cons, List.length_append] at hb
  exact ⟨hb, sub64_of_le (by omega) (Nat.lt_of_le_of_lt h.fits h.word)⟩

/-- The whole front chunk goes. -/
theorem Wf.popFront (h : s.Wf) {c : Bytes} {rest : List Bytes} (hd : s.deck = c :: rest) :
    Popped s c.length { s with
      deck := rest
      bytesInDeck := sub64 s.bytesInDeck c.length
      totalPopped := s.totalPopped + c.length } := by
  obtain ⟨hb, hsub⟩ := h.front hd
  have hp := h.pushed
  have hf := h.fits
  refine ⟨⟨h.word, ?_, ?_, fun x hx => h.chunks x (by simp [hd, hx]), ?_⟩, ?_, rfl, rfl, rfl, rfl, rfl⟩
  · simp only [hsub, queued]; omega
  · simp only [hsub]; omega
  · simp only [hsub]; omega
  · simp [queued, hd]

/-- The front chunk loses its first `k` bytes and stays. -/
theorem Wf.popPart (h : s.Wf) {c : Bytes} {rest : List Bytes} (hd : s.deck = c :: rest) {k : Nat}
    (hk : k < c.length) :
    Popped s k { s with
      deck := c.drop k :: rest
      bytesInDeck := sub64 s.bytesInDeck c.length + (c.drop k).length
      totalPopped := s.totalPopped + (c.length - (c.drop k).length) } := by
  obtain ⟨hb, hsub⟩ := h.front hd
  have hp := h.pushed
  have hf := h.fits
  refine ⟨⟨h.word, ?_, ?_, ?_, ?_⟩, ?_, ?_, rfl, rfl, rfl, rfl⟩
  · simp only [hsub, queued, List.flatten_cons, List.length_append, List.length_drop]; omega
  · simp only [hsub, List.length_drop]; omega
  · intro x hx
    rcases List.mem_cons.1 hx with rfl | hx
    · simpa using hk
    · exact h.chunks x (by simp [hd, hx])
  · simp only [hsub, List.length_drop]; omega
  · simp only [queued, hd, List.flatten_cons]
    rw [List.drop_append_of_le_length (by omega)]
  · simp only [List.length_drop]; omega

/-- A pass of the loop in `pop` removes the front chunk, or as much of it as is still wanted. -/
theorem popBody_next {removed removed' : Nat} {t t' : ByteStream} (ht : Popped s removed t)
    (hr : removed ≤ len) (h : popBody len (t, removed) = .next (t', removed')) :
    Popped s removed' t' ∧ removed' ≤ len ∧
      (t'.deck.length < t.deck.length ∨ removed' = len) := by
  rw [popBody] at h
  split at h
  · cases h
  split at h
  · cases h
  next c rest hd =>
    split at h <;> cases h
    · exact ⟨ht.trans (ht.wf.popFront hd), by omega, .inl (by simp [hd])⟩
    · next hc =>
      have hk : c.length - (c.drop (len - removed)).length = len - removed := by simp; omega
      have hp := ht.trans (ht.wf.popPart hd (k := len - removed) (by omega))
      refine ⟨?_, by omega, .inr (by omega)⟩
      rw [hk] at hp ⊢; exact hp

/-- The loop in `pop` comes to an end: it has removed what was asked for, or it looks at the front of
the deque after the last chunk is gone. -/
theorem pop_loop (h : s.Wf) (len : Nat) :
    ∃ r, loop (popBody len) (s.deck.length + 2) (s, 0) = some r ∧
      ((∃ s', r = some s' ∧ Popped s len s') ∨ (r = none ∧ s.bytesInDeck < len)) := by
  refine loop_total (fun p => Popped s p.2 p.1 ∧ p.2 ≤ len)
    (fun r => (∃ s', r = some s' ∧ Popped s len s') ∨ (r = none ∧ s.bytesInDeck < len))
    (fun p => if p.2 = len then 0 else p.1.deck.length + 1) ?_ ?_ ?_
    ⟨.refl h, Nat.zero_le _⟩ (by dsimp only; split <;> omega)
  · rintro ⟨t, n⟩ ⟨t', n'⟩ ⟨ht, hn⟩ hb
    have hne : n ≠ len := by
      rintro rfl; simp [popBody] at hb
    dsimp only at ht hn
    obtain ⟨ht', hn', hm⟩ := popBody_next ht hn hb
    refine ⟨⟨ht', hn'⟩, ?_⟩
    simp only [if_neg hne]
    split <;> omega
  · rintro ⟨t, n⟩ r ⟨ht, hn⟩ hb
    rw [popBody] at hb
    split at hb
    next heq => cases hb; exact .inl ⟨t, rfl, heq ▸ ht⟩
    next hne =>
      split at hb
      next hd =>
        cases hb
        have hz := ht.wf.deck_eq_nil_iff.1 hd
        have := ht.bytesInDeck h
        dsimp only at hn
        exact .inr ⟨rfl, by omega⟩
      next => split at hb <;> cases hb
  · rintro ⟨t, n⟩ _ hb
    rw [popBody] at hb
    split at hb
    · cases hb
    · split at hb
      · cases hb
      · split at hb <;> cases hb

/-- Popping what is buffered neither hangs nor looks at the front of an empty deque, and removes
exactly the first `len` bytes. -/
theorem pop_spec (h : s.Wf) (hlen : len ≤ s.bytesBuffered) :
    ∃ s', s.pop len = some s' ∧ Popped s len s' := by
  unfold pop
  split
  next hd =>
    have : len = 0 := by have := h.deck_eq_nil_iff.1 hd; unfold bytesBuffered at hlen; omega
    subst this
    exact ⟨s, rfl, .refl h⟩
  next hd =>
    obtain ⟨r, hr, ⟨s', rfl, hs'⟩ | ⟨-, hlt⟩⟩ := pop_loop h len
    · exact ⟨s', by rw [hr]; rfl, hs'⟩
    · unfold bytesBuffered at hlen; omega

theorem Wf.popped (h : s.Wf) (hlen : len ≤ s.bytesBuffered) (hpop : s.pop len = some s') :
    Popped s len s' := by
  obtain ⟨t, ht, hp⟩ := pop_spec h hlen
  rw [hpop] at ht; cases ht; exact hp

/-- The front chunk comes first in the queue. -/
theorem peek_prefix_queued (s : ByteStream) : s.peek <+: s.queued := by
  unfold peek queued
  split
  next hd => exact List.nil_prefix
  next c rest hd => rw [hd, List.flatten_cons]; exact List.prefix_append _ _

/-- What has been seen of the front chunk can be popped. -/
theorem pop_view (h : s.Wf) (k : Nat) :
    s.peek.take k = s.queued.take (s.peek.take k).length ∧
      ∃ s', s.pop (s.peek.take k).length = some s' ∧ Popped s (s.peek.take k).length s' := by
  have hpre : s.peek.take k <+: s.queued := (List.take_prefix _ _).trans s.peek_prefix_queued
  refine ⟨List.prefix_iff_eq_take.1 hpre, pop_spec h ?_⟩
  rw [bytesBuffered, h.buffered]
  exact hpre.length_le

theorem peek_ne_nil_iff (h : s.Wf) : s.peek ≠ [] ↔ 0 < s.bytesBuffered := by
  have hz := h.deck_eq_nil_iff
  unfold peek bytesBuffered
  split
  next hd => simp [hz.1 hd]
  next c rest hd =>
    have hc := h.chunks c (by simp [hd])
    have : s.bytesInDeck ≠ 0 := fun h0 => by simp [hz.2 h0] at hd
    simp [hc]
    omega

theorem isFinished_iff (h : s.Wf) :
    s.isFinished = true ↔ s.isClosed = true ∧ s.bytesPopped = s.bytesPushed := by
  have hp := h.pushed
  simp only [isFinished, bytesPopped, bytesPushed, Bool.and_eq_true, List.isEmpty_iff,
    h.deck_eq_nil_iff]
  constructor <;> rintro ⟨hc, hz⟩ <;> exact ⟨hc, by omega⟩

theorem Wf.bytesInDeck_of_isFinished (h : s.Wf) (hf : s.isFinished = true) : s.bytesInDeck = 0 := by
  simp only [isFinished, Bool.and_eq_true, List.isEmpty_iff] at hf
  exact h.deck_eq_nil_iff.1 hf.2

end ByteStream

end Minnow
