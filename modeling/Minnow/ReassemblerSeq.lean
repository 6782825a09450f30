import Minnow.ReassemblerPrefix

/-!
# Pieces in sequence

As long as no piece starts ahead of the bytes pushed nothing is ever stored, however far the stream
goes beyond the capacity, and a call pushes the new bytes of its piece like a plain `push`
(`inserts_like_push`).
-/

namespace Minnow.Reassembler
open Prog ByteStream

/-- The runs in which every piece starts among the bytes pushed so far or right behind them. -/
abbrev SeqRun (capacity : Nat) (D : Bytes) : Reassembler → List Call → Bytes → Prop :=
  PieceRun capacity D fun r c => c.firstIndex ≤ r.output.bytesPushed

variable {r r' : Reassembler} {D data out : Bytes} {firstIndex : Nat} {isLast : Bool}
  {calls : List Call} {capacity : Nat} {c : Call}

/-- A reassembler that has nothing stored. -/
structure Clear (r : Reassembler) : Prop where
  stream : r.output.Wf
  int : r.output.capacity < 2 ^ 31
  storageCapacity : r.storageCapacity = r.output.capacity
  sync : r.curIndex = r.output.totalPushed
  empty : r.storageCapacity = 0 → r.output.totalPushed = 0
  bitmap : r.storageBitmap = List.replicate r.storageBitmap.length false
  size : r.storageBitmap.length = r.storageCapacity ∨ (r.storage = [] ∧ r.storageBitmap = [])

theorem Clear.bytesPending (h : r.Clear) : r.bytesPending = 0 := by
  rw [Reassembler.bytesPending, h.bitmap, List.count_replicate]
  rfl

/-- The first call makes the strings. -/
theorem Clear.init (h : r.Clear) : ∃ t b, r.init = .ok { r with storage := t, storageBitmap := b } ∧
    Clear { r with storage := t, storageBitmap := b } ∧ b.length = r.storageCapacity := by
  have hint := h.int
  have hS := h.storageCapacity
  unfold Reassembler.init
  split
  next =>
    have hn : (r.storageCapacity : Int).bmod (2 ^ 32) = r.storageCapacity :=
      Int.bmod_eq_of_le (by omega) (by omega)
    refine ⟨List.replicate r.storageCapacity 48, List.replicate r.storageCapacity false, ?_,
      ⟨h.stream, h.int, h.storageCapacity, h.sync, h.empty, ?_, .inl ?_⟩, ?_⟩
    · dsimp only
      rw [hn, if_neg (by omega)]
      rfl
    · show List.replicate _ _ = List.replicate (List.replicate _ _).length _
      rw [List.length_replicate]
    · exact List.length_replicate
    · exact List.length_replicate
  next hne => exact ⟨r.storage, r.storageBitmap, rfl, h, h.size.resolve_right hne⟩

theorem replace_replicate {α : Type} {x : α} {l n : Nat} (h : n ≤ l) :
    replace (List.replicate l x) 0 n (List.replicate n x) = some (List.replicate l x) := by
  refine replace_eq_some.2 ⟨Nat.zero_le _, ?_⟩
  rw [List.take_zero, List.nil_append, Nat.zero_add, List.drop_replicate,
    List.replicate_append_replicate, Nat.add_sub_cancel' h]

/-- Without a mark the second half of a call only looks at the counters. -/
theorem Clear.finish_eq (h : r.Clear) (hsize : r.storageBitmap.length = r.storageCapacity) :
    r.finish firstIndex data isLast = .ok (r.closeAtEnd firstIndex data isLast) := by
  have hsync := h.sync
  have hempty := h.empty
  obtain ⟨q, hnew, hq⟩ : ∃ q, r.newCurIndex = some q ∧ q ≤ r.storageBitmap.length := by
    unfold newCurIndex
    rw [bytesPushed]
    split
    next hlt =>
      have hpos : 0 < r.storageCapacity := Nat.pos_of_ne_zero fun h0 => by
        have := hempty h0
        omega
      have := Nat.mod_lt r.curIndex hpos
      rw [if_neg (by omega)]
      exact ⟨_, rfl, by omega⟩
    next => exact ⟨_, rfl, by omega⟩
  have hmark : r.storageBitmap[q]? ≠ some true := by
    rw [h.bitmap, List.getElem?_replicate]
    split <;> simp
  have hclean : replace r.storageBitmap 0 q (List.replicate q false) = some r.storageBitmap := by
    rw [h.bitmap]
    exact replace_replicate hq
  rw [finish, hnew]
  dsimp only
  rw [drain, if_neg (by omega), if_neg hmark]
  simp only [Outcome.bind, cleanUp, hclean]

theorem Clear.closeAtEnd (h : r.Clear) : (r.closeAtEnd firstIndex data isLast).Clear := by
  have hwf := h.stream
  rw [closeAtEnd_eq]
  exact ⟨⟨hwf.word, hwf.buffered, hwf.fits, hwf.chunks, hwf.pushed⟩, h.int, h.storageCapacity,
    h.sync, h.empty, h.bitmap, h.size⟩

theorem push_take (s : ByteStream) (data : Bytes) :
    s.push (data.take s.availableCapacity) = s.push data := by
  unfold ByteStream.push
  by_cases h0 : s.availableCapacity = 0
  · rw [if_pos (.inl h0), if_pos (.inl h0)]
  · rw [List.take_take, Nat.min_self]
    have : data.take s.availableCapacity = [] ↔ data = [] := by
      rw [List.take_eq_nil_iff]; simp [h0]
    simp only [this]

/-- What is pushed at once leaves nothing behind. -/
theorem Clear.pushNow (h : r.Clear) (hopen : r.output.isClosed = false ∨ data = []) :
    (r.pushNow data).Clear ∧ (r.pushNow data).output = r.output.push data := by
  have hp := r.pushNow_pushed hopen
  refine ⟨⟨h.stream.push _, hp.capacity ▸ h.int, h.storageCapacity.trans hp.capacity.symm, ?_,
    fun h0 => ?_, h.bitmap, h.size⟩, push_take _ _⟩
  · rw [hp.totalPushed, ← h.sync]
    rfl
  · have hav := h.stream.availableCapacity_eq
    have h0' : r.storageCapacity = 0 := h0
    have hP := hp.totalPushed
    have hempty := h.empty h0'
    rw [List.length_take] at hP
    have := h.storageCapacity
    omega

/-- The bytes of a piece from `n` on, read off the stream. -/
theorem Piece.drop_eq (h : Piece D firstIndex data) {n : Nat} (hle : firstIndex ≤ n) :
    data.drop (n - firstIndex) = (D.take (firstIndex + data.length)).drop n := by
  have hdata : data = (D.take (firstIndex + data.length)).drop firstIndex := by
    rw [List.drop_take, Nat.add_sub_cancel_left]
    exact List.prefix_iff_eq_take.1 h.bytes
  conv_lhs => rw [hdata]
  rw [List.drop_drop, Nat.add_sub_cancel' hle]

/-- Pushing what is new of a piece. -/
theorem Clear.finish_new (isLast : Bool) (h : r.Clear)
    (hsize : r.storageBitmap.length = r.storageCapacity) (hp : Piece D firstIndex data)
    (hclosed : r.output.isClosed = true → r.output.totalPushed = D.length)
    (hi : firstIndex ≤ r.curIndex) (hreach : r.curIndex ≤ firstIndex + data.length) :
    ∃ r₁ : Reassembler, r₁.Clear ∧
      r₁.output = r.output.push ((D.take (firstIndex + data.length)).drop r.output.totalPushed) ∧
      r₁.seenLast = r.seenLast ∧ r₁.totalLen = r.totalLen ∧
      (r.pushNow (data.drop (r.curIndex - firstIndex))).finish firstIndex data isLast =
        .ok (r₁.closeAtEnd firstIndex data isLast) := by
  have hsync := h.sync
  have hbound := hp.bound
  have hopen : r.output.isClosed = false ∨ data.drop (r.curIndex - firstIndex) = [] := by
    cases hc : r.output.isClosed with
    | false => exact .inl rfl
    | true =>
      have := hclosed hc
      exact .inr (List.drop_eq_nil_iff.2 (by omega))
  obtain ⟨hc, ho⟩ := h.pushNow hopen
  refine ⟨_, hc, ?_, rfl, rfl, hc.finish_eq hsize⟩
  rw [ho, hsync, hp.drop_eq (hsync ▸ hi)]

theorem Clear.insert (isLast : Bool) (h : r.Clear) (hD : D.length < 2 ^ 64) (hp : Piece D firstIndex data)
    (hle : firstIndex ≤ r.output.totalPushed) (hP : r.output.totalPushed ≤ D.length)
    (hclosed : r.output.isClosed = true → r.output.totalPushed = D.length) :
    ∃ r₁ : Reassembler, r₁.Clear ∧
      r₁.output = r.output.push ((D.take (firstIndex + data.length)).drop r.output.totalPushed) ∧
      r₁.seenLast = r.seenLast ∧ r₁.totalLen = r.totalLen ∧
      r.insert firstIndex data isLast = .ok (r₁.closeAtEnd firstIndex data isLast) := by
  obtain ⟨t, b, hinit, h₁, hsize⟩ := h.init
  have hbound := hp.bound
  have hsync := h.sync
  rw [Reassembler.insert, hinit]
  simp only [Outcome.bind]
  -- the first two branches push what is new of the piece
  have hpush := h₁.finish_new isLast hsize hp hclosed
  rcases Nat.lt_trichotomy firstIndex r.curIndex with hlt | heq | hgt
  · rw [if_neg (by omega), if_pos hlt]
    rcases Nat.lt_or_ge r.curIndex (firstIndex + data.length) with hreach | hbehind
    · rw [findCur_eq_some (r := { r with storage := t, storageBitmap := b })
        (show r.curIndex < 2 ^ 64 by omega) hlt hreach]
      exact hpush hlt.le hreach.le
    · rw [findCur_eq_none (r := { r with storage := t, storageBitmap := b }) hlt (by omega) hbehind]
      refine ⟨_, h₁, ?_, rfl, rfl, h₁.finish_eq hsize⟩
      have hnil : (D.take (firstIndex + data.length)).drop r.output.totalPushed = [] := by
        rw [← hp.drop_eq hle, List.drop_eq_nil_iff]; omega
      rw [hnil, push_nil]
  · have := hpush heq.le (heq ▸ Nat.le_add_right _ _)
    dsimp only at this
    rw [show r.curIndex - firstIndex = 0 by omega, List.drop_zero] at this
    rwa [if_pos heq]
  · omega

/-- What holds along the runs in sequence. -/
structure InSeq (D : Bytes) (r : Reassembler) (calls : List Call) : Prop where
  clear : r.Clear
  pushed_le : r.output.totalPushed ≤ D.length
  total : r.seenLast = true → r.totalLen = D.length
  last : r.seenLast = true ↔ ∃ c ∈ calls, c.isLast = true
  closed : r.output.isClosed = true ↔ r.seenLast = true ∧ r.output.totalPushed = D.length

theorem InSeq.insert (h : InSeq D r calls) (hD : D.length < 2 ^ 64) (hc : c.Fits D)
    (hle : c.firstIndex ≤ r.output.bytesPushed) :
    ∃ r', r.insert c.firstIndex c.data c.isLast = .ok r' ∧ InSeq D r' (c :: calls) ∧
      r'.output = { r.output.push
        ((D.take (c.firstIndex + c.data.length)).drop r.output.bytesPushed) with
        isClosed := r'.output.isClosed } := by
  have hbound := hc.piece.bound
  obtain ⟨r₁, h₁, ho, hs, ht, hr⟩ := h.clear.insert c.isLast hD hc.piece hle h.pushed_le
    fun hcl => (h.closed.1 hcl).2
  have hpush := push_pushed r.output
    ((D.take (c.firstIndex + c.data.length)).drop r.output.totalPushed)
  rw [← ho] at hpush
  have hP : r₁.output.totalPushed ≤ D.length := by
    have hlen : (r.output.taken ((D.take (c.firstIndex + c.data.length)).drop
        r.output.totalPushed)).length ≤ D.length - r.output.totalPushed := by
      unfold taken
      split
      · exact Nat.zero_le _
      · rw [List.length_take, List.length_drop, List.length_take]; omega
    have := hpush.totalPushed
    have := h.pushed_le
    omega
  have htotal : (r₁.seenLast || c.isLast) = true → r₁.endAfter c.firstIndex c.data c.isLast =
      D.length := by
    intro hl
    rw [endAfter]
    split
    next hL => rw [add64_of_lt (by omega), hc.last hL]
    next hL => rw [ht]; exact h.total (by simpa [hL, hs] using hl)
  refine ⟨_, hr, ⟨h₁.closeAtEnd, ?_, ?_, ?_, ?_⟩, ?_⟩ <;> rw [closeAtEnd_eq]
  · exact hP
  · exact htotal
  · show (r₁.seenLast || c.isLast) = true ↔ _
    rw [Bool.or_eq_true, hs, h.last, List.exists_mem_cons_iff, or_comm]
  · show (r₁.output.isClosed || ((r₁.seenLast || c.isLast) && decide _)) = true ↔
      (r₁.seenLast || c.isLast) = true ∧ r₁.output.totalPushed = D.length
    constructor
    · intro hcl
      rcases Bool.or_eq_true _ _ ▸ hcl with hcl | hcl
      · obtain ⟨h1, h2⟩ := h.closed.1 (hpush.isClosed ▸ hcl)
        have := hpush.totalPushed
        exact ⟨by rw [hs, h1, Bool.true_or], by omega⟩
      · obtain ⟨h1, h2⟩ := Bool.and_eq_true _ _ ▸ hcl
        exact ⟨h1, (of_decide_eq_true h2).trans (htotal h1)⟩
    · rintro ⟨h1, h2⟩
      rw [htotal h1, h2, h1, decide_eq_true rfl, Bool.and_self, Bool.or_true]
  · show ({ r₁.output with isClosed := _ } : ByteStream) = _
    rw [ho]
    rfl

theorem InSeq.pop {o : ByteStream} {len : Nat} (h : InSeq D r calls)
    (hpop : Popped r.output len o) : InSeq D { r with output := o } calls := by
  have hP := hpop.totalPushed
  have hc := h.clear
  refine ⟨⟨hpop.wf, hpop.capacity ▸ hc.int, hc.storageCapacity.trans hpop.capacity.symm,
    hc.sync.trans hP.symm, fun h0 => hP.trans (hc.empty h0), hc.bitmap, hc.size⟩,
    hP.trans_le h.pushed_le, h.total, h.last, ?_⟩
  show o.isClosed = true ↔ _ ∧ o.totalPushed = _
  rw [hpop.isClosed, hP]
  exact h.closed

theorem inSeq_ofStream (hint : capacity < 2 ^ 31) (D : Bytes) :
    InSeq D (ofStream { capacity }) [] := by
  refine ⟨⟨wf_new (by omega), hint, storageCapacity_ofStream hint, rfl, fun _ => rfl, rfl,
    .inr ⟨rfl, rfl⟩⟩, Nat.zero_le _, fun h => (by cases h), ?_, ?_⟩ <;> simp [ofStream]

theorem SeqRun.inSeq (hint : capacity < 2 ^ 31) (hD : D.length < 2 ^ 64)
    (h : SeqRun capacity D r calls out) : InSeq D r calls := by
  induction h with
  | start => exact inSeq_ofStream hint D
  | insert c _ hc hle hl ih =>
    obtain ⟨r', hr, h', -⟩ := ih.insert hD hc hle
    rw [hr] at hl
    obtain rfl := Outcome.leaves_ok.1 hl
    exact h'
  | pop len _ hlen hpop ih => exact ih.pop (ih.clear.stream.popped hlen hpop)

/-- Pieces in sequence are pushed like plain strings, whatever laps the stream has gone through:
nothing is pending, the output closes when the last piece has been seen and all of the stream has
been pushed, and a further call has the effect of a push of its new bytes. -/
theorem inserts_like_push (hint : capacity < 2 ^ 31) (hD : D.length < 2 ^ 64)
    (h : SeqRun capacity D r calls out) :
    r.bytesPending = 0 ∧
    (r.output.isClosed = true ↔
      (∃ c ∈ calls, c.isLast = true) ∧ r.output.bytesPushed = D.length) ∧
    ∀ c : Call, c.Fits D → c.firstIndex ≤ r.output.bytesPushed →
      ∃ r', r.insert c.firstIndex c.data c.isLast = .ok r' ∧
        r'.output = { r.output.push
          ((D.take (c.firstIndex + c.data.length)).drop r.output.bytesPushed) with
          isClosed := r'.output.isClosed } := by
  have hs := h.inSeq hint hD
  refine ⟨hs.clear.bytesPending, ?_, fun c hc hle => ?_⟩
  · rw [hs.closed, hs.last]; rfl
  · obtain ⟨r', hr, -, ho⟩ := hs.insert hD hc hle
    exact ⟨r', hr, ho⟩

/-- Capacity 2: a piece too long for the room, a read, and the rest of the stream. -/
theorem inserts_like_push_abcd :
    ∃ r calls out, SeqRun 2 [1, 2, 3, 4] r calls out ∧ r.output.isClosed = true ∧
      r.bytesPending = 0 ∧ r.output.bytesPushed = 4 := by
  have h₀ : SeqRun 2 [1, 2, 3, 4] _ _ _ := .start
  have h₁ := h₀.insert ⟨0, [1, 2, 3], false⟩ ⟨⟨by decide, by decide⟩, by decide⟩ (by decide)
    (.inl rfl)
  have h₂ := h₁.pop 2 (by decide) rfl
  have h₃ : SeqRun 2 [1, 2, 3, 4] _ _ _ :=
    h₂.insert ⟨1, [2, 3, 4], true⟩ ⟨⟨by decide, by decide⟩, by decide⟩ (by decide) (.inl rfl)
  exact ⟨_, _, _, h₃, rfl, (inserts_like_push (by decide) (by decide) h₃).1, rfl⟩

end Minnow.Reassembler
