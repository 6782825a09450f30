import Minnow.ReassemblerPrefix

/-!
# Streams that fit into the capacity

A stream no longer than the capacity never leaves the first lap, so every piece of it is safe and
taken in whole. The covered indices of the assembly are then those of the pieces, which fixes what is
put out, what is pending and when the output closes (`exact_of_fits`), in whatever order the pieces
came.
-/

namespace Minnow.Reassembler
open Prog ByteStream

/-- The runs of non-empty pieces. -/
abbrev FitRun (capacity : Nat) (D : Bytes) : Reassembler → List Call → Bytes → Prop :=
  PieceRun capacity D fun _ c => c.data ≠ []

variable {r r' : Reassembler} {a a' : Assembly Byte} {D data out xs : Bytes} {firstIndex k : Nat}
  {isLast : Bool} {calls : List Call} {capacity : Nat} {c : Call}

/-- A reassembler over a stream that fits. -/
structure Roomy (capacity : Nat) (D : Bytes) (r : Reassembler) : Prop where
  pos : 0 < capacity
  int : capacity < 2 ^ 31
  fits : D.length ≤ capacity
  storageCapacity : r.storageCapacity = capacity
  output : r.output.capacity = capacity

theorem Roomy.getCapacity (h : Roomy capacity D r) : r.output.getCapacity = capacity := by
  have := h.int
  unfold ByteStream.getCapacity
  rw [h.output, Int.bmod_eq_of_le (by omega) (by omega)]

theorem Roomy.finalIndex (h : Roomy capacity D r) (ht : r.Tracks a) :
    r.finalIndex = capacity - 1 := by
  have hS := h.storageCapacity
  rw [ht.finalIndex, hS]
  · rw [h.getCapacity]; exact Int.natCast_pos.2 h.pos
  · rw [h.getCapacity, hS]

theorem Roomy.moves (h : Roomy capacity D r) (hm : Moves r xs r') : Roomy capacity D r' :=
  ⟨h.pos, h.int, h.fits, hm.storageCapacity.trans h.storageCapacity, hm.capacity.trans h.output⟩

theorem roomy_ofStream (hpos : 0 < capacity) (hint : capacity < 2 ^ 31)
    (hfits : D.length ≤ capacity) : Roomy capacity D (ofStream { capacity }) :=
  ⟨hpos, hint, hfits, storageCapacity_ofStream hint, rfl⟩

theorem Roomy.safe (h : Roomy capacity D r) (hk : Knows D r a out) (hp : Piece D firstIndex data) :
    r.Safe firstIndex data := by
  have hP := hk.pushed_le
  have hsync := hk.tracks.sync
  have hbound := hp.bound
  have hfits := h.fits
  have hS := h.storageCapacity
  unfold Safe
  split
  next hi =>
    have htk : r.takenTo firstIndex data ≤ firstIndex + data.length := by
      unfold takenTo; rw [if_pos hi]; omega
    intro hlt
    omega
  next hi =>
    intro hle
    rw [bytesPushed] at hle
    omega

/-- A piece of a stream that fits is taken in whole. -/
theorem Roomy.accepted (h : Roomy capacity D r) (hk : Knows D r a out) (hp : Piece D firstIndex data)
    (hne : data ≠ []) :
    r.accepted firstIndex data k =
      if max firstIndex r.output.totalPushed ≤ k ∧ k < firstIndex + data.length then
        data[k - firstIndex]?
      else none := by
  have hP := hk.pushed_le
  have hsync := hk.tracks.sync
  have hbound := hp.bound
  have hfits := h.fits
  have hS := h.storageCapacity
  have hint := h.int
  have hpos := h.pos
  have hlen := List.length_pos_iff.2 hne
  have hav := hk.tracks.stream.availableCapacity_eq
  have hpu := hk.tracks.stream.pushed
  have hcap := h.output
  have htk : r.takenTo firstIndex data = firstIndex + data.length := by
    rcases Nat.lt_or_ge r.curIndex firstIndex with hi | hi
    · rw [takenTo_ahead hi, if_neg (by omega), clip, bytesPushed, if_pos (by omega), lastIndex,
        h.finalIndex hk.tracks, add64_sub64_one (by omega) (by omega),
        List.length_take]
      omega
    · unfold takenTo
      rw [if_pos hi]; omega
  unfold Reassembler.accepted
  rw [htk, hsync]

theorem Roomy.insert_spec (h : Roomy capacity D r) (hk : Knows D r a out) (hc : c.Fits D)
    (hne : c.data ≠ []) :
    ∃ r' a' xs, r.insert c.firstIndex c.data c.isLast = .ok r' ∧
      Inserted r a c.firstIndex c.data c.isLast r' a' xs ∧
      ∀ k, a'.Covered k ↔ c.Covers k ∨ a.Covered k := by
  have hP := hk.pushed_le
  have hsync := hk.tracks.sync
  have hbound := hc.piece.bound
  have hlen := List.length_pos_iff.2 hne
  have hfits := h.fits
  have hint := h.int
  have hS := h.storageCapacity
  have hG := h.getCapacity
  obtain ⟨t, b, heq, hm, hsafe⟩ := hk.tracks.strings (by have := h.pos; omega)
  rcases hm.insert_spec c.isLast (hsafe _ _ (h.safe hk hc.piece)) (by omega)
      (by show r.curIndex < _; omega) (hk.open hc.piece) with
    ⟨-, r', a', xs, hr, hi⟩ | ⟨hi, hv, -⟩ | ⟨-, -, hi, -⟩
  · refine ⟨r', a', xs, heq _ _ _ ▸ hr, hi.of_strings, fun k => ?_⟩
    have hlenA := hk.tracks.length
    rw [hi.of_strings.absorbs.covered, h.accepted hk hc.piece hne, Call.Covers]
    constructor
    · rintro (hcov | hnew)
      · exact .inr hcov
      · split at hnew
        · exact .inl (by omega)
        · cases hnew
    · rintro (hcov | hcov)
      · rcases Nat.lt_or_ge k a.out.length with hlt | hge
        · exact .inl (.inl hlt)
        · refine .inr ?_
          rw [if_pos (by omega), List.getElem?_eq_getElem (by omega)]; rfl
      · exact .inl hcov
  · -- the index check lets every piece through
    have hi' : r.curIndex < c.firstIndex := hi
    rw [isValidIndex_eq hm.inv, Option.some.injEq] at hv
    have hP' : r.output.totalPushed < r.storageCapacity := by omega
    rw [if_pos hP', decide_eq_false_iff_not] at hv
    exact absurd ⟨show r.output.totalPushed ≤ _ by omega,
      show _ < r.output.totalPushed + r.storageCapacity by omega⟩ hv
  · have hi' : r.storageCapacity < c.firstIndex := hi
    omega

/-- The assembly holds what the calls covered, and the output is closed when it has to be. -/
structure Exact (capacity : Nat) (D : Bytes) (r : Reassembler) (a : Assembly Byte)
    (calls : List Call) (out : Bytes) : Prop where
  knows : Knows D r a out
  roomy : Roomy capacity D r
  covered : ∀ k, a.Covered k ↔ ∃ c ∈ calls, c.Covers k
  last : r.seenLast = true ↔ ∃ c ∈ calls, c.isLast = true
  closes : r.seenLast = true → r.output.totalPushed = D.length → r.output.isClosed = true

theorem Exact.insert (h : Exact capacity D r a calls out) (hc : c.Fits D) (hne : c.data ≠ []) :
    ∃ r' a', r.insert c.firstIndex c.data c.isLast = .ok r' ∧
      Exact capacity D r' a' (c :: calls) out := by
  obtain ⟨r', a', xs, hr, hi, hcov⟩ := h.roomy.insert_spec h.knows hc hne
  have hint := h.roomy.int
  have hfits := h.roomy.fits
  have hk := h.knows.inserted (by omega) (fun k b => accepted_agrees hc.piece) hc.last hi
  refine ⟨r', a', hr, hk, h.roomy.moves hi.moves, fun k => ?_, ?_, fun hs hP => ?_⟩
  · rw [hcov, h.covered, List.exists_mem_cons_iff]
  · rw [hi.seenLast, Bool.or_eq_true, h.last, List.exists_mem_cons_iff, or_comm]
  · rw [hi.isClosed, hs, hk.total hs, hP]; simp

theorem Exact.pop {o : ByteStream} {len : Nat} (h : Exact capacity D r a calls out)
    (hpop : Popped r.output len o) :
    Exact capacity D { r with output := o } a calls (out ++ r.output.queued.take len) :=
  ⟨h.knows.pop hpop, ⟨h.roomy.pos, h.roomy.int, h.roomy.fits, h.roomy.storageCapacity,
    hpop.capacity.trans h.roomy.output⟩, h.covered, h.last,
    fun hs hP => hpop.isClosed.trans (h.closes hs (hpop.totalPushed ▸ hP))⟩

theorem Exact.setError (h : Exact capacity D r a calls out) :
    Exact capacity D { r with output := r.output.setError } a calls out :=
  ⟨h.knows.setError, ⟨h.roomy.pos, h.roomy.int, h.roomy.fits, h.roomy.storageCapacity,
    h.roomy.output⟩, h.covered, h.last, h.closes⟩

/-- A call of nothing leaves everything as it is. -/
theorem Exact.insert_nil (h : Exact capacity D r a calls out) (ho : r.output.isClosed = false)
    (hl : (r.insert firstIndex [] false).Leaves r') : ∃ a', Exact capacity D r' a' calls out := by
  have hP := h.knows.pushed_le
  have hint := h.roomy.int
  have hfits := h.roomy.fits
  have hsync := h.knows.tracks.sync
  rcases h.knows.tracks.insert_spec (h.knows.tracks.safe_nil _) (Nat.zero_le _) (by omega)
      (.inl ho) hl with ⟨-, a', xs, hi⟩ | ⟨hskip, hT, -⟩
  · have hk := h.knows.inserted (by omega) (fun k b hb => by rw [accepted_nil] at hb; cases hb)
      (fun hL => by cases hL) hi
    refine ⟨a', hk, h.roomy.moves hi.moves, fun k => ?_, ?_, fun hs hP' => ?_⟩
    · rw [hi.absorbs.covered, accepted_nil, h.covered]
      simp
    · rw [hi.seenLast, Bool.or_false, h.last]
    · rw [hi.isClosed, hs, hk.total hs, hP']; simp
  · have ho' := hskip.output
    refine ⟨a, h.knows.skipped hskip hT, ⟨h.roomy.pos, h.roomy.int, h.roomy.fits,
      hskip.storageCapacity.trans h.roomy.storageCapacity, by rw [ho']; exact h.roomy.output⟩,
      h.covered, by rw [hskip.seenLast]; exact h.last, fun hs hP' => ?_⟩
    rw [ho'] at hP' ⊢
    exact h.closes (hskip.seenLast ▸ hs) hP'

/-- What a call of nothing covers. -/
theorem Exact.cons_nil (h : Exact capacity D r a calls out) (hc : c.data = [])
    (hl : c.isLast = false) : Exact capacity D r a (c :: calls) out := by
  refine ⟨h.knows, h.roomy, fun k => ?_, ?_, h.closes⟩
  · have hno : ¬ c.Covers k := by
      rintro ⟨h1, h2⟩
      rw [hc, List.length_nil] at h2
      omega
    rw [h.covered, List.exists_mem_cons_iff]
    simp [hno]
  · rw [h.last, List.exists_mem_cons_iff, hl]
    simp

/-- Once everything is there, a call of nothing that is the last one closes the output. -/
theorem Exact.insert_last (h : Exact capacity D r a calls out) (ho : r.output.isClosed = false)
    (hP : r.output.totalPushed = D.length) (hl : (r.insert D.length [] true).Leaves r') :
    r'.output.isClosed = true ∧ ∃ a', Knows D r' a' out := by
  have hint := h.roomy.int
  have hfits := h.roomy.fits
  have hsync := h.knows.tracks.sync
  have hG := h.roomy.getCapacity
  rcases h.knows.tracks.insert_spec (h.knows.tracks.safe_nil _) (Nat.zero_le _) (by omega)
      (.inl ho) hl with ⟨-, a', xs, hi⟩ | ⟨-, -, hlt | ⟨hneg, -⟩⟩
  · have hk := h.knows.inserted (by omega) (fun k b hb => by rw [accepted_nil] at hb; cases hb)
      (fun _ => rfl) hi
    have hs : r'.seenLast = true := by rw [hi.seenLast, Bool.or_true]
    have hP' : r'.output.totalPushed = D.length := by
      rw [← hP, ← hi.tracks.length, hi.absorbs.out_eq (accepted_nil _ _ _), h.knows.tracks.length]
    refine ⟨?_, a', hk⟩
    rw [hi.isClosed, hs, hP', hk.total hs]
    simp
  · omega
  · omega

theorem FitRun.exact (hpos : 0 < capacity) (hint : capacity < 2 ^ 31) (hfits : D.length ≤ capacity)
    (h : FitRun capacity D r calls out) : ∃ a, Exact capacity D r a calls out := by
  induction h with
  | start =>
    refine ⟨_, knows_ofStream (by omega) D, roomy_ofStream hpos hint hfits, fun k => ?_, ?_,
      fun hs => by cases hs⟩
    · simp [Assembly.Covered, Assembly.empty]
    · simp [ofStream]
  | insert c _ hc hne hl ih =>
    obtain ⟨a, ha⟩ := ih
    obtain ⟨r', a', hr, ha'⟩ := ha.insert hc hne
    rw [hr] at hl
    obtain rfl := Outcome.leaves_ok.1 hl
    exact ⟨a', ha'⟩
  | pop len _ hlen hpop ih =>
    obtain ⟨a, ha⟩ := ih
    exact ⟨a, ha.pop (ha.knows.tracks.stream.popped hlen hpop)⟩

/-- The covered indices beyond the bytes put out. -/
def pendingIndices (D : Bytes) (calls : List Call) (pushed : Nat) : Nat :=
  (List.range D.length).countP fun k => decide (pushed ≤ k ∧ ∃ c ∈ calls, c.Covers k)

theorem Exact.bytesPending (h : Exact capacity D r a calls out) :
    r.bytesPending = pendingIndices D calls r.output.bytesPushed := by
  have hP := h.knows.pushed_le
  have hfits := h.roomy.fits
  have hS := h.roomy.storageCapacity
  have hlen := h.knows.tracks.length
  have hmark : ∀ k, r.storageBitmap[k]? = some true ↔
      r.output.bytesPushed ≤ k ∧ ∃ c ∈ calls, c.Covers k := by
    intro k
    have hm := h.knows.tracks.marked_iff (q := k) (by omega)
    rw [Marked] at hm
    rw [hm, ← h.covered, bytesPushed, Assembly.Covered, hlen]
    constructor
    · intro hs
      refine ⟨Nat.le_of_not_lt fun hlt => ?_, .inr hs⟩
      rw [a.ahead k (by omega)] at hs; cases hs
    · rintro ⟨hle, hlt | hs⟩
      · omega
      · exact hs
  rw [Reassembler.bytesPending, count_true_eq_countP_range (n := D.length), pendingIndices]
  · simp only [hmark]
  · intro k hk
    obtain ⟨b, hb⟩ := Option.isSome_iff_exists.1 ((h.knows.tracks.marked_iff (by omega)).1 hk)
    exact (List.getElem?_eq_some_iff.1 (h.knows.agrees.held k b hb)).1

theorem Exact.isClosed_iff (h : Exact capacity D r a calls out) :
    r.output.isClosed = true ↔ (∃ c ∈ calls, c.isLast = true) ∧ r.output.bytesPushed = D.length := by
  rw [← h.last]
  exact ⟨h.knows.closed, fun hs => h.closes hs.1 hs.2⟩

theorem Exact.isGreatest (h : Exact capacity D r a calls out) :
    IsGreatest {n | ∀ k < n, ∃ c ∈ calls, c.Covers k} r.output.bytesPushed := by
  have := a.isGreatest
  simp only [h.covered, h.knows.tracks.length] at this
  exact this

/-- A call ahead of the bytes put out puts out nothing. -/
theorem Exact.pushed_eq (h : Exact capacity D r a calls out)
    (h' : Exact capacity D r' a' (c :: calls) out) (hlt : r.output.totalPushed < c.firstIndex) :
    r'.output.totalPushed = r.output.totalPushed := by
  refine h'.isGreatest.unique ⟨fun k hk => ?_, fun n hn => ?_⟩
  · obtain ⟨x, hx, hcov⟩ := h.isGreatest.1 k hk
    exact ⟨x, List.mem_cons_of_mem _ hx, hcov⟩
  · refine Nat.le_of_not_lt fun hlt' => ?_
    -- the next byte would have to be covered by the new call
    obtain ⟨x, hx, hcov⟩ := hn _ hlt'
    rcases List.mem_cons.1 hx with rfl | hx
    · exact absurd hcov.1 (Nat.not_le.2 hlt)
    · have hmem : r.output.totalPushed + 1 ∈ {n | ∀ k < n, ∃ c ∈ calls, c.Covers k} := by
        intro k hk
        rcases Nat.lt_or_ge k r.output.totalPushed with hk' | hk'
        · exact h.isGreatest.1 k hk'
        · exact ⟨x, hx, by rwa [show k = r.output.totalPushed by omega]⟩
      have := h.isGreatest.2 hmem
      rw [bytesPushed] at this
      omega

/-- Exactness for streams that fit, and independence of the order of the calls: no call fails, the
output is the longest covered prefix, the pending bytes are the other covered ones, and the output
closes when the last piece has come and nothing is missing. -/
theorem exact_of_fits (hpos : 1 ≤ capacity) (hint : capacity < 2 ^ 31)
    (hfits : D.length ≤ capacity) (h : FitRun capacity D r calls out) :
    IsGreatest {n | ∀ k < n, ∃ c ∈ calls, c.Covers k} r.output.bytesPushed ∧
    out ++ r.output.queued = D.take r.output.bytesPushed ∧
    r.bytesPending = pendingIndices D calls r.output.bytesPushed ∧
    (r.output.isClosed = true ↔
      (∃ c ∈ calls, c.isLast = true) ∧ r.output.bytesPushed = D.length) ∧
    (∀ c : Call, c.Fits D → c.data ≠ [] →
      ∃ r', r.insert c.firstIndex c.data c.isLast = .ok r') ∧
    (∀ r₂ calls₂ out₂, FitRun capacity D r₂ calls₂ out₂ → calls₂.Perm calls →
      out₂ ++ r₂.output.queued = out ++ r.output.queued ∧ r₂.bytesPending = r.bytesPending ∧
      r₂.output.isClosed = r.output.isClosed) := by
  obtain ⟨a, ha⟩ := h.exact hpos hint hfits
  have htake : ∀ {r : Reassembler} {a calls out}, Exact capacity D r a calls out →
      out ++ r.output.queued = D.take r.output.bytesPushed := by
    intro r a calls out ha
    rw [ha.knows.split, List.prefix_iff_eq_take.1 ha.knows.agrees.out, ha.knows.tracks.length,
      bytesPushed]
  refine ⟨ha.isGreatest, htake ha, ha.bytesPending, ha.isClosed_iff, fun c hc hne => ?_,
    fun r₂ calls₂ out₂ h₂ hperm => ?_⟩
  · obtain ⟨r', a', hr, -⟩ := ha.insert hc hne
    exact ⟨r', hr⟩
  · obtain ⟨a₂, ha₂⟩ := FitRun.exact hpos hint hfits h₂
    have hmem : ∀ {p : Call → Prop}, (∃ c ∈ calls₂, p c) ↔ ∃ c ∈ calls, p c := by
      intro p; simp only [hperm.mem_iff]
    have hP : r₂.output.bytesPushed = r.output.bytesPushed := by
      have hg := ha₂.isGreatest
      simp only [hmem] at hg
      exact hg.unique ha.isGreatest
    refine ⟨by rw [htake ha₂, htake ha, hP], ?_, ?_⟩
    · rw [ha₂.bytesPending, ha.bytesPending, hP]
      simp only [pendingIndices, hmem]
    · rw [Bool.eq_iff_iff, ha₂.isClosed_iff, ha.isClosed_iff, hmem, hP]

/-- Two overlapping pieces, the later one first. -/
theorem exact_of_fits_abc :
    ∃ r calls out, FitRun 4 [1, 2, 3] r calls out ∧
      IsGreatest {n | ∀ k < n, ∃ c ∈ calls, c.Covers k} r.output.bytesPushed ∧
      r.output.bytesPushed = 3 := by
  have h₀ : FitRun 4 [1, 2, 3] _ _ _ := .start
  have h₁ : FitRun 4 [1, 2, 3] _ _ _ :=
    h₀.insert ⟨1, [2, 3], true⟩ ⟨⟨by decide, by decide⟩, by decide⟩ (by decide) (.inl rfl)
  have h₂ : FitRun 4 [1, 2, 3] _ _ _ :=
    h₁.insert ⟨0, [1, 2], false⟩ ⟨⟨by decide, by decide⟩, by decide⟩ (by decide) (.inl rfl)
  exact ⟨_, _, _, h₂, (exact_of_fits (by decide) (by decide) (by decide) h₂).1, rfl⟩

end Minnow.Reassembler
