import Minnow.ReassemblerClose
import Minnow.ReassemblerPrefix

/-!
# What a call keeps of the window

The window is what the stream has room for: the indices from `bytes_pushed` up to the bytes popped
plus the capacity. A call should keep every byte of it that it brings, and whatever was pending. The
strings do not slide with the pops, and in the later laps a substring is cut one position too early
and not carried over the end of the strings, so a safe call does this exactly if it `Keeps` within
what they can take (`retains_iff`); `retains_fails` is a call that does not.
-/

namespace Minnow.Reassembler
open Prog ByteStream

/-- Byte `k` is pushed or pending. -/
def Has (r : Reassembler) (k : Nat) : Prop :=
  k < r.output.bytesPushed ∨ (r.held k).isSome = true

instance (r : Reassembler) (k : Nat) : Decidable (r.Has k) := inferInstanceAs (Decidable (_ ∨ _))

/-- Where the bytes of a substring leave the window, or end. -/
def windowEnd (r : Reassembler) (firstIndex : Nat) (data : Bytes) : Nat :=
  min (firstIndex + data.length) (r.output.bytesPopped + r.output.capacity)

/-- What a call that leaves `r'` should do: keep the bytes of the window and what it had, and nothing
beyond the window. -/
structure Retains (r : Reassembler) (c : Call) (r' : Reassembler) : Prop where
  window : ∀ k, c.Covers k → r.output.bytesPushed ≤ k →
    k < r.output.bytesPopped + r.output.capacity → r'.Has k
  pending : ∀ k, r.Has k → r'.Has k
  beyond : ∀ k, r.output.bytesPopped + r.output.capacity ≤ k → ¬ r'.Has k

/-- A substring at or behind `cur_index` loses nothing. One ahead has to end, as far as it lies in
the window, with the strings while less than a capacity's worth has been pushed, and may not reach
into the window when exactly that much has been pushed. After that what is not stored of it, by the
index check or by the cut, must be pending already. -/
def Keeps (r : Reassembler) (firstIndex : Nat) (data : Bytes) : Prop :=
  r.curIndex < firstIndex → firstIndex < r.windowEnd firstIndex data →
    if r.output.bytesPushed < r.storageCapacity then
      r.windowEnd firstIndex data ≤ r.storageCapacity
    else
      r.output.bytesPushed ≠ r.storageCapacity ∧
      ∀ k < r.windowEnd firstIndex data, firstIndex ≤ k →
        (r.isValidIndex firstIndex = some true → firstIndex + (r.clip firstIndex data).length ≤ k) →
          (r.held k).isSome = true

instance (r : Reassembler) (firstIndex : Nat) (data : Bytes) :
    Decidable (r.Keeps firstIndex data) :=
  inferInstanceAs (Decidable (_ → _ → ite _ _ _))

variable {r r' : Reassembler} {a a' : Assembly Byte} {D data out : Bytes} {c : Call}
  {firstIndex k : Nat} {isLast : Bool} {calls : List Call} {capacity : Nat}

theorem Tracks.has_iff (h : r.Tracks a) : r.Has k ↔ a.Covered k := by
  rw [Has, Assembly.Covered, h.length, h.held]; rfl

/-- Nothing is ever kept beyond the window. -/
theorem Tracks.has_lt (h : r.Tracks a) (hk : r.Has k) :
    k < r.output.totalPopped + r.output.capacity := by
  have hwf := h.stream
  have hfits := hwf.fits
  have hpushed := hwf.pushed
  rcases hk with hk | hk
  · rw [bytesPushed] at hk
    omega
  rcases h with ⟨hb, rfl⟩ | hm
  · simp [Reassembler.held, hb.storageBitmap] at hk
  · obtain ⟨hbase, hmk⟩ := hm.inv.isSome_held.1 hk
    have hpos := hm.inv.ahead _ hmk
    have := hm.inv.fits _ hpos.le hmk
    omega

/-- What is buffered and what is pending together fit into the capacity. -/
theorem Tracks.occupied_le (h : r.Tracks a) :
    r.output.bytesBuffered + r.bytesPending ≤ r.output.capacity := by
  have hwf := h.stream
  have hfits := hwf.fits
  have hpushed := hwf.pushed
  rcases h with ⟨hb, rfl⟩ | hm
  · rw [bytesPending, hb.storageBitmap, List.count_nil, bytesBuffered]
    exact hfits
  have hinv := hm.inv
  have hpos := r.base_add_pos
  obtain ⟨n, hn⟩ : ∃ n, r.output.totalPopped + r.output.capacity = r.base + r.pos + n :=
    Nat.exists_eq_add_of_le (by omega)
  have hcount : r.bytesPending ≤ n := by
    rw [bytesPending, count_true_eq_countP_range (n := r.pos + n)]
    · refine countP_range_le fun q hq => decide_eq_false fun hmk => ?_
      have := hinv.ahead q hmk
      omega
    · intro q hmk
      have hlt := hinv.ahead q hmk
      have := hinv.fits q hlt.le hmk
      omega
  rw [bytesBuffered]
  omega

theorem takenTo_le (r : Reassembler) (firstIndex : Nat) (data : Bytes) :
    r.takenTo firstIndex data ≤ firstIndex + data.length := by
  have hclip : (r.clip firstIndex data).length ≤ data.length := by
    unfold clip; split <;> exact (List.take_prefix _ _).length_le
  unfold takenTo
  split
  · exact Nat.min_le_left _ _
  · split <;> omega

theorem isSome_accepted (r : Reassembler) (firstIndex : Nat) (data : Bytes) (k : Nat) :
    (r.accepted firstIndex data k).isSome = true ↔
      max firstIndex r.curIndex ≤ k ∧ k < r.takenTo firstIndex data := by
  have := takenTo_le r firstIndex data
  unfold accepted
  split
  next hk => rw [List.getElem?_eq_getElem (by omega)]; exact iff_of_true rfl hk
  next hk => exact iff_of_false Bool.false_ne_true hk

/-- In the first lap nothing is held past the last position. -/
theorem Inv.held_lt (h : r.Inv) (hP : r.output.totalPushed ≤ r.storageCapacity)
    (hk : (r.held k).isSome = true) : k < r.storageCapacity := by
  have hm := (h.isSome_held.1 hk).2
  have hbase : r.base = 0 := if_pos hP
  have hlt := hm.lt
  rw [hbase, h.flat hP] at hlt
  exact hlt

/-- Every byte of the window that a substring brings is there already or is stored. -/
def Saves (r : Reassembler) (firstIndex : Nat) (data : Bytes) : Prop :=
  ∀ k < r.windowEnd firstIndex data, firstIndex ≤ k → r.output.totalPushed ≤ k →
    r.Has k ∨ (r.Takes firstIndex ∧ (r.accepted firstIndex data k).isSome = true)

/-- At or behind `cur_index` the call goes as far as the window. -/
theorem Models.saves_of_le (h : r.Models a) (hi : firstIndex ≤ r.curIndex) :
    r.Saves firstIndex data := by
  intro k hk h1 h2
  have hsync := h.inv.sync
  have hav := h.inv.stream.availableCapacity_eq
  have hfits := h.inv.stream.fits
  have hpushed := h.inv.stream.pushed
  have htk : r.takenTo firstIndex data = _ := if_pos hi
  rw [windowEnd, bytesPopped] at hk
  rw [isSome_accepted]
  exact .inr ⟨fun hlt => absurd hlt (Nat.not_lt.2 hi), by omega⟩

/-- While less than a capacity's worth has been pushed, the strings must reach as far as the substring
does in the window. -/
theorem Models.saves_iff_flat (h : r.Models a) (hi : r.curIndex < firstIndex)
    (hreach : firstIndex < r.windowEnd firstIndex data)
    (hP : r.output.totalPushed < r.storageCapacity) :
    r.Saves firstIndex data ↔ r.windowEnd firstIndex data ≤ r.storageCapacity := by
  have hinv := h.inv
  have hS := hinv.pos_capacity
  have hcap := hinv.capacity_le
  have hword := hinv.stream.word
  have hsync := hinv.sync
  have htk : r.takenTo firstIndex data = _ := takenTo_ahead hi
  have hend : r.windowEnd firstIndex data =
    min (firstIndex + data.length) (r.output.totalPopped + r.output.capacity) := rfl
  rw [if_neg (by omega)] at htk
  constructor
  · intro hall
    by_contra hlong
    -- the first byte past the strings is neither held nor stored
    have hk := hall (max firstIndex r.storageCapacity) (by omega) (by omega) (by omega)
    rw [isSome_accepted] at hk
    rcases hk with (hk | hk) | ⟨htakes, hk⟩
    · rw [bytesPushed] at hk
      omega
    · have := hinv.held_lt hP.le hk
      omega
    · have hfit := (htakes hi).2 hP
      have := add_length_clip data hinv.last hS (by omega) hP hfit
      omega
  · intro hwithin k hk h1 h2
    rw [clip, bytesPushed, if_pos hP, List.length_take, lastIndex, hinv.last,
      add64_sub64_one (by omega) (by omega)] at htk
    rw [isSome_accepted]
    refine .inr ⟨fun _ => ⟨?_, fun _ => by omega⟩, by omega⟩
    rw [isValidIndex_eq hinv, if_pos hP, Option.some.injEq, decide_eq_true_eq]
    omega

/-- From then on what is not stored must be there already. -/
theorem Models.saves_iff_lap (h : r.Models a) (hi : r.curIndex < firstIndex)
    (hreach : firstIndex < r.windowEnd firstIndex data)
    (hP : ¬ r.output.totalPushed < r.storageCapacity) :
    r.Saves firstIndex data ↔ r.output.totalPushed ≠ r.storageCapacity ∧
      ∀ k < r.windowEnd firstIndex data, firstIndex ≤ k →
        (r.isValidIndex firstIndex = some true → firstIndex + (r.clip firstIndex data).length ≤ k) →
          (r.held k).isSome = true := by
  have hinv := h.inv
  have hsync := hinv.sync
  have htk : r.takenTo firstIndex data = _ := takenTo_ahead hi
  constructor
  · intro hall
    refine ⟨fun hbrim => ?_, fun k hk h1 hstored => ?_⟩
    · have hk := hall firstIndex hreach (Nat.le_refl _) (by omega)
      rw [isSome_accepted] at hk
      rw [if_pos hbrim] at htk
      rcases hk with (hk | hk) | ⟨-, hk⟩
      · rw [bytesPushed] at hk
        omega
      · have := hinv.held_lt hbrim.le hk
        omega
      · omega
    · have hk := hall k hk h1 (by omega)
      rw [isSome_accepted] at hk
      rcases hk with (hk | hk) | ⟨htakes, hk⟩
      · rw [bytesPushed] at hk
        omega
      · exact hk
      · have := hstored (htakes hi).1
        split at htk <;> omega
  · rintro ⟨hbrim, hheld⟩ k hk h1 h2
    rw [if_neg hbrim] at htk
    rw [isSome_accepted]
    by_cases hstored : r.isValidIndex firstIndex = some true ∧
        k < firstIndex + (r.clip firstIndex data).length
    · exact .inr ⟨fun _ => ⟨hstored.1, fun hlt => absurd hlt hP⟩, by omega⟩
    · refine .inl (.inr (hheld k hk h1 fun hv => ?_))
      exact Nat.le_of_not_lt fun hlt => hstored ⟨hv, hlt⟩

/-- The condition is that every byte of the window is there already or is stored. -/
theorem Models.keeps_iff (h : r.Models a) : r.Keeps firstIndex data ↔ r.Saves firstIndex data := by
  unfold Keeps
  rcases Nat.lt_or_ge r.curIndex firstIndex with hi | hi
  swap
  · exact iff_of_true (fun hlt => absurd hlt (Nat.not_lt.2 hi)) (h.saves_of_le hi)
  by_cases hreach : firstIndex < r.windowEnd firstIndex data
  · rw [forall_prop_of_true hi, forall_prop_of_true hreach, bytesPushed]
    split
    next hP => exact (h.saves_iff_flat hi hreach hP).symm
    next hP => exact (h.saves_iff_lap hi hreach hP).symm
  · exact iff_of_true (fun _ hlt => absurd hlt hreach)
      (fun k hk h1 _ => absurd (Nat.lt_of_le_of_lt h1 hk) hreach)

/-- A safe call on strings that can be made ends, and covers what it stores. -/
theorem Tracks.insert_covered (isLast : Bool) (h : r.Tracks a) (hG : 0 < r.output.getCapacity)
    (hsafe : r.Safe firstIndex data) (hlen : data.length ≤ 2 ^ 64) (hcur : r.curIndex < 2 ^ 64)
    (hopen : r.output.isClosed = false ∨ r.curIndex < firstIndex ∨
      firstIndex + data.length ≤ r.curIndex) :
    ∃ r' a', (r.insert firstIndex data isLast).Leaves r' ∧ r'.Tracks a' ∧
      r'.output.totalPopped = r.output.totalPopped ∧ r'.output.capacity = r.output.capacity ∧
      ∀ k, a'.Covered k ↔
        a.Covered k ∨ (r.Takes firstIndex ∧ (r.accepted firstIndex data k).isSome = true) := by
  obtain ⟨t, b, heq, hm, hs⟩ := h.strings hG
  rw [heq]
  rcases hm.insert_spec isLast (hs _ _ hsafe) hlen hcur hopen with
    ⟨htakes, r', a', xs, hr, hi⟩ | ⟨hi, hv, hr⟩ | ⟨hi, hP, hfar, hr⟩
  · refine ⟨r', a', .inl hr, hi.tracks, hi.moves.totalPopped, hi.moves.capacity, fun k => ?_⟩
    rw [hi.absorbs.covered]
    exact or_congr Iff.rfl (and_iff_right htakes).symm
  · refine ⟨_, a, .inl hr, .inr hm, rfl, rfl, fun k => (or_iff_left fun hx => ?_).symm⟩
    cases (hx.1 hi).1.symm.trans hv
  · refine ⟨_, a, .inr ⟨_, hr⟩, .inr hm, rfl, rfl, fun k => (or_iff_left fun hx => ?_).symm⟩
    exact absurd ((hx.1 hi).2 hP) (Nat.not_le.2 hfar)

/-- The condition does not depend on whether the strings have been made. -/
theorem Tracks.keeps_iff (h : r.Tracks a) (hG : 0 < r.output.getCapacity) :
    r.Keeps firstIndex data ↔
    ∀ k < r.windowEnd firstIndex data, firstIndex ≤ k → r.output.totalPushed ≤ k →
      a.Covered k ∨ (r.Takes firstIndex ∧ (r.accepted firstIndex data k).isSome = true) := by
  obtain ⟨t, b, -, hm, -⟩ := h.strings hG
  have hheld : ∀ k, r.held k =
      Reassembler.held { r with storage := t, storageBitmap := b } k := by
    intro k
    rw [← h.held, ← hm.held]
  have hkeeps : r.Keeps firstIndex data ↔
      Keeps { r with storage := t, storageBitmap := b } firstIndex data := by
    unfold Keeps
    simp only [hheld]
    rfl
  rw [hkeeps, hm.keeps_iff, Saves]
  simp only [Tracks.has_iff (.inr hm)]
  rfl

/-- A safe call retains what it should exactly if the strings can take it. -/
theorem Knows.retains_iff_keeps (h : Knows D r a out) (hD : D.length < 2 ^ 64)
    (hG : 0 < r.output.getCapacity) (hc : c.Fits D) (hsafe : r.Safe c.firstIndex c.data) :
    (∃ r', (r.insert c.firstIndex c.data c.isLast).Leaves r' ∧ r.Retains c r') ↔
      r.Keeps c.firstIndex c.data := by
  have hP := h.pushed_le
  have hsync := h.tracks.sync
  have hbound := hc.piece.bound
  obtain ⟨r', a', hl, ht', hpop, hcap, hcov⟩ := h.tracks.insert_covered c.isLast hG hsafe
    (by omega) (by omega) (h.open hc.piece)
  rw [h.tracks.keeps_iff hG]
  simp only [← hcov, ← ht'.has_iff, windowEnd]
  constructor
  · rintro ⟨r'', hl'', hr⟩ k hk h1 h2
    obtain rfl := hl''.unique hl
    exact hr.window k ⟨h1, by omega⟩ h2 (by omega)
  · intro hall
    refine ⟨r', hl, fun k hk h2 h3 => hall k (lt_min hk.2 h3) hk.1 h2, fun k hk => ?_, fun k hk => ?_⟩
    · rw [ht'.has_iff, hcov]
      exact .inl (h.tracks.has_iff.1 hk)
    · intro hx
      have := ht'.has_lt hx
      rw [bytesPopped] at hk
      omega

theorem PieceRun.mono {Ok Ok' : Reassembler → Call → Prop} (hok : ∀ r c, Ok r c → Ok' r c)
    (h : PieceRun capacity D Ok r calls out) : PieceRun capacity D Ok' r calls out := by
  induction h with
  | start => exact .start
  | insert c _ hfits h hl ih => exact ih.insert c hfits (hok _ _ h) hl
  | pop len _ hlen hpop ih => exact ih.pop len hlen hpop

theorem PieceRun.capacity_eq {Ok : Reassembler → Call → Prop} (hc : capacity < 2 ^ 64)
    (h : PieceRun capacity D Ok r calls out) : r.output.Wf ∧ r.output.capacity = capacity := by
  induction h with
  | start => exact ⟨wf_new hc, rfl⟩
  | insert c _ _ _ hl ih =>
    exact ⟨(ends_insert hl).stream ih.1, (ends_insert hl).capacity.trans ih.2⟩
  | pop len _ hlen hpop ih =>
    have hp := ih.1.popped hlen hpop
    exact ⟨hp.wf, hp.capacity.trans ih.2⟩

/-- In the runs of safe inserts that the strings can take, what is there lies in the window and fits
into the capacity, and a further safe insert retains what it should exactly if the strings can take
it. -/
theorem retains_iff (hc : capacity < 2 ^ 64) (hD : D.length < 2 ^ 64)
    (hG : 0 < getCapacity { capacity })
    (h : PieceRun capacity D
      (fun r c => r.Safe c.firstIndex c.data ∧ r.Keeps c.firstIndex c.data) r calls out) :
    (∀ k, r.Has k → k < r.output.bytesPopped + r.output.capacity) ∧
    r.output.bytesBuffered + r.bytesPending ≤ r.output.capacity ∧
    ∀ c : Call, c.Fits D → r.Safe c.firstIndex c.data →
      ((∃ r', (r.insert c.firstIndex c.data c.isLast).Leaves r' ∧ r.Retains c r') ↔
        r.Keeps c.firstIndex c.data) := by
  obtain ⟨a, ha⟩ := (h.mono fun _ _ hok => hok.1).knows hc hD
  have hcap := (h.capacity_eq hc).2
  have hG' : 0 < r.output.getCapacity := by rw [getCapacity_congr (s := { capacity }) hcap]; exact hG
  exact ⟨fun k hk => ha.tracks.has_lt hk, ha.tracks.occupied_le,
    fun c hfits hsafe => ha.retains_iff_keeps hD hG' hfits hsafe⟩

/-- Capacity 3: the second byte is kept until the first one comes. -/
theorem retains_iff_ab : ∃ r calls out, PieceRun 3 [1, 2, 3, 4]
    (fun r c => r.Safe c.firstIndex c.data ∧ r.Keeps c.firstIndex c.data) r calls out ∧
    r.bytesPending = 1 ∧ r.output.bytesBuffered + r.bytesPending ≤ r.output.capacity := by
  have h₀ : PieceRun 3 [1, 2, 3, 4]
    (fun r c => r.Safe c.firstIndex c.data ∧ r.Keeps c.firstIndex c.data) _ _ _ := .start
  have h₁ := h₀.insert ⟨1, [2], false⟩ ⟨⟨by decide, by decide⟩, by decide⟩ (by decide) (.inl rfl)
  exact ⟨_, _, _, h₁, rfl, (retains_iff (by decide) (by decide) (by decide) h₁).2.1⟩

/-- Capacity 4: two bytes are in and read, so the window goes up to index 6, but the strings end at
4 and the byte there is dropped. -/
theorem retains_fails : ∃ r calls out r', PieceRun 4 [1, 2, 3, 4, 5, 6] (fun _ _ => True) r calls out ∧
    r.insert 4 [5] false = .ok r' ∧ r.output.bytesPushed ≤ 4 ∧
    4 < r.output.bytesPopped + r.output.capacity ∧ ¬ r'.Has 4 := by
  have h₀ : PieceRun 4 [1, 2, 3, 4, 5, 6] (fun _ _ => True) _ _ _ := .start
  have h₁ := h₀.insert ⟨0, [1, 2], false⟩ ⟨⟨by decide, by decide⟩, by decide⟩ trivial (.inl rfl)
  have h₂ := h₁.pop 2 (by decide) rfl
  exact ⟨_, _, _, _, h₂, rfl, by decide, by decide, by decide⟩

end Minnow.Reassembler
