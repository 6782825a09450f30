import Minnow.ReassemblerInv

/-!
# When the output closes

The closing logic of `insert` looks at the counters only, so it can be followed without knowing
anything of the two strings: whatever a call does before `closeAtEnd`, an exception included, keeps
the noted end of the stream and the closed flag, and pushes nothing to a closed output.
-/

namespace Minnow.Reassembler
open Prog ByteStream

/-- What the steps of `insert` before `closeAtEnd` leave alone, and an error that is noted as well. -/
structure Kept (r r' : Reassembler) : Prop where
  seenLast : r'.seenLast = r.seenLast
  totalLen : r'.totalLen = r.totalLen
  isClosed : r'.output.isClosed = r.output.isClosed
  pushed : r.output.isClosed = true →
    r'.output.totalPushed = r.output.totalPushed ∧ r'.output.queued = r.output.queued
  mono : r.output.totalPushed ≤ r'.output.totalPushed
  stream : r.output.Wf → r'.output.Wf
  capacity : r'.output.capacity = r.output.capacity

/-- The steps themselves make no error. -/
structure Steps (r r' : Reassembler) : Prop extends Kept r r' where
  error : r'.output.hasError = r.output.hasError

variable {r r' r'' : Reassembler} {firstIndex n : Nat} {data : Bytes} {isLast : Bool}

theorem Kept.of_output (ho : r'.output = r.output) (hs : r'.seenLast = r.seenLast)
    (ht : r'.totalLen = r.totalLen) : Kept r r' :=
  ⟨hs, ht, by rw [ho], fun _ => by rw [ho]; exact ⟨rfl, rfl⟩, by rw [ho], fun hw => ho ▸ hw,
    by rw [ho]⟩

theorem Kept.refl (r : Reassembler) : Kept r r := .of_output rfl rfl rfl

theorem Kept.trans (h : Kept r r') (h' : Kept r' r'') : Kept r r'' where
  seenLast := h'.seenLast.trans h.seenLast
  totalLen := h'.totalLen.trans h.totalLen
  isClosed := h'.isClosed.trans h.isClosed
  pushed hc := ⟨(h'.pushed (h.isClosed.trans hc)).1.trans (h.pushed hc).1,
    (h'.pushed (h.isClosed.trans hc)).2.trans (h.pushed hc).2⟩
  mono := h.mono.trans h'.mono
  stream hw := h'.stream (h.stream hw)
  capacity := h'.capacity.trans h.capacity

theorem Steps.of_output (ho : r'.output = r.output) (hs : r'.seenLast = r.seenLast)
    (ht : r'.totalLen = r.totalLen) : Steps r r' :=
  ⟨.of_output ho hs ht, by rw [ho]⟩

theorem Steps.refl (r : Reassembler) : Steps r r := .of_output rfl rfl rfl

theorem Steps.trans (h : Steps r r') (h' : Steps r' r'') : Steps r r'' :=
  ⟨h.toKept.trans h'.toKept, h'.error.trans h.error⟩

theorem steps_push (r : Reassembler) (data : Bytes) :
    Steps r { r with output := r.output.push data } := by
  have hp := push_pushed r.output data
  refine ⟨⟨rfl, rfl, hp.isClosed, fun hc => ⟨?_, ?_⟩, ?_, fun hw => hw.push data, hp.capacity⟩,
    hp.error⟩
  · show (r.output.push data).totalPushed = _
    rw [hp.totalPushed, taken, if_pos hc]; rfl
  · show (r.output.push data).queued = _
    rw [hp.queued, taken, if_pos hc, List.append_nil]
  · show _ ≤ (r.output.push data).totalPushed
    rw [hp.totalPushed]; omega

theorem steps_init (h : r.init.Leaves r') : Steps r r' := by
  unfold init at h
  dsimp only at h
  split at h
  · split at h
    · obtain rfl := Outcome.leaves_throws.1 h; exact .refl _
    · obtain rfl := Outcome.leaves_ok.1 h; exact .of_output rfl rfl rfl
  · obtain rfl := Outcome.leaves_ok.1 h; exact .refl _

theorem steps_store (h : (r.store firstIndex data).Leaves r') : Steps r r' := by
  unfold store at h
  dsimp only at h
  split at h
  · obtain rfl := Outcome.leaves_throws.1 h; exact .refl _
  · split at h
    · obtain rfl := Outcome.leaves_throws.1 h; exact .of_output rfl rfl rfl
    · obtain rfl := Outcome.leaves_ok.1 h; exact .of_output rfl rfl rfl

theorem steps_drain (h : (r.drain n).Leaves r') : Steps r r' := by
  unfold drain at h
  split at h
  · simp at h
  · split at h
    · dsimp only at h
      split at h
      · obtain rfl := Outcome.leaves_throws.1 h; exact .refl _
      · split at h
        · obtain rfl := Outcome.leaves_throws.1 h; exact steps_push r _
        · obtain rfl := Outcome.leaves_ok.1 h
          exact (steps_push r _).trans (.of_output rfl rfl rfl)
    · obtain rfl := Outcome.leaves_ok.1 h; exact .refl _

theorem steps_cleanUp (h : (r.cleanUp n).Leaves r') : Steps r r' := by
  unfold cleanUp at h
  split at h
  · obtain rfl := Outcome.leaves_throws.1 h; exact .refl _
  · obtain rfl := Outcome.leaves_ok.1 h; exact .of_output rfl rfl rfl

/-- A call either stops on the way or ends with `closeAtEnd`. -/
structure Ends (r : Reassembler) (firstIndex : Nat) (data : Bytes) (isLast : Bool)
    (r' : Reassembler) : Prop where
  kept : ∃ r₁, Steps r r₁ ∧ (r' = r₁ ∨ r' = r₁.closeAtEnd firstIndex data isLast)

theorem Steps.ends (h : Steps r r') (h' : Ends r' firstIndex data isLast r'') :
    Ends r firstIndex data isLast r'' := by
  obtain ⟨⟨r₁, h₁, hr⟩⟩ := h'
  exact ⟨⟨r₁, h.trans h₁, hr⟩⟩

theorem ends_finish (h : (r.finish firstIndex data isLast).Leaves r') :
    Ends r firstIndex data isLast r' := by
  unfold finish at h
  split at h
  · simp at h
  · have kept : ∀ {r₁ n}, ((r.drain n).bind fun r => r.cleanUp n).Leaves r₁ → Steps r r₁ := by
      intro r₁ n h₁
      rcases Outcome.leaves_bind.1 h₁ with ⟨r₂, h₂, h₃⟩ | ⟨e, h₂⟩
      · exact (steps_drain (.inl h₂)).trans (steps_cleanUp h₃)
      · exact steps_drain (.inr ⟨e, h₂⟩)
    rcases Outcome.leaves_bind.1 h with ⟨r₁, h₁, h₂⟩ | ⟨e, h₁⟩
    · exact ⟨⟨r₁, kept (.inl h₁), .inr (Outcome.leaves_ok.1 h₂)⟩⟩
    · exact ⟨⟨r', kept (.inr ⟨e, h₁⟩), .inl rfl⟩⟩

theorem steps_pushNow (r : Reassembler) (data : Bytes) : Steps r (r.pushNow data) :=
  (steps_push r _).trans (.of_output rfl rfl rfl)

theorem ends_insert (h : (r.insert firstIndex data isLast).Leaves r') :
    Ends r firstIndex data isLast r' := by
  rcases Outcome.leaves_bind.1 h with ⟨r₁, h₁, h₂⟩ | ⟨e, h₁⟩
  swap
  · exact ⟨⟨r', steps_init (.inr ⟨e, h₁⟩), .inl rfl⟩⟩
  refine (steps_init (.inl h₁)).ends ?_
  split at h₂
  · exact (steps_pushNow r₁ data).ends (ends_finish h₂)
  split at h₂
  · split at h₂
    · exact (steps_pushNow r₁ _).ends (ends_finish h₂)
    · exact ends_finish h₂
  · split at h₂
    · simp at h₂
    · obtain rfl := Outcome.leaves_ok.1 h₂; exact ⟨⟨_, .refl _, .inl rfl⟩⟩
    · rcases Outcome.leaves_bind.1 h₂ with ⟨r₂, h₃, h₄⟩ | ⟨e, h₃⟩
      · exact (steps_store (.inl h₃)).ends (ends_finish h₄)
      · exact ⟨⟨r', steps_store (.inr ⟨e, h₃⟩), .inl rfl⟩⟩

/-- A closed output stays closed and gets nothing more. -/
theorem Ends.of_closed (h : Ends r firstIndex data isLast r') (hc : r.output.isClosed = true) :
    r'.output.isClosed = true ∧ r'.output.totalPushed = r.output.totalPushed := by
  obtain ⟨⟨r₁, hk, rfl | rfl⟩⟩ := h
  · exact ⟨hk.isClosed.trans hc, (hk.pushed hc).1⟩
  · rw [closeAtEnd_eq]
    exact ⟨by rw [hk.isClosed, hc, Bool.true_or], (hk.pushed hc).1⟩

theorem Ends.queued_of_closed (h : Ends r firstIndex data isLast r')
    (hc : r.output.isClosed = true) : r'.output.queued = r.output.queued := by
  obtain ⟨⟨r₁, hk, rfl | rfl⟩⟩ := h
  · exact (hk.pushed hc).2
  · rw [closeAtEnd_eq]; exact (hk.pushed hc).2

theorem Ends.mono (h : Ends r firstIndex data isLast r') :
    r.output.totalPushed ≤ r'.output.totalPushed := by
  obtain ⟨⟨r₁, hk, rfl | rfl⟩⟩ := h
  · exact hk.mono
  · rw [closeAtEnd_eq]; exact hk.mono

theorem Ends.stream (h : Ends r firstIndex data isLast r') (hw : r.output.Wf) : r'.output.Wf := by
  obtain ⟨⟨r₁, hk, rfl | rfl⟩⟩ := h
  · exact hk.stream hw
  · have hw₁ := hk.stream hw
    rw [closeAtEnd_eq]
    exact ⟨hw₁.word, hw₁.buffered, hw₁.fits, hw₁.chunks, hw₁.pushed⟩

theorem Ends.capacity (h : Ends r firstIndex data isLast r') :
    r'.output.capacity = r.output.capacity := by
  obtain ⟨⟨r₁, hk, rfl | rfl⟩⟩ := h
  · exact hk.capacity
  · rw [closeAtEnd_eq]; exact hk.capacity

theorem Ends.error (h : Ends r firstIndex data isLast r') :
    r'.output.hasError = r.output.hasError := by
  obtain ⟨⟨r₁, hk, rfl | rfl⟩⟩ := h
  · exact hk.error
  · rw [closeAtEnd_eq]; exact hk.error

theorem Ends.seenLast (h : Ends r firstIndex data isLast r') (hs : r'.seenLast = true) :
    r.seenLast = true ∨ isLast = true := by
  obtain ⟨⟨r₁, hk, rfl | rfl⟩⟩ := h
  · exact .inl (hk.seenLast ▸ hs)
  · rw [closeAtEnd_eq] at hs
    rcases Bool.or_eq_true _ _ ▸ hs with hs | hs
    · exact .inl (hk.seenLast ▸ hs)
    · exact .inr hs

/-- What an open output knows of its end before and after a call. -/
structure EndsAt (r : Reassembler) (total : Nat) : Prop where
  totalLen : r.output.isClosed = false → r.seenLast = true → r.totalLen = total
  closed : r.output.isClosed = true → r.seenLast = true ∧ r.output.totalPushed = total

theorem EndsAt.kept {total : Nat} (h : r.EndsAt total) (hk : Kept r r') : r'.EndsAt total where
  totalLen ho hs := by
    rw [hk.totalLen]; exact h.totalLen (hk.isClosed ▸ ho) (hk.seenLast ▸ hs)
  closed hc := by
    have := h.closed (hk.isClosed ▸ hc)
    exact ⟨hk.seenLast.trans this.1, (hk.pushed (hk.isClosed ▸ hc)).1.trans this.2⟩

theorem EndsAt.insert {total : Nat} (h : r.EndsAt total) (he : Ends r firstIndex data isLast r')
    (hlast : r.output.isClosed = false → isLast = true → add64 firstIndex data.length = total) :
    r'.EndsAt total := by
  cases hc : r.output.isClosed with
  | true =>
    have hcl := he.of_closed hc
    refine ⟨fun ho => absurd (hcl.1.symm.trans ho) (by simp), fun _ => ⟨?_, ?_⟩⟩
    swap
    · exact hcl.2.trans (h.closed hc).2
    obtain ⟨⟨r₁, hk, rfl | rfl⟩⟩ := he
    · exact hk.seenLast.trans (h.closed hc).1
    · rw [closeAtEnd_eq]
      show (r₁.seenLast || isLast) = true
      rw [hk.seenLast, (h.closed hc).1, Bool.true_or]
  | false =>
    obtain ⟨⟨r₁, hk, rfl | rfl⟩⟩ := he
    · exact ⟨fun _ hs => hk.totalLen.trans (h.totalLen hc (hk.seenLast ▸ hs)),
        fun ho => absurd ((hk.isClosed.trans hc).symm.trans ho) (by simp)⟩
    · rw [closeAtEnd_eq]
      have htotal : (r₁.seenLast || isLast) = true → r₁.endAfter firstIndex data isLast = total := by
        intro hs
        unfold endAfter
        split
        next hl => exact hlast hc hl
        next hl => exact hk.totalLen.trans (h.totalLen hc (by simpa [hk.seenLast, hl] using hs))
      refine ⟨fun _ hs => htotal hs, fun ho => ?_⟩
      have ho' : (r₁.seenLast || isLast) = true ∧
          r₁.output.totalPushed = r₁.endAfter firstIndex data isLast := by
        simpa [hk.isClosed, hc] using ho
      exact ⟨ho'.1, ho'.2.trans (htotal ho'.1)⟩

end Minnow.Reassembler
