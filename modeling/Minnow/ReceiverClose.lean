import Minnow.ReceiverStep

/-!
# When the receiver closes its stream

`SegmentRun` collects the receivers that well-formed segments of a stream `D` and reads can reach.
The stream's end is taken from the index that a FIN is inserted at, which a bare FIN gets from
`cur_seq` and not from its own sequence number. `FinSafe` says when that index is the right one; as
long as it is, the receiver closes only at the end of `D` (`closed_of_finSafe`). A bare FIN that
overtakes the data closes at once (`closed_fails`).
-/

namespace Minnow.TCPReceiver
open Prog Reassembler ByteStream

/-- The receivers with a given capacity, with the messages received so far and the bytes read so
far. `Ok` says which messages may come in which state. -/
inductive SegmentRun (capacity : Nat) (isn : Wrap32) (D : Bytes)
    (Ok : TCPReceiver → Nat → TCPSenderMessage → Prop) :
    TCPReceiver → List TCPSenderMessage → Bytes → Prop
  | start : SegmentRun capacity isn D Ok (ofReassembler (ofStream { capacity })) [] []
  | receive {t t' : TCPReceiver} {msgs : List TCPSenderMessage} {out : Bytes} (a : Nat)
      (m : TCPSenderMessage) (h : SegmentRun capacity isn D Ok t msgs out)
      (hw : m.WellFormed isn D a) (hok : Ok t a m) (hl : (t.receive m).Leaves t') :
      SegmentRun capacity isn D Ok t' (m :: msgs) out
  | pop {t : TCPReceiver} {o : ByteStream} {msgs : List TCPSenderMessage} {out : Bytes} (len : Nat)
      (h : SegmentRun capacity isn D Ok t msgs out) (hlen : len ≤ t.inbound.bytesBuffered)
      (hpop : t.inbound.pop len = some o) :
      SegmentRun capacity isn D Ok { t with reassembler := { t.reassembler with output := o } } msgs
        (out ++ t.inbound.queued.take len)

/-- A FIN that comes while the stream is open is inserted where the payload ends: it is near, and if
it has no payload it is the next message in sequence. -/
def FinSafe (t : TCPReceiver) (a : Nat) (m : TCPSenderMessage) : Prop :=
  m.FIN = true → m.SYN = true ∨ t.seenSyn = true → t.inbound.isClosed = false →
    if m.SYN = true then Near 0 t.inbound.bytesPushed
    else if m.payload ≠ [] then
      Near a t.inbound.bytesPushed ∧ ¬ (m.seqno = t.isn ∧ t.curSeq = t.isn)
    else if t.curSeq = t.isn then Near (a - 1) t.inbound.bytesPushed ∧ m.seqno = t.isn + 1
    else Near a t.inbound.bytesPushed ∧ m.seqno = t.curSeq

instance (t : TCPReceiver) (a : Nat) (m : TCPSenderMessage) : Decidable (FinSafe t a m) :=
  inferInstanceAs (Decidable (_ → _ → _ → ite _ _ _))

variable {t t' : TCPReceiver} {m : TCPSenderMessage} {isn : Wrap32} {D out : Bytes} {a len : Nat}
  {msgs : List TCPSenderMessage} {capacity : Nat}

theorem Received.flags (h : Received t m t') :
    t'.isn = (t.noted m).isn ∧ t'.seenSyn = (t.noted m).seenSyn ∧
      t'.seenFin = (t.noted m).seenFin := by
  cases h with
  | ahead | thrown => exact ⟨rfl, rfl, rfl⟩
  | accounted =>
    unfold account
    dsimp only
    split <;> split <;> exact ⟨rfl, rfl, rfl⟩

/-- However a message ends, the inbound stream is as after a call of `insert`. -/
theorem receive_stream (hl : (t.receive m).Leaves t') :
    (t.inbound.Wf → t'.inbound.Wf) ∧ t.inbound.totalPushed ≤ t'.inbound.totalPushed := by
  rcases receive_cases hl with ⟨-, -, rfl⟩ | ⟨-, hr⟩
  · split
    · exact ⟨Wf.setError, Nat.le_refl _⟩
    · exact ⟨id, Nat.le_refl _⟩
  · obtain ⟨r', hins, heq⟩ := hr.leaves
    have hk := kept_noted t m
    rw [inbound, inbound, heq]
    exact ⟨fun hw => (ends_insert hins).stream (hk.stream hw), hk.mono.trans (ends_insert hins).mono⟩

theorem SegmentRun.stream {Ok : TCPReceiver → Nat → TCPSenderMessage → Prop}
    (hcap : capacity < 2 ^ 64) (h : SegmentRun capacity isn D Ok t msgs out) : t.inbound.Wf := by
  induction h with
  | start => exact wf_new hcap
  | receive a m _ _ _ hl ih => exact (receive_stream hl).1 ih
  | pop len _ hlen hpop ih => exact (ih.popped hlen hpop).wf

theorem receive_isn (hw : m.SYN = true → m.seqno = isn) (hisn : t.seenSyn = true → t.isn = isn)
    (hl : (t.receive m).Leaves t') (hs : t'.seenSyn = true) : t'.isn = isn := by
  rcases receive_cases hl with ⟨-, hseen, rfl⟩ | ⟨-, hr⟩
  · have : (if m.RST then t.setError else t).seenSyn = t.seenSyn := by split <;> rfl
    rw [this, hseen] at hs; cases hs
  · obtain ⟨h1, h2, -⟩ := hr.flags
    obtain ⟨hi, -, hsn, -⟩ := noted_flags t m
    rw [h1, hi]
    split
    next hsyn => exact hw hsyn
    next hsyn => exact hisn (by simpa [hsn, hsyn] using h2.symm.trans hs)

/-- A safe FIN is inserted so that it ends where the stream does. -/
theorem FinSafe.index (h : FinSafe t a m) (hw : m.WellFormed isn D a) (hD : D.length < 2 ^ 63)
    (hisn : t.seenSyn = true → t.isn = isn) (hproc : m.SYN = true ∨ t.seenSyn = true)
    (hopen : t.inbound.isClosed = false) (hfin : m.FIN = true) :
    (t.noted m).insertIndex m + m.payload.length = D.length := by
  have h' := h hfin hproc hopen
  rw [← hw.fin hfin]
  congr 1
  cases hs : m.SYN with
  | true =>
    rw [if_pos hs] at h'
    rw [insertIndex_of_syn hs h', TCPSenderMessage.index, if_pos hs]
  | false =>
    have hseen := hproc.resolve_left (by simp [hs])
    have hi := hisn hseen
    have ha : 0 < a := (hw.start (.inr hfin)).resolve_left (by simp [hs])
    have hidx : m.index a = a - 1 := by rw [TCPSenderMessage.index, hs]; rfl
    have hend := hw.fin hfin
    rw [if_neg (by simp [hs])] at h'
    by_cases hne : m.payload = []
    · rw [if_neg (by simpa using hne)] at h'
      rw [hne, List.length_nil] at hend
      rw [insertIndex_of_empty hs hne, hidx]
      split at h'
      next hc =>
        -- `cur_seq` is back at the initial number, and the index is not reduced by one
        rw [if_pos hc, hc]
        have hz : Wrap32.wrap (a - 1) t.isn = t.isn := by
          have := hw.seqno.symm.trans h'.2
          rw [Wrap32.wrap, hi, Wrap32.add_eq_add_iff] at this
          rw [Wrap32.wrap_eq_zero_iff]; omega
        have := Wrap32.unwrap_wrap (z := t.isn) (n := a - 1) (c := t.inbound.totalPushed)
          (by have := h'.1.2; rw [bytesPushed] at this; omega) h'.1.2 h'.1.1
        rwa [hz] at this
      next hc =>
        have := Wrap32.unwrap_wrap (z := isn) (n := a) (c := t.inbound.totalPushed)
          (by have := h'.1.2; rw [bytesPushed] at this; omega) h'.1.2 h'.1.1
        rw [if_neg hc, ← h'.2, hw.seqno, hi, this]
        exact sub64_of_le ha (by omega)
    · rw [if_pos hne] at h'
      exact insertIndex_of_payload hw hs hseen hi hne hD h'.1 h'.2

/-- What the receiver knows of the end of the stream is right. -/
structure EndKnown (D : Bytes) (isn : Wrap32) (t : TCPReceiver) (msgs : List TCPSenderMessage) :
    Prop where
  isn : t.seenSyn = true → t.isn = isn
  ends : t.reassembler.EndsAt D.length
  fin : t.reassembler.seenLast = true → ∃ m ∈ msgs, m.FIN = true

theorem EndKnown.receive (h : EndKnown D isn t msgs) (hD : D.length < 2 ^ 63)
    (hw : m.WellFormed isn D a) (hsafe : FinSafe t a m) (hl : (t.receive m).Leaves t') :
    EndKnown D isn t' (m :: msgs) := by
  refine ⟨receive_isn hw.seqno_of_syn h.isn hl, ?_, ?_⟩ <;>
    rcases receive_cases hl with ⟨-, -, rfl⟩ | ⟨hproc, hr⟩
  · split
    · exact ⟨h.ends.totalLen, h.ends.closed⟩
    · exact h.ends
  · obtain ⟨r', hins, heq⟩ := hr.leaves
    rw [heq]
    refine (h.ends.kept (kept_noted t m)).insert (ends_insert hins) fun ho hfin => ?_
    have ho' : t.inbound.isClosed = false := by rw [← (noted_pushed t m).2.2]; exact ho
    have hidx := hsafe.index hw hD h.isn hproc ho' hfin
    rw [add64_of_lt (by omega), hidx]
  · intro hs
    obtain ⟨x, hx, hf⟩ := h.fin (by split at hs <;> exact hs)
    exact ⟨x, List.mem_cons_of_mem _ hx, hf⟩
  · intro hs
    obtain ⟨r', hins, heq⟩ := hr.leaves
    rcases (ends_insert hins).seenLast (heq ▸ hs) with hs' | hf
    · obtain ⟨x, hx, hf⟩ := h.fin ((kept_noted t m).seenLast ▸ hs')
      exact ⟨x, List.mem_cons_of_mem _ hx, hf⟩
    · exact ⟨m, List.mem_cons_self, hf⟩

theorem EndKnown.pop {o : ByteStream} (h : EndKnown D isn t msgs) (hp : Popped t.inbound len o) :
    EndKnown D isn { t with reassembler := { t.reassembler with output := o } } msgs where
  isn := h.isn
  ends := ⟨fun ho => h.ends.totalLen (hp.isClosed.symm.trans ho), fun hc => by
    have := h.ends.closed (hp.isClosed.symm.trans hc)
    exact ⟨this.1, hp.totalPushed.trans this.2⟩⟩
  fin := h.fin

theorem SegmentRun.endKnown (hcap : capacity < 2 ^ 64) (hD : D.length < 2 ^ 63)
    (h : SegmentRun capacity isn D FinSafe t msgs out) : EndKnown D isn t msgs := by
  induction h with
  | start => exact ⟨fun h => (by cases h), ⟨fun _ h => (by cases h), fun h => (by cases h)⟩,
      fun h => (by cases h)⟩
  | receive a m _ hw hsafe hl ih => exact ih.receive hD hw hsafe hl
  | pop len h hlen hpop ih => exact ih.pop ((h.stream hcap).popped hlen hpop)

/-- No premature end in the runs in which every FIN is safe. -/
theorem closed_of_finSafe (hcap : capacity < 2 ^ 64) (hD : D.length < 2 ^ 63)
    (h : SegmentRun capacity isn D FinSafe t msgs out) (hc : t.inbound.isClosed = true) :
    (∃ m ∈ msgs, m.FIN = true) ∧ t.inbound.bytesPushed = D.length := by
  have hk := h.endKnown hcap hD
  have he := hk.ends.closed hc
  exact ⟨hk.fin he.1, he.2⟩

/-- The FIN comes before the data, and with the last byte. -/
theorem closed_of_finSafe_ab :
    ∃ t msgs out, SegmentRun 4 ⟨7⟩ [1, 2] FinSafe t msgs out ∧
      (∃ m ∈ msgs, m.FIN = true) ∧ t.inbound.bytesPushed = 2 := by
  have h₀ : SegmentRun 4 ⟨7⟩ [1, 2] FinSafe _ _ _ := .start
  have h₁ := h₀.receive 0 { seqno := ⟨7⟩, SYN := true } ⟨rfl, by decide, by decide, by decide, by decide⟩
    (by decide) (.inl rfl)
  have h₂ := h₁.receive 2 { seqno := ⟨9⟩, payload := [2], FIN := true }
    ⟨rfl, by decide, by decide, by decide, by decide⟩ (by decide) (.inl rfl)
  have h₃ := h₂.receive 1 { seqno := ⟨8⟩, payload := [1] }
    ⟨rfl, by decide, by decide, by decide, by decide⟩ (by decide) (.inl rfl)
  exact ⟨_, _, _, h₃, closed_of_finSafe (by decide) (by decide) h₃ (by decide)⟩

/-- A bare FIN overtakes the data: it closes the stream with nothing in it. -/
theorem closed_fails :
    ∃ t msgs out, SegmentRun 4 ⟨7⟩ [1, 2] (fun _ _ _ => True) t msgs out ∧
      t.inbound.isClosed = true ∧ t.inbound.bytesPushed ≠ 2 := by
  have h₀ : SegmentRun 4 ⟨7⟩ [1, 2] (fun _ _ _ => True) _ _ _ := .start
  have h₁ := h₀.receive 0 { seqno := ⟨7⟩, SYN := true } ⟨rfl, by decide, by decide, by decide, by decide⟩
    trivial (.inl rfl)
  have h₂ := h₁.receive 3 { seqno := ⟨10⟩, FIN := true }
    ⟨rfl, by decide, by decide, by decide, by decide⟩ trivial (.inl rfl)
  exact ⟨_, _, _, h₂, by decide, by decide⟩

end Minnow.TCPReceiver
