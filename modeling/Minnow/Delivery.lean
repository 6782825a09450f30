import Minnow.ReceiverClose

/-!
# What the receiver delivers

`Delivers isn D t out`: the bytes read off `t` and those still buffered are the beginning of `D`, and
all of `D` once the inbound stream is closed. A well-formed segment of `D` that is inserted at its own
place keeps it so (`Delivers.receive`). The stream `D` may still grow while no FIN has been seen.
-/

namespace Minnow.TCPReceiver
open Prog Reassembler ByteStream

/-- A payload that comes while the stream is open goes to its own place and does no harm there. -/
def PayloadSafe (t : TCPReceiver) (a : Nat) (m : TCPSenderMessage) : Prop :=
  m.payload ≠ [] → m.SYN = true ∨ t.seenSyn = true → t.inbound.isClosed = false →
    Near a t.inbound.bytesPushed ∧ ¬ (m.SYN = false ∧ m.seqno = t.isn ∧ t.curSeq = t.isn) ∧
      t.reassembler.Safe (m.index a) m.payload

instance (t : TCPReceiver) (a : Nat) (m : TCPSenderMessage) : Decidable (PayloadSafe t a m) :=
  inferInstanceAs (Decidable (_ → _ → _ → _ ∧ _ ∧ _))

structure Delivers (isn : Wrap32) (D : Bytes) (t : TCPReceiver) (out : Bytes) : Prop where
  stream : t.inbound.Wf
  isn : t.seenSyn = true → t.isn = isn
  opened : t.inbound.isClosed = false → ∃ A, t.reassembler.Knows D A out
  closed : t.inbound.isClosed = true → t.reassembler.seenLast = true ∧
    out ++ t.inbound.queued = D ∧ t.inbound.totalPushed = D.length

variable {t t' : TCPReceiver} {m : TCPSenderMessage} {r' : Reassembler} {isn : Wrap32}
  {D out : Bytes} {a len : Nat} {A : Assembly Byte}

theorem delivers_ofReassembler {capacity : Nat} (hcap : capacity < 2 ^ 64) (isn : Wrap32) :
    Delivers isn [] (ofReassembler (ofStream { capacity })) [] :=
  ⟨wf_new hcap, fun h => (by cases h), fun _ => ⟨_, knows_ofStream hcap []⟩, fun h => (by cases h)⟩

theorem Delivers.le_stream (h : Delivers isn D t out) : out ++ t.inbound.queued <+: D := by
  cases hc : t.inbound.isClosed with
  | true => rw [(h.closed hc).2.1]
  | false =>
    obtain ⟨A, hA⟩ := h.opened hc
    rw [inbound, hA.split]; exact hA.agrees.out

theorem Delivers.length (h : Delivers isn D t out) :
    (out ++ t.inbound.queued).length = t.inbound.totalPushed := by
  cases hc : t.inbound.isClosed with
  | true => rw [(h.closed hc).2.1, (h.closed hc).2.2]
  | false =>
    obtain ⟨A, hA⟩ := h.opened hc
    rw [inbound, hA.split]; exact hA.tracks.length

theorem Delivers.pushed_le (h : Delivers isn D t out) : t.inbound.totalPushed ≤ D.length := by
  cases hc : t.inbound.isClosed with
  | true => exact (h.closed hc).2.2.le
  | false =>
    obtain ⟨A, hA⟩ := h.opened hc
    exact hA.pushed_le

/-- What the reassembler knows is all there is to say, open or closed. -/
theorem delivers_of_knows (hw : t.inbound.Wf) (hisn : t.seenSyn = true → t.isn = isn)
    (hk : t.reassembler.Knows D A out) : Delivers isn D t out := by
  refine ⟨hw, hisn, fun _ => ⟨A, hk⟩, fun hc => ?_⟩
  obtain ⟨hs, hP⟩ := hk.closed hc
  refine ⟨hs, ?_, hP⟩
  have hlen := hk.tracks.length
  rw [inbound, hk.split]
  exact hk.agrees.out.eq_of_length (by rw [hlen]; exact hP)

theorem knows_noted (hk : t.reassembler.Knows D A out) :
    (t.noted m).reassembler.Knows D A out := by
  rw [noted_reassembler]
  split
  · exact hk.setError
  · exact hk

/-- A safe payload is inserted at its own place. -/
theorem PayloadSafe.index (hp : PayloadSafe t a m) (hD : D.length < 2 ^ 63)
    (hisn : t.seenSyn = true → t.isn = isn) (hw : m.WellFormed isn D a)
    (hproc : m.SYN = true ∨ t.seenSyn = true) (ho : t.inbound.isClosed = false)
    (hne : m.payload ≠ []) : (t.noted m).insertIndex m = m.index a := by
  obtain ⟨hnear, hcur, -⟩ := hp hne hproc ho
  cases hs : m.SYN with
  | true => rw [insertIndex_of_syn hs (hw.syn hs ▸ hnear), TCPSenderMessage.index, if_pos hs]
  | false =>
    have hseen := hproc.resolve_left (by simp [hs])
    exact insertIndex_of_payload hw hs hseen (hisn hseen) hne hD hnear fun h => hcur ⟨hs, h⟩

theorem piece_of_wellFormed (hw : m.WellFormed isn D a) (hne : m.payload ≠ []) :
    Piece D (m.index a) m.payload := by
  have hpos := List.length_pos_iff.2 hne
  have hlen := hw.bytes.length_le
  rw [List.length_drop] at hlen
  exact ⟨by omega, hw.bytes⟩

/-- The insert of a safe message. -/
theorem knows_insert (hk : t.reassembler.Knows D A out) (hD : D.length < 2 ^ 63)
    (hisn : t.seenSyn = true → t.isn = isn)
    (hw : 0 < m.sequenceLength → m.WellFormed isn D a) (hproc : m.SYN = true ∨ t.seenSyn = true)
    (ho : t.inbound.isClosed = false) (hp : PayloadSafe t a m) (hf : FinSafe t a m)
    (hl : ((t.noted m).reassembler.insert ((t.noted m).insertIndex m) m.payload m.FIN).Leaves r') :
    ∃ A', r'.Knows D A' out := by
  have hk' := knows_noted (m := m) hk
  have ho' : (t.noted m).reassembler.output.isClosed = false := (noted_pushed t m).2.2.trans ho
  have hlast : m.FIN = true → (t.noted m).insertIndex m + m.payload.length = D.length := by
    intro hF
    refine hf.index (hw ?_) hD hisn hproc ho hF
    rw [TCPSenderMessage.sequenceLength, hF, Bool.toNat_true]; omega
  by_cases hne : m.payload = []
  · rw [hne] at hl hlast
    exact hk'.insert_nil (by omega) ho' hlast hl
  · have hpos := List.length_pos_iff.2 hne
    have hwf := hw (by rw [TCPSenderMessage.sequenceLength]; omega)
    have hsafe := (hp hne hproc ho).2.2
    rw [hp.index hD hisn hwf hproc ho hne] at hl hlast
    exact hk'.insert (by omega) (piece_of_wellFormed hwf hne) hlast
      (((noted_same t m).2.1 _ _).2 hsafe) hl

/-- A safe message keeps the receiver delivering `D`. -/
theorem Delivers.receive (h : Delivers isn D t out) (hD : D.length < 2 ^ 63)
    (hw : 0 < m.sequenceLength → m.WellFormed isn D a) (hp : PayloadSafe t a m)
    (hf : FinSafe t a m) (hl : (t.receive m).Leaves t') :
    Delivers isn D t' out ∧ (t'.reassembler.seenLast = true →
      t.reassembler.seenLast = true ∨ m.FIN = true) := by
  have hisn : t'.seenSyn = true → t'.isn = isn := receive_isn (fun hs => (hw (by
    rw [TCPSenderMessage.sequenceLength, hs, Bool.toNat_true]; omega)).seqno_of_syn hs) h.isn hl
  rcases receive_cases hl with ⟨hs, hseen, rfl⟩ | ⟨hproc, hr⟩
  · split
    · refine ⟨⟨h.stream.setError, h.isn, fun ho => ?_, h.closed⟩, .inl⟩
      obtain ⟨A, hA⟩ := h.opened ho
      exact ⟨A, hA.setError⟩
    · exact ⟨h, .inl⟩
  obtain ⟨r', hins, heq⟩ := hr.leaves
  have hk := kept_noted t m
  have hends := ends_insert hins
  have hseen : t'.reassembler.seenLast = true →
      t.reassembler.seenLast = true ∨ m.FIN = true := by
    rw [heq]
    exact fun hs => (hends.seenLast hs).imp_left fun hs => hk.seenLast ▸ hs
  refine ⟨?_, hseen⟩
  have hstream := (receive_stream hl).1 h.stream
  cases hc : t.inbound.isClosed with
  | false =>
    obtain ⟨A, hA⟩ := h.opened hc
    obtain ⟨A', hA'⟩ := knows_insert hA hD h.isn hw hproc hc hp hf hins
    exact delivers_of_knows hstream hisn (heq ▸ hA')
  | true =>
    -- nothing moves a closed stream
    obtain ⟨hs, hq, hP⟩ := h.closed hc
    have hc' : (t.noted m).reassembler.output.isClosed = true := (noted_pushed t m).2.2.trans hc
    have hcl := hends.of_closed hc'
    have hqueued : r'.output.queued = t.inbound.queued :=
      (hends.queued_of_closed hc').trans (hk.pushed hc).2
    have hend : t.reassembler.EndsAt D.length := ⟨fun ho => absurd (hc.symm.trans ho) (by simp),
      fun _ => ⟨hs, hP⟩⟩
    have hend' := (hend.kept hk).insert hends fun ho => absurd (hc'.symm.trans ho) (by simp)
    refine ⟨hstream, hisn, fun ho => ?_, fun _ => ?_⟩
    · rw [inbound, heq, hcl.1] at ho; cases ho
    · rw [inbound, heq, hqueued]
      exact ⟨(hend'.closed hcl.1).1, hq, (hend'.closed hcl.1).2⟩

theorem Delivers.pop {o : ByteStream} (h : Delivers isn D t out) (hp : Popped t.inbound len o) :
    Delivers isn D { t with reassembler := { t.reassembler with output := o } }
      (out ++ t.inbound.queued.take len) := by
  refine ⟨hp.wf, h.isn, fun ho => ?_, fun hc => ?_⟩
  · obtain ⟨A, hA⟩ := h.opened (hp.isClosed.symm.trans ho)
    exact ⟨A, hA.pop hp⟩
  · obtain ⟨hs, hq, hP⟩ := h.closed (hp.isClosed.symm.trans hc)
    refine ⟨hs, ?_, hp.totalPushed.trans hP⟩
    show _ ++ o.queued = D
    rw [hp.queued, List.append_assoc, List.take_append_drop, hq]

/-- The stream may go on as long as its end has not been seen. -/
theorem Delivers.append (h : Delivers isn D t out) (hs : t.reassembler.seenLast = false)
    (xs : Bytes) : Delivers isn (D ++ xs) t out := by
  refine ⟨h.stream, h.isn, fun ho => ?_, fun hc => absurd (h.closed hc).1 (by simp [hs])⟩
  obtain ⟨A, hA⟩ := h.opened ho
  exact ⟨A, hA.append hs xs⟩

end Minnow.TCPReceiver
