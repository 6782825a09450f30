import Minnow.ReassemblerClose
import Minnow.ReassemblerPrefix
import Minnow.TCPReceiver

/-!
# One message at the receiver

`receive_cases` cuts a call of `receive` into the message being noted, the insert and the
accounting; `insertIndex_of_payload` and `insertIndex_of_empty` say where the insert goes.
-/

namespace Minnow
open Prog

namespace TCPReceiver
open Reassembler ByteStream

/-- Near enough for 32 bits to tell which absolute sequence number is meant. -/
def Near (a pushed : Nat) : Prop := a < pushed + 2 ^ 31 ∧ pushed < a + 2 ^ 31

instance (a pushed : Nat) : Decidable (Near a pushed) := inferInstanceAs (Decidable (_ ∧ _))

/-- The receiver once it has noted the error, the flags and the counters. -/
def noted (t : TCPReceiver) (m : TCPSenderMessage) : TCPReceiver :=
  (if m.RST then t.setError else t).note m

variable {t t' : TCPReceiver} {m : TCPSenderMessage} {r' : Reassembler} {isn : Wrap32} {D : Bytes}
  {a : Nat} {A : Assembly Byte}

theorem noted_reassembler (t : TCPReceiver) (m : TCPSenderMessage) :
    (t.noted m).reassembler =
      if m.RST then { t.reassembler with output := t.inbound.setError } else t.reassembler := by
  unfold noted note setError
  cases m.RST <;> cases m.SYN <;> cases m.FIN <;> rfl

theorem noted_flags (t : TCPReceiver) (m : TCPSenderMessage) :
    (t.noted m).isn = (if m.SYN then m.seqno else t.isn) ∧
    (t.noted m).curSeq = (if m.SYN then m.seqno else t.curSeq) ∧
    (t.noted m).seenSyn = (m.SYN || t.seenSyn) ∧ (t.noted m).seenFin = (m.FIN || t.seenFin) ∧
    (t.noted m).synAccounted = t.synAccounted ∧ (t.noted m).finAccounted = t.finAccounted := by
  unfold noted note setError
  cases m.RST <;> cases m.SYN <;> cases m.FIN <;> simp

theorem noted_pushed (t : TCPReceiver) (m : TCPSenderMessage) :
    (t.noted m).inbound.totalPushed = t.inbound.totalPushed ∧
    (t.noted m).prevBytesPushed = t.inbound.totalPushed ∧
    (t.noted m).inbound.isClosed = t.inbound.isClosed := by
  unfold noted note setError
  cases m.RST <;> cases m.SYN <;> cases m.FIN <;> exact ⟨rfl, rfl, rfl⟩

theorem kept_noted (t : TCPReceiver) (m : TCPSenderMessage) :
    Kept t.reassembler (t.noted m).reassembler := by
  rw [noted_reassembler]
  split
  · exact ⟨rfl, rfl, rfl, fun _ => ⟨rfl, rfl⟩, Nat.le_refl _, Wf.setError, rfl⟩
  · exact .refl _

theorem tracks_noted (h : t.reassembler.Tracks A) : (t.noted m).reassembler.Tracks A := by
  rw [noted_reassembler]
  split
  · exact h.setError
  · exact h

theorem noted_same (t : TCPReceiver) (m : TCPSenderMessage) :
    (∀ i data, (t.noted m).reassembler.accepted i data = t.reassembler.accepted i data) ∧
    (∀ i data, (t.noted m).reassembler.Safe i data ↔ t.reassembler.Safe i data) ∧
    (t.noted m).inbound.getCapacity = t.inbound.getCapacity := by
  rw [inbound, noted_reassembler]
  split
  · exact ⟨fun _ _ => rfl, fun _ _ => Iff.rfl, rfl⟩
  · exact ⟨fun _ _ => rfl, fun _ _ => Iff.rfl, rfl⟩

/-- However the insert of a noted message ends while the stream is open, short of undefined
behaviour. -/
theorem noted_insert_spec {i : Nat} {data : Bytes} {isLast : Bool} (hA : t.reassembler.Tracks A)
    (hsafe : t.reassembler.Safe i data) (hlen : data.length ≤ 2 ^ 64)
    (hP : t.inbound.totalPushed < 2 ^ 64) (ho : t.inbound.isClosed = false)
    (hl : ((t.noted m).reassembler.insert i data isLast).Leaves r') :
    ((t.noted m).reassembler.insert i data isLast = .ok r' ∧
      ∃ A' xs, Inserted (t.noted m).reassembler A i data isLast r' A' xs) ∨
    (Skipped (t.noted m).reassembler r' ∧ r'.Tracks A ∧ (t.inbound.totalPushed < i ∨
      (t.inbound.getCapacity < 0 ∧
        (t.noted m).reassembler.insert i data isLast = .throws .lengthError r'))) := by
  obtain ⟨-, hsafeSame, hcap⟩ := noted_same t m
  obtain ⟨hP', -, hcl⟩ := noted_pushed t m
  have hA' := tracks_noted (m := m) hA
  have hcur : (t.noted m).reassembler.curIndex = t.inbound.totalPushed := hA'.sync.trans hP'
  have h := hA'.insert_spec ((hsafeSame _ _).2 hsafe) hlen (hcur ▸ hP) (.inl (hcl.trans ho)) hl
  rw [inbound] at hcap
  rwa [hcur, hcap] at h

/-- What comes of a message that is not ignored. -/
inductive Received (t : TCPReceiver) (m : TCPSenderMessage) : TCPReceiver → Prop
  | ahead {r' : Reassembler} (ha : (t.noted m).isAhead m = true)
      (hl : ((t.noted m).reassembler.insert ((t.noted m).insertIndex m) m.payload m.FIN).Leaves r') :
      Received t m { t.noted m with reassembler := r' }
  | thrown {r' : Reassembler} {e : Exn}
      (hl : (t.noted m).reassembler.insert ((t.noted m).insertIndex m) m.payload m.FIN =
        .throws e r') :
      Received t m { t.noted m with reassembler := r' }
  | accounted {r' : Reassembler} (ha : (t.noted m).isAhead m = false)
      (hl : (t.noted m).reassembler.insert ((t.noted m).insertIndex m) m.payload m.FIN = .ok r') :
      Received t m (account { t.noted m with reassembler := r' })

theorem Received.leaves (h : Received t m t') :
    ∃ r', ((t.noted m).reassembler.insert ((t.noted m).insertIndex m) m.payload m.FIN).Leaves r' ∧
      t'.reassembler = r' := by
  cases h with
  | ahead _ hl => exact ⟨_, hl, rfl⟩
  | thrown hl => exact ⟨_, .inr ⟨_, hl⟩, rfl⟩
  | accounted _ hl =>
    refine ⟨_, .inl hl, ?_⟩
    unfold account
    dsimp only
    split <;> split <;> rfl

theorem receive_cases (h : (t.receive m).Leaves t') :
    (m.SYN = false ∧ t.seenSyn = false ∧ t' = if m.RST then t.setError else t) ∨
    ((m.SYN = true ∨ t.seenSyn = true) ∧ Received t m t') := by
  unfold receive at h
  dsimp only at h
  have hseen : (if m.RST = true then t.setError else t).seenSyn = t.seenSyn := by split <;> rfl
  rw [hseen] at h
  split at h
  next hign =>
    simp only [Bool.and_eq_true, Bool.not_eq_true'] at hign
    exact .inl ⟨hign.1, hign.2, Outcome.leaves_ok.1 h⟩
  next hign =>
    have hor : m.SYN = true ∨ t.seenSyn = true := by
      cases hm : m.SYN <;> simp_all
    refine .inr ⟨hor, ?_⟩
    change (if (t.noted m).isAhead m = true then _ else _ : Outcome TCPReceiver).Leaves t' at h
    split at h
    next ha =>
      obtain ⟨r', hl, rfl⟩ := Outcome.leaves_map.1 h
      exact .ahead ha hl
    next ha =>
      rcases Outcome.leaves_bind.1 h with ⟨t₁, h₁, h₂⟩ | ⟨e, h₁⟩
      · obtain rfl := Outcome.leaves_ok.1 h₂
        obtain ⟨r', hr, rfl⟩ := Outcome.map_eq_ok.1 h₁
        exact .accounted (by simpa using ha) hr
      · obtain ⟨r', hr, rfl⟩ := Outcome.map_eq_throws.1 h₁
        exact .thrown hr

/-- A message is received if its insert goes through. -/
theorem receive_of_insert
    (h : (t.noted m).reassembler.insert ((t.noted m).insertIndex m) m.payload m.FIN = .ok r') :
    ∃ t', t.receive m = .ok t' := by
  unfold receive
  dsimp only
  by_cases hign : (!m.SYN && !(if m.RST = true then t.setError else t).seenSyn) = true
  · rw [if_pos hign]
    exact ⟨_, rfl⟩
  · rw [if_neg hign, ← noted, h]
    split <;> exact ⟨_, rfl⟩

/-- An error stays, and only a RST makes one. -/
theorem receive_hasError_eq (h : (t.receive m).Leaves t') :
    t'.inbound.hasError = (t.inbound.hasError || m.RST) := by
  have hset : (if m.RST = true then t.setError else t).inbound.hasError =
      (t.inbound.hasError || m.RST) := by
    cases m.RST
    · exact (Bool.or_false _).symm
    · exact (Bool.or_true _).symm
  have hnoted : (t.noted m).inbound.hasError = (t.inbound.hasError || m.RST) := by
    rw [← hset, inbound, noted_reassembler]
    cases m.RST <;> rfl
  rcases receive_cases h with ⟨-, -, rfl⟩ | ⟨-, hr⟩
  · exact hset
  · obtain ⟨r', hl, heq⟩ := hr.leaves
    rw [inbound, heq]
    exact (ends_insert hl).error.trans hnoted

theorem receive_hasError (h : (t.receive m).Leaves t')
    (he : t.inbound.hasError = true ∨ m.RST = true) : t'.inbound.hasError = true := by
  rw [receive_hasError_eq h, Bool.or_eq_true]
  exact he

/-! ### Where the insert goes -/

/-- A SYN is never ahead: it sets `cur_seq` to its own sequence number. -/
theorem isAhead_of_syn (hs : m.SYN = true) : (t.noted m).isAhead m = false := by
  obtain ⟨hisn, hcur, -⟩ := noted_flags t m
  rw [isAhead, messageSeqnoUnwrapped, curSeqUnwrapped, hisn, hcur, hs]
  simp

theorem isAhead_of_empty (he : m.payload = []) : (t.noted m).isAhead m = false := by
  rw [isAhead, he]
  simp

theorem insertIndex_of_syn (hs : m.SYN = true) (hnear : Near 0 t.inbound.totalPushed) :
    (t.noted m).insertIndex m = 0 := by
  obtain ⟨hisn, hcur, hseen, -⟩ := noted_flags t m
  rw [hs] at hisn hcur hseen
  have hu : m.seqno.unwrap m.seqno (t.noted m).inbound.bytesPushed = 0 := by
    have := Wrap32.unwrap_wrap (z := m.seqno) (n := 0) (c := t.inbound.totalPushed)
      (by have := hnear.2; omega) hnear.2 hnear.1
    rw [Wrap32.wrap, Wrap32.add_zero] at this
    rwa [bytesPushed, (noted_pushed t m).1]
  unfold insertIndex curSeqUnwrapped messageSeqnoUnwrapped
  simp only [hisn, hcur, if_true, hu, Nat.lt_irrefl, if_false, ne_eq, not_true_eq_false]
  split <;> rfl

/-- A payload goes to its own place, unless an unfortunate `cur_seq` hides that it starts there. -/
theorem insertIndex_of_payload (hw : m.WellFormed isn D a) (hs : m.SYN = false)
    (hseen : t.seenSyn = true) (hisn : t.isn = isn) (hne : m.payload ≠ [])
    (hD : D.length < 2 ^ 63) (hnear : Near a t.inbound.totalPushed)
    (hcur : ¬ (m.seqno = t.isn ∧ t.curSeq = t.isn)) :
    (t.noted m).insertIndex m = m.index a := by
  obtain ⟨hisn', hcur', hseen', -⟩ := noted_flags t m
  rw [hs] at hisn' hcur' hseen'
  have ha : 0 < a := (hw.start (.inl hne)).resolve_left (by simp [hs])
  have hidx : m.index a = a - 1 := by rw [TCPSenderMessage.index, hs]; rfl
  have hlt : a - 1 < D.length := by
    have hb := hw.bytes.length_le
    have := List.length_pos_iff.2 hne
    rw [hidx, List.length_drop] at hb
    omega
  have hu : (t.noted m).messageSeqnoUnwrapped m = a := by
    unfold messageSeqnoUnwrapped
    rw [hisn', bytesPushed, (noted_pushed t m).1, hw.seqno]
    simp only [Bool.false_eq_true, if_false, hisn]
    exact Wrap32.unwrap_wrap (by have := hnear.2; omega) hnear.2 hnear.1
  have hsub : sub64 a 1 = a - 1 := sub64_of_le ha (by omega)
  unfold insertIndex
  rw [hu, hidx, hseen', hseen]
  simp only [Bool.false_or, Bool.true_and, Bool.not_eq_true', List.isEmpty_eq_false_iff, ne_eq, hne,
    not_false_eq_true, if_true, hsub]
  split
  · rfl
  split
  · rfl
  next h1 h2 =>
    have heq : (t.noted m).curSeqUnwrapped = a := by omega
    rw [heq, hsub, if_neg]
    -- `cur_seq` and the message are at the same sequence number
    intro hcs
    have hw' := Wrap32.wrap_unwrap (t.noted m).curSeq (t.noted m).isn
      (t.noted m).inbound.bytesPushed
    change Wrap32.wrap (t.noted m).curSeqUnwrapped _ = _ at hw'
    rw [heq, hcs] at hw'
    simp only [hisn', hcur', Bool.false_eq_true, if_false] at hw' hcs
    exact hcur ⟨by rw [hw.seqno, ← hisn]; exact hw', hcs⟩

theorem insertIndex_of_empty (hs : m.SYN = false) (he : m.payload = []) :
    (t.noted m).insertIndex m =
      if t.curSeq = t.isn then t.curSeq.unwrap t.isn t.inbound.totalPushed
      else sub64 (t.curSeq.unwrap t.isn t.inbound.totalPushed) 1 := by
  obtain ⟨hisn', hcur', -⟩ := noted_flags t m
  rw [hs] at hisn' hcur'
  simp only [Bool.false_eq_true, if_false] at hisn' hcur'
  unfold insertIndex curSeqUnwrapped
  rw [he, hisn', hcur', bytesPushed, (noted_pushed t m).1]
  simp only [List.isEmpty_nil, Bool.not_true, Bool.and_false, Bool.false_eq_true, if_false, ne_eq]
  split <;> simp_all

end TCPReceiver

end Minnow
