import Minnow.ReceiverClose

/-!
# What the receiver acknowledges

`cur_seq` is kept by additions. `AckSafe` says when they add up: there is one SYN, and the message at
which a FIN is counted (the first one not ahead of sequence once a FIN has been seen) also closes the
stream. The acknowledgment number is then that of the next byte, one more once the stream is closed
(`ackno_of_ackSafe`). A second SYN sets it back to the initial number for good (`ackno_fails`).
-/

namespace Minnow.TCPReceiver
open Prog Reassembler ByteStream

/-- The stream index that the sequence number stands for. -/
def place (t : TCPReceiver) (m : TCPSenderMessage) : Nat :=
  if m.SYN then 0 else m.seqno.unwrap t.isn t.inbound.bytesPushed - 1

/-- The substring and what is stored fill the stream up to `total`, and no further. -/
def Completes (r : Reassembler) (firstIndex : Nat) (data : Bytes) (total : Nat) : Prop :=
  r.output.bytesPushed ≤ total ∧
  (∀ k < total, r.output.bytesPushed ≤ k →
    (r.accepted firstIndex data k).isSome = true ∨ (r.held k).isSome = true) ∧
  ¬ ((r.accepted firstIndex data total).isSome = true ∨ (r.held total).isSome = true)

instance (r : Reassembler) (firstIndex : Nat) (data : Bytes) (total : Nat) :
    Decidable (Completes r firstIndex data total) :=
  inferInstanceAs (Decidable (_ ∧ _ ∧ _))

/-- A FIN that this message makes the receiver count also ends the stream with it. -/
def FinCounts (t : TCPReceiver) (m : TCPSenderMessage) : Prop :=
  m.FIN = true ∨ t.seenFin = true →
    if m.payload = [] then m.FIN = true ∧ (m.SYN = true ∨ t.curSeq ≠ t.isn)
    else (m.FIN = true ∨ t.reassembler.seenLast = true) ∧
      Completes t.reassembler (t.place m) m.payload
        (if m.FIN then t.place m + m.payload.length else t.reassembler.totalLen)

instance (t : TCPReceiver) (m : TCPSenderMessage) : Decidable (FinCounts t m) :=
  inferInstanceAs (Decidable (_ → ite _ _ _))

def AckSafe (t : TCPReceiver) (m : TCPSenderMessage) : Prop :=
  (m.SYN = true → t.seenSyn = false ∧ 0 ≤ t.inbound.getCapacity) ∧
  (m.SYN = true ∨ t.seenSyn = true → t.inbound.isClosed = false →
    (m.payload ≠ [] → t.reassembler.Safe (t.place m) m.payload) ∧
    (m.payload = [] ∨ t.place m ≤ t.inbound.bytesPushed → FinCounts t m))

instance (t : TCPReceiver) (m : TCPSenderMessage) : Decidable (AckSafe t m) :=
  inferInstanceAs (Decidable ((_ → _) ∧ (_ → _ → _)))

variable {t t' : TCPReceiver} {m : TCPSenderMessage} {isn : Wrap32} {D out : Bytes} {a len : Nat}
  {msgs : List TCPSenderMessage} {capacity : Nat} {A : Assembly Byte} {r' : Reassembler}

/-! ### What `account` adds -/

theorem account_fields (t : TCPReceiver) :
    t.account.reassembler = t.reassembler ∧ t.account.isn = t.isn ∧
    t.account.seenSyn = t.seenSyn ∧ t.account.seenFin = t.seenFin ∧
    t.account.synAccounted = (t.synAccounted || t.seenSyn) ∧
    t.account.finAccounted = (t.finAccounted || t.seenFin) ∧
    t.account.curSeq = t.curSeq + (sub64 t.inbound.bytesPushed t.prevBytesPushed +
      (t.seenSyn && !t.synAccounted).toNat + (t.seenFin && !t.finAccounted).toNat) := by
  unfold account
  dsimp only
  cases t.seenSyn <;> cases t.synAccounted <;> cases t.seenFin <;> cases t.finAccounted <;>
    simp [Wrap32.add_add]

/-! ### The invariant -/

structure AckInv (isn : Wrap32) (t : TCPReceiver) (msgs : List TCPSenderMessage) : Prop where
  tracks : t.inbound.isClosed = false → ∃ A, t.reassembler.Tracks A
  unfinished : t.inbound.isClosed = false → t.reassembler.seenLast = true →
    t.inbound.totalPushed ≠ t.reassembler.totalLen
  last : t.reassembler.seenLast = true → t.seenFin = true
  syn : t.seenSyn = true ↔ ∃ m ∈ msgs, m.SYN = true
  fresh : t.seenSyn = false → t.inbound.isClosed = false ∧ t.inbound.totalPushed = 0 ∧
    t.seenFin = false ∧ t.finAccounted = false ∧ t.synAccounted = false
  seen : t.seenSyn = true → t.isn = isn ∧ t.synAccounted = true ∧
    t.finAccounted = t.inbound.isClosed ∧ 0 ≤ t.inbound.getCapacity ∧
    t.curSeq = .wrap (1 + t.inbound.totalPushed + t.inbound.isClosed.toNat) isn

/-- What is known of a message that is processed while the stream is open: the absolute sequence
number that `cur_seq` stands for, and where the message is inserted. -/
theorem AckInv.curSeqUnwrapped (h : AckInv isn t msgs) (hseen : t.seenSyn = true)
    (ho : t.inbound.isClosed = false) (hP : t.inbound.totalPushed < 2 ^ 63) :
    t.curSeq.unwrap t.isn t.inbound.totalPushed = 1 + t.inbound.totalPushed := by
  obtain ⟨hi, -, -, -, hcur⟩ := h.seen hseen
  rw [hi, hcur, ho]
  exact Wrap32.unwrap_wrap (by omega) (by simp; omega) (by simp; omega)

theorem place_of_syn (hs : m.SYN = true) : t.place m = 0 := if_pos hs

/-- A payload is inserted where its sequence number says, and is ahead if that is ahead of the bytes
pushed. -/
theorem AckInv.insertIndex_payload (h : AckInv isn t msgs) (hseen : t.seenSyn = true)
    (hsyn : m.SYN = true ↔ m.seqno = isn) (hs : m.SYN = false) (hne : m.payload ≠ [])
    (ho : t.inbound.isClosed = false) (hP : t.inbound.totalPushed < 2 ^ 63) :
    (t.noted m).insertIndex m = t.place m ∧ t.place m ≤ t.inbound.totalPushed + 2 ^ 32 ∧
      (t.noted m).isAhead m = decide (t.inbound.totalPushed < t.place m) := by
  obtain ⟨hi, -, -, -, -⟩ := h.seen hseen
  obtain ⟨hisn', hcur', hseen', -⟩ := noted_flags t m
  rw [hs] at hisn' hcur' hseen'
  simp only [Bool.false_eq_true, if_false, Bool.false_or] at hisn' hcur' hseen'
  have hc := h.curSeqUnwrapped hseen ho hP
  have hle := Wrap32.unwrap_le (w := m.seqno) (z := t.isn) (c := t.inbound.totalPushed) (by omega)
  have hwrap := Wrap32.wrap_unwrap m.seqno t.isn t.inbound.totalPushed
  have hwrapc := Wrap32.wrap_unwrap t.curSeq t.isn t.inbound.totalPushed
  have hplace : t.place m = m.seqno.unwrap t.isn t.inbound.totalPushed - 1 := by
    rw [place, if_neg (by simp [hs]), bytesPushed]
  -- only a SYN has the initial sequence number
  have hu : 0 < m.seqno.unwrap t.isn t.inbound.totalPushed := by
    refine Nat.pos_of_ne_zero fun h0 => ?_
    rw [h0, Wrap32.wrap, Wrap32.add_zero, hi] at hwrap
    exact absurd (hsyn.2 hwrap.symm) (by simp [hs])
  have hsub := sub64_one hu (by omega)
  have hmu : (t.noted m).messageSeqnoUnwrapped m = m.seqno.unwrap t.isn t.inbound.totalPushed := by
    rw [messageSeqnoUnwrapped, hisn', bytesPushed, (noted_pushed t m).1]
  have hcu : (t.noted m).curSeqUnwrapped = 1 + t.inbound.totalPushed := by
    rw [TCPReceiver.curSeqUnwrapped, hisn', hcur', bytesPushed, (noted_pushed t m).1, hc]
  have hemp : (!m.payload.isEmpty) = true := by simpa using hne
  refine ⟨?_, by omega, ?_⟩
  · rw [insertIndex, hmu, hcu, hsub, hplace, hseen', hseen, hemp, Bool.and_self, if_pos rfl]
    split
    · rfl
    split
    · rfl
    next h1 h2 =>
      have heq : m.seqno.unwrap t.isn t.inbound.totalPushed = 1 + t.inbound.totalPushed := by omega
      rw [if_neg, ← heq, hsub]
      rw [hcur', hisn', ← hwrapc, hc, ← heq, hwrap]
      intro hz
      exact absurd (hsyn.2 (hz.trans hi)) (by simp [hs])
  · rw [isAhead, hmu, hcu, hseen', hseen, hemp, hplace]
    simp only [Bool.true_and, decide_eq_decide]
    omega

theorem AckInv.insertIndex_empty (h : AckInv isn t msgs) (hseen : t.seenSyn = true)
    (hs : m.SYN = false) (he : m.payload = []) (ho : t.inbound.isClosed = false)
    (hP : t.inbound.totalPushed < 2 ^ 63) :
    (t.noted m).insertIndex m =
      (if t.curSeq = t.isn then 1 + t.inbound.totalPushed else t.inbound.totalPushed) ∧
    (t.noted m).isAhead m = false := by
  refine ⟨?_, isAhead_of_empty he⟩
  rw [insertIndex_of_empty hs he, h.curSeqUnwrapped hseen ho hP,
    sub64_one (by omega) (by omega), Nat.add_sub_cancel_left]

/-- Nothing stands in the way of an empty payload at the next byte. -/
theorem completes_nil {r : Reassembler} (h : r.Tracks A) :
    Completes r r.output.bytesPushed [] r.output.bytesPushed := by
  have hheld := h.held r.output.bytesPushed
  rw [A.ahead _ (by rw [h.length, bytesPushed])] at hheld
  refine ⟨Nat.le_refl _, fun k h1 h2 => absurd h1 (Nat.not_lt.2 h2), ?_⟩
  rw [← hheld, accepted]
  split <;> simp

theorem completes_noted {i n : Nat} {data : Bytes} :
    Completes (t.noted m).reassembler i data n ↔ Completes t.reassembler i data n := by
  rw [noted_reassembler]
  split <;> exact Iff.rfl

/-- A call that completes the stream pushes all of it. -/
theorem Completes.pushed {r : Reassembler} {A' : Assembly Byte} {i n : Nat} {data xs : Bytes}
    {isLast : Bool} (hc : Completes r i data n) (hA : r.Tracks A)
    (hins : Inserted r A i data isLast r' A' xs) : r'.output.totalPushed = n := by
  have hlen := hA.length
  rw [← hins.tracks.length]
  refine hins.absorbs.length_eq (hlen.trans_le hc.1) (fun k h1 h2 => ?_) ?_
  · rw [hA.held]; exact hc.2.1 k h1 (hlen.symm.trans_le h2)
  · rw [hA.held]; exact hc.2.2

/-- Where a processed message is inserted while the stream is open, and what follows if the message
makes a FIN count. -/
structure Indexed (t : TCPReceiver) (m : TCPSenderMessage) : Prop where
  safe : t.reassembler.Safe ((t.noted m).insertIndex m) m.payload
  start : m.SYN = true → (t.noted m).insertIndex m = 0
  ahead : (t.noted m).isAhead m = true → t.inbound.totalPushed < (t.noted m).insertIndex m ∧
    (t.noted m).insertIndex m ≤ t.inbound.totalPushed + 2 ^ 32
  ends : (t.noted m).isAhead m = false → m.FIN = true ∨ t.seenFin = true →
    (t.noted m).insertIndex m ≤ t.inbound.totalPushed ∧
    (m.FIN = true ∨ t.reassembler.seenLast = true) ∧
    Completes t.reassembler ((t.noted m).insertIndex m) m.payload
      (if m.FIN then (t.noted m).insertIndex m + m.payload.length else t.reassembler.totalLen)

theorem AckInv.index_syn (h : AckInv isn t msgs) (hsafe : AckSafe t m) (hs : m.SYN = true)
    (ho : t.inbound.isClosed = false) : Indexed t m := by
  obtain ⟨A, hA⟩ := h.tracks ho
  have hsafe' := hsafe.2 (.inl hs) ho
  have hP0 := (h.fresh (hsafe.1 hs).1).2.1
  have hidx := insertIndex_of_syn (t := t) hs ⟨by omega, by omega⟩
  have hplace := place_of_syn (t := t) hs
  have hahead := isAhead_of_syn (t := t) hs
  have hnot : (t.noted m).isAhead m ≠ true := by simp [hahead]
  by_cases he : m.payload = []
  · refine ⟨?_, fun _ => hidx, fun hx => absurd hx hnot, fun _ hfin => ?_⟩ <;> rw [hidx, he]
    · exact hA.safe_nil 0
    · have hf := hsafe'.2 (.inl he) hfin
      rw [if_pos he] at hf
      have hc := completes_nil hA
      rw [bytesPushed, show t.reassembler.output.totalPushed = 0 from hP0] at hc
      rw [if_pos hf.1]
      exact ⟨Nat.zero_le _, .inl hf.1, hc⟩
  · refine ⟨?_, fun _ => hidx, fun hx => absurd hx hnot, fun _ hfin => ?_⟩ <;> rw [hidx]
    · exact hplace ▸ hsafe'.1 he
    · have hf := hsafe'.2 (.inr (by rw [hplace]; exact Nat.zero_le _)) hfin
      rw [if_neg he, hplace] at hf
      exact ⟨Nat.zero_le _, hf⟩

theorem AckInv.index_seen (h : AckInv isn t msgs) (hsyn : m.SYN = true ↔ m.seqno = isn)
    (hsafe : AckSafe t m) (hs : m.SYN = false) (hseen : t.seenSyn = true)
    (ho : t.inbound.isClosed = false) (hP : t.inbound.totalPushed < 2 ^ 63) : Indexed t m := by
  obtain ⟨A, hA⟩ := h.tracks ho
  have hsafe' := hsafe.2 (.inr hseen) ho
  have hstart : m.SYN = true → (t.noted m).insertIndex m = 0 := fun hx => by rw [hs] at hx; cases hx
  by_cases he : m.payload = []
  · obtain ⟨hidx, hahead⟩ := h.insertIndex_empty hseen hs he ho hP
    have hnot : (t.noted m).isAhead m ≠ true := by simp [hahead]
    refine ⟨?_, hstart, fun hx => absurd hx hnot, fun _ hfin => ?_⟩ <;> rw [hidx, he]
    · exact hA.safe_nil _
    · have hf := hsafe'.2 (.inl he) hfin
      rw [if_pos he] at hf
      rw [if_neg (hf.2.resolve_left (by simp [hs])), if_pos hf.1]
      exact ⟨Nat.le_refl _, .inl hf.1, completes_nil hA⟩
  · obtain ⟨hidx, hle, hahead⟩ := h.insertIndex_payload hseen hsyn hs he ho hP
    refine ⟨?_, hstart, fun hx => ?_, fun hx hfin => ?_⟩ <;> rw [hidx]
    · exact hsafe'.1 he
    · rw [hahead, decide_eq_true_eq] at hx
      exact ⟨hx, hle⟩
    · rw [hahead, decide_eq_false_iff_not, Nat.not_lt] at hx
      have hf := hsafe'.2 (.inr hx) hfin
      rw [if_neg he] at hf
      exact ⟨hx, hf⟩

theorem AckInv.index (h : AckInv isn t msgs) (hsyn : m.SYN = true ↔ m.seqno = isn)
    (hsafe : AckSafe t m) (hproc : m.SYN = true ∨ t.seenSyn = true)
    (ho : t.inbound.isClosed = false) (hP : t.inbound.totalPushed < 2 ^ 63) : Indexed t m := by
  cases hs : m.SYN with
  | true => exact h.index_syn hsafe hs ho
  | false => exact h.index_seen hsyn hsafe hs (hproc.resolve_left (by simp [hs])) ho hP

/-- What the counters are when a message is noted: `cur_seq` still lacks the one for the SYN if it
has not been accounted for. -/
theorem AckInv.noted (h : AckInv isn t msgs) (hsyn : m.SYN = true → m.seqno = isn)
    (hsafe : AckSafe t m) (hproc : m.SYN = true ∨ t.seenSyn = true) :
    (t.noted m).seenSyn = true ∧ (t.noted m).isn = isn ∧
    (t.noted m).finAccounted = t.inbound.isClosed ∧ 0 ≤ t.inbound.getCapacity ∧
    (m.SYN = false → (t.noted m).synAccounted = true) ∧
    ∃ n, (t.noted m).curSeq = .wrap n isn ∧
      n + (!(t.noted m).synAccounted).toNat =
        1 + t.inbound.totalPushed + t.inbound.isClosed.toNat := by
  obtain ⟨hisn', hcur', hseen', -, hsa, hfa⟩ := noted_flags t m
  rw [hisn', hcur', hseen', hsa, hfa]
  cases hs : m.SYN with
  | true =>
    have hss := hsafe.1 hs
    obtain ⟨hc, hP, -, hfa', hsa'⟩ := h.fresh hss.1
    refine ⟨rfl, hsyn hs, hfa'.trans hc.symm, hss.2, fun h => (by cases h), 0, ?_, ?_⟩
    · rw [Wrap32.wrap, Wrap32.add_zero]; exact hsyn hs
    · rw [hsa', hP, hc]; rfl
  | false =>
    have hseen := hproc.resolve_left (by simp [hs])
    obtain ⟨hi, hsa', hfa', hG, hcur⟩ := h.seen hseen
    exact ⟨hseen, hi, hfa', hG, fun _ => hsa', _, hcur, by rw [hsa']; rfl⟩

/-- The part of the invariant that a processed message has to restore. -/
structure Acked (z : Wrap32) (t : TCPReceiver) : Prop where
  tracks : t.inbound.isClosed = false → ∃ A, t.reassembler.Tracks A
  unfinished : t.inbound.isClosed = false → t.reassembler.seenLast = true →
    t.inbound.totalPushed ≠ t.reassembler.totalLen
  isn : t.isn = z
  synAccounted : t.synAccounted = true
  finAccounted : t.finAccounted = t.inbound.isClosed
  capacity : 0 ≤ t.inbound.getCapacity
  curSeq : t.curSeq = .wrap (1 + t.inbound.totalPushed + t.inbound.isClosed.toNat) z

/-- What an insert leaves that pushes nothing and keeps the stream open. -/
structure Unmoved (t : TCPReceiver) (r' : Reassembler) : Prop where
  tracks : ∃ A, r'.Tracks A
  isClosed : r'.output.isClosed = false
  totalPushed : r'.output.totalPushed = t.inbound.totalPushed
  unfinished : r'.seenLast = true → r'.output.totalPushed ≠ r'.totalLen

theorem AckInv.skipped (h : AckInv isn t msgs) (ho : t.inbound.isClosed = false)
    (hskip : Skipped (t.noted m).reassembler r') (hA : r'.Tracks A) : Unmoved t r' := by
  have hk := kept_noted t m
  obtain ⟨hPn, -, hcl⟩ := noted_pushed t m
  have hP : r'.output.totalPushed = t.inbound.totalPushed := by rw [hskip.output]; exact hPn
  refine ⟨⟨A, hA⟩, by rw [hskip.output]; exact hcl.trans ho, hP, fun hs => ?_⟩
  rw [hP, hskip.totalLen, hk.totalLen]
  exact h.unfinished ho (by rw [← hk.seenLast, ← hskip.seenLast]; exact hs)

section Inserted
variable {A' : Assembly Byte} {i : Nat} {xs : Bytes}

/-- The open stream is closed by an insert exactly at the end that is noted. -/
theorem inserted_isClosed (ho : t.inbound.isClosed = false)
    (hins : Inserted (t.noted m).reassembler A i m.payload m.FIN r' A' xs) :
    r'.output.isClosed = (r'.seenLast && decide (r'.output.totalPushed = r'.totalLen)) := by
  rw [hins.isClosed]
  show ((t.noted m).inbound.isClosed || _) = _
  rw [(noted_pushed t m).2.2, ho, Bool.false_or]

/-- A message ahead of sequence. -/
theorem AckInv.ahead (h : AckInv isn t msgs) (ho : t.inbound.isClosed = false)
    (hA : t.reassembler.Tracks A) (hlt : t.inbound.totalPushed < i)
    (hi : i + m.payload.length < 2 ^ 64)
    (hins : Inserted (t.noted m).reassembler A i m.payload m.FIN r' A' xs) : Unmoved t r' := by
  have hk := kept_noted t m
  have hP : r'.output.totalPushed = t.inbound.totalPushed := by
    rw [← hins.tracks.length, hins.absorbs.out_eq, hA.length]
    · rfl
    · rw [hA.length]
      exact if_neg (by have : t.reassembler.output.totalPushed < i := hlt; omega)
  have hun : r'.seenLast = true → r'.output.totalPushed ≠ r'.totalLen := by
    intro hs
    rw [hP, hins.totalLen, endAfter, hk.totalLen]
    split
    next hF => rw [add64_of_lt hi]; omega
    next hF =>
      refine h.unfinished ho ?_
      rw [hins.seenLast, hk.seenLast] at hs
      simpa [hF] using hs
  refine ⟨⟨A', hins.tracks⟩, ?_, hP, hun⟩
  rw [inserted_isClosed ho hins, Bool.and_eq_false_iff]
  cases hs : r'.seenLast with
  | false => exact .inl rfl
  | true => exact .inr (decide_eq_false (hun hs))

/-- A message that makes a FIN count also ends the stream with it. -/
theorem AckInv.counted (h : AckInv isn t msgs) (ho : t.inbound.isClosed = false)
    (hA : t.reassembler.Tracks A)
    (hfin : m.FIN = true ∨ t.seenFin = true → i + m.payload.length < 2 ^ 64 ∧
      (m.FIN = true ∨ t.reassembler.seenLast = true) ∧ Completes t.reassembler i m.payload
        (if m.FIN then i + m.payload.length else t.reassembler.totalLen))
    (hins : Inserted (t.noted m).reassembler A i m.payload m.FIN r' A' xs) :
    r'.output.isClosed = (t.noted m).seenFin := by
  have hk := kept_noted t m
  have hseenLast : r'.seenLast = (t.reassembler.seenLast || m.FIN) := by
    rw [hins.seenLast, hk.seenLast]
  rw [inserted_isClosed ho hins, (noted_flags t m).2.2.2.1]
  cases hf : m.FIN || t.seenFin with
  | false =>
    obtain ⟨hF, hsf⟩ := Bool.or_eq_false_iff.1 hf
    have hsl : t.reassembler.seenLast = false :=
      Bool.eq_false_iff.2 fun hx => by rw [h.last hx] at hsf; cases hsf
    rw [hseenLast, hsl, hF]; rfl
  | true =>
    obtain ⟨hi, hlast, hcomp⟩ := hfin (Bool.or_eq_true _ _ ▸ hf)
    have hend := (completes_noted.2 hcomp).pushed (tracks_noted hA) hins
    have htotal : r'.totalLen =
        if m.FIN then i + m.payload.length else t.reassembler.totalLen := by
      rw [hins.totalLen, endAfter, hk.totalLen, add64_of_lt hi]
    rw [hend, htotal, decide_eq_true rfl, Bool.and_true, hseenLast, Bool.or_eq_true]
    exact hlast.symm

end Inserted

/-- The accounting adds what has been pushed, and one for the FIN if that closed the stream. -/
theorem AckInv.account (h : AckInv isn t msgs) (hsyn : m.SYN = true → m.seqno = isn)
    (hsafe : AckSafe t m) (hproc : m.SYN = true ∨ t.seenSyn = true)
    (ho : t.inbound.isClosed = false)
    (hl : (t.noted m).reassembler.insert ((t.noted m).insertIndex m) m.payload m.FIN = .ok r')
    (hP : r'.output.totalPushed < 2 ^ 63) (hclose : r'.output.isClosed = (t.noted m).seenFin)
    (hA : r'.output.isClosed = false → ∃ A, r'.Tracks A)
    (hun : r'.output.isClosed = false → r'.seenLast = true →
      r'.output.totalPushed ≠ r'.totalLen) :
    Acked isn (account { t.noted m with reassembler := r' }) := by
  obtain ⟨hseen, hisn, hfa, hG, -, n, hcur, hn⟩ := h.noted hsyn hsafe hproc
  obtain ⟨hPn, hprev, -⟩ := noted_pushed t m
  have hends := ends_insert (.inl hl)
  have hPt : t.inbound.totalPushed ≤ r'.output.totalPushed := hPn ▸ hends.mono
  have hG' : 0 ≤ r'.output.getCapacity := by
    rw [getCapacity_congr hends.capacity]
    exact hG.trans_eq (noted_same t m).2.2.symm
  obtain ⟨hr, hi, -, -, hsa, hfa', hc⟩ := account_fields { t.noted m with reassembler := r' }
  have hinb : (TCPReceiver.account { t.noted m with reassembler := r' }).inbound = r'.output := by
    rw [inbound, hr]
  refine ⟨by rw [hinb, hr]; exact hA, by rw [hinb, hr]; exact hun, hi.trans hisn, ?_, ?_,
    by rw [hinb]; exact hG', ?_⟩
  · rw [hsa]
    show (_ || (t.noted m).seenSyn) = true
    rw [hseen, Bool.or_true]
  · rw [hfa', hinb, hclose]
    show ((t.noted m).finAccounted || (t.noted m).seenFin) = _
    rw [hfa, ho, Bool.false_or]
  · dsimp only [inbound, bytesPushed] at hc
    rw [hc, hinb, hclose, hcur, hseen, hfa, ho, hprev, sub64_of_le hPt (by omega), Wrap32.wrap,
      Wrap32.wrap, Wrap32.add_add, Bool.true_and, Bool.not_false, Bool.and_true]
    rw [ho, Bool.toNat_false] at hn
    exact congrArg (fun x : Nat => isn + x) (by omega)

/-- A call that is accounted for. Only here can the stream close. -/
theorem AckInv.accounted (h : AckInv isn t msgs) (hw : m.WellFormed isn D a)
    (hD : D.length < 2 ^ 62) (hsyn : m.SYN = true ↔ m.seqno = isn) (hsafe : AckSafe t m)
    (hproc : m.SYN = true ∨ t.seenSyn = true) (ho : t.inbound.isClosed = false)
    (ha : (t.noted m).isAhead m = false)
    (hl : (t.noted m).reassembler.insert ((t.noted m).insertIndex m) m.payload m.FIN = .ok r')
    (hP : r'.output.totalPushed < 2 ^ 63) :
    Acked isn (TCPReceiver.account { t.noted m with reassembler := r' }) := by
  have hPt : t.inbound.totalPushed ≤ r'.output.totalPushed :=
    (noted_pushed t m).1 ▸ (ends_insert (.inl hl)).mono
  have hlen := hw.length_payload_le
  have hidx := h.index hsyn hsafe hproc ho (by omega)
  have hfin := hidx.ends ha
  obtain ⟨A, hA⟩ := h.tracks ho
  rcases noted_insert_spec hA hidx.safe (by omega) (by omega) ho (.inl hl) with
    ⟨-, A', xs, hins⟩ | ⟨hskip, hT, hwhy⟩
  · have hclose := h.counted ho hA
      (fun hf => ⟨by have := (hfin hf).1; omega, (hfin hf).2⟩) hins
    refine h.account hsyn.1 hsafe hproc ho hl hP hclose (fun _ => ⟨A', hins.tracks⟩)
      fun ho' hs heq => ?_
    rw [inserted_isClosed ho hins, hs, heq] at ho'
    simp at ho'
  · -- a call that is skipped starts ahead, so no FIN counts
    have hu := h.skipped ho hskip hT
    have hlt := hwhy.resolve_right fun hx => by
      have := (h.noted hsyn.1 hsafe hproc).2.2.2.1
      omega
    refine h.account hsyn.1 hsafe hproc ho hl hP ?_ (fun _ => hu.tracks) fun _ => hu.unfinished
    rw [hu.isClosed, (noted_flags t m).2.2.2.1, eq_comm, ← Bool.not_eq_true, Bool.or_eq_true]
    intro hf
    exact absurd (hfin hf).1 (Nat.not_le.2 hlt)

/-- A call that `cur_seq` does not hear of pushes nothing and leaves the stream open. -/
theorem AckInv.unaccounted (h : AckInv isn t msgs) (hw : m.WellFormed isn D a)
    (hD : D.length < 2 ^ 62) (hsyn : m.SYN = true ↔ m.seqno = isn) (hsafe : AckSafe t m)
    (hproc : m.SYN = true ∨ t.seenSyn = true) (ho : t.inbound.isClosed = false)
    (hl : ((t.noted m).reassembler.insert ((t.noted m).insertIndex m) m.payload m.FIN).Leaves r')
    (hcase : (t.noted m).isAhead m = true ∨ ∃ e,
      (t.noted m).reassembler.insert ((t.noted m).insertIndex m) m.payload m.FIN = .throws e r')
    (hP : r'.output.totalPushed < 2 ^ 63) :
    Acked isn { t.noted m with reassembler := r' } := by
  obtain ⟨-, hisn, hfa, hG, hsa, n, hcur, hn⟩ := h.noted hsyn.1 hsafe hproc
  have hends := ends_insert hl
  have hPt : t.inbound.totalPushed ≤ r'.output.totalPushed := (noted_pushed t m).1 ▸ hends.mono
  have hlen := hw.length_payload_le
  have hidx := h.index hsyn hsafe hproc ho (by omega)
  obtain ⟨A, hA⟩ := h.tracks ho
  have hu : t.inbound.totalPushed < (t.noted m).insertIndex m ∧ Unmoved t r' := by
    rcases noted_insert_spec hA hidx.safe (by omega) (by omega) ho hl with
      ⟨hok, A', xs, hins⟩ | ⟨hskip, hT, hwhy⟩
    · have hahead : (t.noted m).isAhead m = true := by
        rcases hcase with hx | ⟨e, hx⟩
        · exact hx
        · rw [hok] at hx; cases hx
      obtain ⟨hlt, hle⟩ := hidx.ahead hahead
      exact ⟨hlt, h.ahead ho hA hlt (by omega) hins⟩
    · exact ⟨hwhy.resolve_right fun hx => by omega, h.skipped ho hskip hT⟩
  obtain ⟨hlt, hu⟩ := hu
  have hs : m.SYN = false := Bool.eq_false_iff.2 fun hs => by rw [hidx.start hs] at hlt; omega
  have hG' : 0 ≤ r'.output.getCapacity := by
    rw [getCapacity_congr hends.capacity]
    exact hG.trans_eq (noted_same t m).2.2.symm
  refine ⟨fun _ => hu.tracks, fun _ => hu.unfinished, hisn, hsa hs,
    (hfa.trans ho).trans hu.isClosed.symm, hG', ?_⟩
  rw [hsa hs, ho] at hn
  show (t.noted m).curSeq = .wrap (1 + r'.output.totalPushed + r'.output.isClosed.toNat) isn
  rw [hcur, hu.isClosed, hu.totalPushed]
  exact congrArg (Wrap32.wrap · isn) (by simpa using hn)

/-- Nothing moves a closed stream, nor the number that acknowledges its end. -/
theorem AckInv.closed (h : AckInv isn t msgs) (hsafe : AckSafe t m) (hc : t.inbound.isClosed = true)
    (hr : Received t m t') (hP : t'.inbound.totalPushed < 2 ^ 63) : Acked isn t' := by
  have hseen : t.seenSyn = true := by
    cases hs : t.seenSyn with
    | true => rfl
    | false => rw [(h.fresh hs).1] at hc; cases hc
  have hs : m.SYN = false := by
    cases hs : m.SYN with
    | false => rfl
    | true => rw [(hsafe.1 hs).1] at hseen; cases hseen
  obtain ⟨hi, hsa, hfa, hG, hcur⟩ := h.seen hseen
  obtain ⟨hisn', hcur', hseen', -, hsa', hfa'⟩ := noted_flags t m
  obtain ⟨hPn, hprev, hcl⟩ := noted_pushed t m
  obtain ⟨-, -, hcapSame⟩ := noted_same t m
  rw [hs] at hisn' hcur' hseen'
  obtain ⟨r', hl, heq⟩ := hr.leaves
  have hends := ends_insert hl
  have hrc := hends.of_closed (hcl.trans hc)
  have hrP : r'.output.totalPushed = t.inbound.totalPushed := hrc.2.trans hPn
  have hcap : r'.output.getCapacity = t.inbound.getCapacity :=
    (getCapacity_congr hends.capacity).trans hcapSame
  have hinb : t'.inbound = r'.output := by rw [inbound, heq]
  suffices hrest : t'.isn = isn ∧ t'.synAccounted = true ∧ t'.finAccounted = true ∧
      t'.curSeq = t.curSeq by
    refine ⟨fun ho => ?_, fun ho => ?_, hrest.1, hrest.2.1, ?_, ?_, ?_⟩
    · rw [hinb, hrc.1] at ho; cases ho
    · rw [hinb, hrc.1] at ho; cases ho
    · rw [hinb, hrc.1]; exact hrest.2.2.1
    · rw [hinb, hcap]; exact hG
    · rw [hrest.2.2.2, hcur, hinb, hrP, hrc.1, hc]
  cases hr with
  | ahead | thrown =>
    exact ⟨hisn'.trans hi, hsa'.trans hsa, hfa'.trans (hfa.trans hc), hcur'⟩
  | @accounted r'' ha hl' =>
    obtain ⟨hre, hi', hss, -, hsa'', hfa'', hc'⟩ :=
      account_fields { t.noted m with reassembler := r'' }
    have hrr : r'' = r' := by rw [← heq, hre]
    refine ⟨hi'.trans (hisn'.trans hi), ?_, ?_, ?_⟩
    · rw [hsa'']; show ((t.noted m).synAccounted || _) = true
      rw [hsa', hsa, Bool.true_or]
    · rw [hfa'']; show ((t.noted m).finAccounted || _) = true
      rw [hfa', hfa, hc, Bool.true_or]
    · dsimp only [inbound, bytesPushed] at hc'
      have hzero : sub64 r'.output.totalPushed (t.noted m).prevBytesPushed = 0 := by
        rw [hrP, hprev, sub64_of_le (Nat.le_refl _) (by rw [hinb, hrP] at hP; omega), Nat.sub_self]
      rw [hc', hcur', hrr, hzero, hsa', hsa, hfa', hfa, hc, Bool.not_true, Bool.and_false,
        Bool.and_false]
      simp

theorem AckInv.receive (h : AckInv isn t msgs) (hw : m.WellFormed isn D a)
    (hD : D.length < 2 ^ 62) (hsyn : m.SYN = true ↔ m.seqno = isn) (hsafe : AckSafe t m)
    (hl : (t.receive m).Leaves t') (hP : t'.inbound.totalPushed < 2 ^ 63) :
    AckInv isn t' (m :: msgs) := by
  rcases receive_cases hl with ⟨hs, hseen, rfl⟩ | ⟨hproc, hr⟩
  · obtain ⟨hc, hP0, hfin, hfa, hsa⟩ := h.fresh hseen
    have hsyn' : (∃ x ∈ m :: msgs, x.SYN = true) ↔ ∃ x ∈ msgs, x.SYN = true := by
      rw [List.exists_mem_cons_iff]; simp [hs]
    split
    · refine ⟨fun ho => ?_, h.unfinished, h.last, by rw [hsyn']; exact h.syn,
        h.fresh, h.seen⟩
      obtain ⟨A, hA⟩ := h.tracks ho
      exact ⟨A, hA.setError⟩
    · exact ⟨h.tracks, h.unfinished, h.last, by rw [hsyn']; exact h.syn, h.fresh, h.seen⟩
  · obtain ⟨r', hins, heq⟩ := hr.leaves
    obtain ⟨hi, hseen', hfin'⟩ := hr.flags
    obtain ⟨-, -, hs1, hs2, -⟩ := noted_flags t m
    have hends := ends_insert hins
    have hseen : t'.seenSyn = true := by
      rw [hseen', hs1, Bool.or_eq_true]; exact hproc
    have hack : Acked isn t' := by
      cases hc : t.inbound.isClosed with
      | true => exact h.closed hsafe hc hr hP
      | false =>
        cases hr with
        | ahead ha hl' => exact h.unaccounted hw hD hsyn hsafe hproc hc hl' (.inl ha) hP
        | thrown hl' =>
          exact h.unaccounted hw hD hsyn hsafe hproc hc (.inr ⟨_, hl'⟩) (.inr ⟨_, hl'⟩) hP
        | accounted ha hl' =>
          refine h.accounted hw hD hsyn hsafe hproc hc ha hl' ?_
          rwa [inbound, (account_fields _).1] at hP
    refine ⟨hack.tracks, hack.unfinished, fun hs => ?_, ?_, fun hs => ?_, fun _ =>
      ⟨hack.isn, hack.synAccounted, hack.finAccounted, hack.capacity, hack.curSeq⟩⟩
    · rw [hfin', hs2, Bool.or_eq_true]
      rcases hends.seenLast (heq ▸ hs) with hx | hx
      · exact .inr (h.last ((kept_noted t m).seenLast ▸ hx))
      · exact .inl hx
    · rw [List.exists_mem_cons_iff, ← h.syn, hseen]
      exact ⟨fun _ => hproc, fun _ => rfl⟩
    · rw [hseen] at hs; cases hs

theorem AckInv.pop {o : ByteStream} (h : AckInv isn t msgs) (hp : Popped t.inbound len o) :
    AckInv isn { t with reassembler := { t.reassembler with output := o } } msgs := by
  have hPo := hp.totalPushed
  have hco := hp.isClosed
  refine ⟨fun ho => ?_, fun ho hs => ?_, h.last, h.syn, fun hs => ?_, fun hs => ?_⟩
  · obtain ⟨A, hA⟩ := h.tracks (hco.symm.trans ho)
    exact ⟨A, hA.pop hp⟩
  · show o.totalPushed ≠ _
    rw [hPo]; exact h.unfinished (hco.symm.trans ho) hs
  · show o.isClosed = false ∧ o.totalPushed = 0 ∧ _
    rw [hPo, hco]; exact h.fresh hs
  · show t.isn = isn ∧ t.synAccounted = true ∧ t.finAccounted = o.isClosed ∧ 0 ≤ o.getCapacity ∧
      t.curSeq = .wrap (1 + o.totalPushed + o.isClosed.toNat) isn
    rw [hPo, hco, getCapacity_congr hp.capacity]; exact h.seen hs

theorem SegmentRun.ackInv (hcap : capacity < 2 ^ 64) (hD : D.length < 2 ^ 62)
    (h : SegmentRun capacity isn D
      (fun t _ m => (m.SYN = true ↔ m.seqno = isn) ∧ AckSafe t m) t msgs out)
    (hP : t.inbound.bytesPushed < 2 ^ 63) : AckInv isn t msgs := by
  induction h with
  | start =>
    refine ⟨fun _ => ⟨_, tracks_ofStream hcap⟩, fun _ h => (by cases h),
      fun h => (by cases h), ?_, fun _ => ⟨rfl, rfl, rfl, rfl, rfl⟩, fun h => (by cases h)⟩
    simp [ofReassembler]
  | receive a m _ hw hok hl ih =>
    exact (ih (Nat.lt_of_le_of_lt (receive_stream hl).2 hP)).receive hw hD hok.1 hok.2 hl hP
  | pop len h hlen hpop ih =>
    have hp := (h.stream hcap).popped hlen hpop
    exact (ih (hp.totalPushed.symm.trans_lt hP)).pop hp

/-- The acknowledgment number in the runs whose messages are all safe: that of the next byte, and one
more once the stream is closed. -/
theorem ackno_of_ackSafe (hcap : capacity < 2 ^ 64) (hD : D.length < 2 ^ 62)
    (h : SegmentRun capacity isn D
      (fun t _ m => (m.SYN = true ↔ m.seqno = isn) ∧ AckSafe t m) t msgs out)
    (hP : t.inbound.bytesPushed < 2 ^ 63) (hsyn : ∃ m ∈ msgs, m.SYN = true) :
    t.send.ackno =
      some (.wrap (1 + t.inbound.bytesPushed + t.inbound.isClosed.toNat) isn) := by
  have hi := h.ackInv hcap hD hP
  have hseen := hi.syn.2 hsyn
  obtain ⟨-, -, -, -, hcur⟩ := hi.seen hseen
  rw [send, hseen]
  exact congrArg some hcur

/-- The last segment first, with its FIN, then the first byte, which brings everything together. -/
theorem ackno_of_ackSafe_ab :
    ∃ t msgs out, SegmentRun 4 ⟨7⟩ [1, 2]
        (fun t _ m => (m.SYN = true ↔ m.seqno = ⟨7⟩) ∧ AckSafe t m) t msgs out ∧
      t.send.ackno = some (.wrap 4 ⟨7⟩) := by
  have h₀ : SegmentRun 4 ⟨7⟩ [1, 2]
      (fun t _ m => (m.SYN = true ↔ m.seqno = ⟨7⟩) ∧ AckSafe t m) _ _ _ := .start
  have h₁ := h₀.receive 0 { seqno := ⟨7⟩, SYN := true }
    ⟨rfl, by decide, by decide, by decide, by decide⟩ (by decide) (.inl rfl)
  have h₂ := h₁.receive 2 { seqno := ⟨9⟩, payload := [2], FIN := true }
    ⟨rfl, by decide, by decide, by decide, by decide⟩ (by decide) (.inl rfl)
  have h₃ := h₂.receive 1 { seqno := ⟨8⟩, payload := [1] }
    ⟨rfl, by decide, by decide, by decide, by decide⟩ (by decide) (.inl rfl)
  exact ⟨_, _, _, h₃, ackno_of_ackSafe (by decide) (by decide) h₃ (by decide) (by decide)⟩

/-- The SYN comes twice: the acknowledgment number is back at the initial number. -/
theorem ackno_fails :
    ∃ t msgs out, SegmentRun 4 ⟨7⟩ [1] (fun _ _ m => m.SYN = true ↔ m.seqno = ⟨7⟩) t msgs out ∧
      (∃ m ∈ msgs, m.SYN = true) ∧
      t.send.ackno ≠
        some (.wrap (1 + t.inbound.bytesPushed + t.inbound.isClosed.toNat) ⟨7⟩) := by
  have h₀ : SegmentRun 4 ⟨7⟩ [1] (fun _ _ m => m.SYN = true ↔ m.seqno = ⟨7⟩) _ _ _ := .start
  have h₁ := h₀.receive 0 { seqno := ⟨7⟩, SYN := true }
    ⟨rfl, by decide, by decide, by decide, by decide⟩ (by decide) (.inl rfl)
  have h₂ := h₁.receive 1 { seqno := ⟨8⟩, payload := [1] }
    ⟨rfl, by decide, by decide, by decide, by decide⟩ (by decide) (.inl rfl)
  have h₃ := h₂.receive 0 { seqno := ⟨7⟩, SYN := true }
    ⟨rfl, by decide, by decide, by decide, by decide⟩ (by decide) (.inl rfl)
  exact ⟨_, _, _, h₃, by decide, by decide⟩

end Minnow.TCPReceiver
