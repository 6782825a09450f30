import Minnow.Delivery
import Minnow.ReassemblerSeq
import Minnow.ReceiverAck

/-!
# Messages in sequence

A message that starts at `cur_seq` is pushed at once (`InLine.receive`), however long the stream is, as
long as `cur_seq` is not back at the initial sequence number. `receive` takes that for a SYN that has
not been counted, and inserts the payload one byte too far (`insertedAt_iff`).
-/

namespace Minnow

namespace Reassembler
open Prog ByteStream

/-- Pieces in sequence have come, and none of them was marked as the last. -/
def Unended (D : Bytes) (r : Reassembler) : Prop :=
  ∃ calls, InSeq D r calls ∧ ∀ c ∈ calls, c.isLast = false

variable {r : Reassembler} {D data : Bytes}

theorem Unended.isOpen (h : r.Unended D) : r.output.isClosed = false := by
  obtain ⟨calls, hs, hlast⟩ := h
  refine Bool.eq_false_iff.2 fun hc => ?_
  obtain ⟨c, hc, hl⟩ := hs.last.1 (hs.closed.1 hc).1
  rw [hlast c hc] at hl
  cases hl

/-- The insert of the next piece is a plain push. -/
theorem Unended.insert (h : r.Unended D) (hD : D.length < 2 ^ 63)
    (hp : Piece D r.output.totalPushed data) : ∃ r',
      r.insert r.output.totalPushed data false = .ok r' ∧ r'.Unended D ∧
      r'.output = r.output.push data := by
  obtain ⟨calls, hs, hlast⟩ := id h
  obtain ⟨r', hr, hs', ho⟩ := hs.insert (c := ⟨r.output.totalPushed, data, false⟩) (by omega)
    ⟨hp, fun hl => by cases hl⟩ (Nat.le_refl _)
  have h' : r'.Unended D := by
    refine ⟨_, hs', fun c hc => ?_⟩
    rcases List.mem_cons.1 hc with rfl | hc
    · rfl
    · exact hlast c hc
  have hdata := hp.drop_eq (Nat.le_refl _)
  rw [Nat.sub_self, List.drop_zero] at hdata
  have hcl := (push_pushed r.output data).isClosed.trans h.isOpen
  refine ⟨r', hr, h', ?_⟩
  rw [ho, h'.isOpen, bytesPushed, ← hdata, ← hcl]

end Reassembler

namespace TCPReceiver
open Prog Reassembler ByteStream

/-- The index at which `receive` inserts the payload, unless it ignores the message. -/
def insertedAt (t : TCPReceiver) (m : TCPSenderMessage) : Option Nat :=
  if (!m.SYN && !t.seenSyn) = true then none else some ((t.noted m).insertIndex m)

/-- The receiver of a stream of which nothing is missing and no end has been seen. -/
structure InLine (isn : Wrap32) (D : Bytes) (t : TCPReceiver) : Prop where
  unended : t.reassembler.Unended D
  origin : t.isn = isn
  seenSyn : t.seenSyn = true
  synAccounted : t.synAccounted = true
  seenFin : t.seenFin = false
  curSeq : t.curSeq = .wrap (1 + t.inbound.totalPushed) isn

variable {t t' : TCPReceiver} {m : TCPSenderMessage} {isn : Wrap32} {D out : Bytes}
  {a capacity : Nat} {msgs : List TCPSenderMessage}

theorem receive_eq (t : TCPReceiver) (m : TCPSenderMessage) : t.receive m =
    match t.insertedAt m with
    | none => .ok (if m.RST then t.setError else t)
    | some i =>
      let inserted := ((t.noted m).reassembler.insert i m.payload m.FIN).map
        fun r => { t.noted m with reassembler := r }
      if (t.noted m).isAhead m then inserted else inserted.bind fun t => .ok t.account := by
  have hseen : (if m.RST = true then t.setError else t).seenSyn = t.seenSyn := by split <;> rfl
  unfold receive insertedAt
  dsimp only
  rw [hseen]
  by_cases hign : (!m.SYN && !t.seenSyn) = true
  · rw [if_pos hign, if_pos hign]
  · rw [if_neg hign, if_neg hign]
    rfl

/-! ### Whole streams in sequence -/

theorem InLine.pushed_le (h : InLine isn D t) : t.inbound.totalPushed ≤ D.length := by
  obtain ⟨calls, hs, -⟩ := h.unended
  exact hs.pushed_le

theorem InLine.stream (h : InLine isn D t) : t.inbound.Wf := by
  obtain ⟨calls, hs, -⟩ := h.unended
  exact hs.clear.stream

theorem InLine.pop {o : ByteStream} {len : Nat} (h : InLine isn D t)
    (hpop : Popped t.inbound len o) :
    InLine isn D { t with reassembler := { t.reassembler with output := o } } := by
  obtain ⟨calls, hs, hlast⟩ := h.unended
  refine ⟨⟨calls, hs.pop hpop, hlast⟩, h.origin, h.seenSyn, h.synAccounted, h.seenFin, ?_⟩
  show t.curSeq = .wrap (1 + o.totalPushed) isn
  rw [hpop.totalPushed]; exact h.curSeq

/-- A message that is neither a RST nor ahead is inserted and accounted for. -/
theorem receive_ok {i : Nat} {r' : Reassembler} (hR : m.RST = false)
    (hi : t.insertedAt m = some i) (ha : (t.noted m).isAhead m = false)
    (hr : t.reassembler.insert i m.payload m.FIN = .ok r') :
    t.receive m = .ok (account { t.noted m with reassembler := r' }) := by
  have hre : (t.noted m).reassembler = t.reassembler := by
    rw [noted_reassembler, if_neg (by simp [hR])]
  rw [receive_eq, hi]
  dsimp only
  rw [ha, hre, hr]
  rfl

/-- What `account` adds for the first SYN and for the bytes pushed. -/
theorem inLine_account {r' : Reassembler} (hD : D.length < 2 ^ 63) (hu : r'.Unended D)
    (horigin : (t.noted m).isn = isn) (hseen : (t.noted m).seenSyn = true)
    (hfin : (t.noted m).seenFin = false)
    (hcur : (t.noted m).curSeq =
      .wrap ((t.noted m).synAccounted.toNat + t.inbound.totalPushed) isn)
    (hmono : t.inbound.totalPushed ≤ r'.output.totalPushed) :
    InLine isn D (account { t.noted m with reassembler := r' }) := by
  obtain ⟨-, hprev, -⟩ := noted_pushed t m
  obtain ⟨hre, hi, hss, hsf, hsa, -, hc⟩ := account_fields { t.noted m with reassembler := r' }
  have hinb : (account { t.noted m with reassembler := r' }).inbound = r'.output := by
    rw [inbound, hre]
  have hle : r'.output.totalPushed ≤ D.length := by
    obtain ⟨calls, hs, -⟩ := hu
    exact hs.pushed_le
  refine ⟨hre ▸ hu, hi.trans horigin, hss.trans hseen, ?_, hsf.trans hfin, ?_⟩
  · rw [hsa]
    show (_ || (t.noted m).seenSyn) = true
    rw [hseen, Bool.or_true]
  · dsimp only [inbound, bytesPushed] at hc
    rw [hc, hinb, hcur, hseen, hfin, hprev, sub64_of_le hmono (by omega), Wrap32.wrap, Wrap32.wrap,
      Wrap32.add_add]
    congr 1
    cases (t.noted m).synAccounted <;> simp <;> omega

/-- A SYN without payload opens the stream. -/
theorem inLine_syn (hint : capacity < 2 ^ 31) (isn : Wrap32) (hD : D.length < 2 ^ 63) :
    ∃ t', (ofReassembler (ofStream { capacity })).receive { seqno := isn, SYN := true } = .ok t' ∧
      InLine isn D t' ∧ t'.inbound = { capacity } := by
  generalize hm : ({ seqno := isn, SYN := true } : TCPSenderMessage) = m
  have hs : m.SYN = true := by rw [← hm]
  have hu : Unended D (ofStream { capacity }) := ⟨[], inSeq_ofStream hint D, by simp⟩
  obtain ⟨r', hr, hu', ho⟩ := hu.insert hD (show Piece D 0 [] from ⟨Nat.zero_le _, List.nil_prefix⟩)
  have hr' : (ofStream { capacity }).insert 0 m.payload m.FIN = .ok r' := by rw [← hm]; exact hr
  have hindex : (ofReassembler (ofStream { capacity })).insertedAt m = some 0 := by
    have hnear : Near 0 (ofReassembler (ofStream { capacity })).inbound.totalPushed :=
      ⟨Nat.zero_lt_succ _, Nat.zero_lt_succ _⟩
    rw [insertedAt, if_neg (by simp [hs]), insertIndex_of_syn hs hnear]
  have hrec := receive_ok (t := ofReassembler (ofStream { capacity })) (by rw [← hm]) hindex
    (isAhead_of_syn hs) hr'
  refine ⟨_, hrec, inLine_account hD hu' ?_ ?_ ?_ ?_ ?_, ?_⟩
  · rw [← hm]; rfl
  · rw [← hm]; rfl
  · rw [← hm]; rfl
  · rw [← hm]; exact (Wrap32.add_zero isn).symm
  · exact Nat.zero_le _
  · rw [inbound, (account_fields _).1, ho]
    exact if_pos (.inr (.inr rfl))

/-- The message that starts at `cur_seq`, if that is not the initial sequence number. -/
theorem InLine.receive (h : InLine isn D t) (hD : D.length < 2 ^ 63)
    (hw : m.WellFormed isn D (1 + t.inbound.totalPushed)) (hs : m.SYN = false) (hF : m.FIN = false)
    (hR : m.RST = false) (hne : m.payload ≠ [])
    (hround : (1 + t.inbound.totalPushed) % 2 ^ 32 ≠ 0) :
    ∃ t', t.receive m = .ok t' ∧ InLine isn D t' ∧ t'.inbound = t.inbound.push m.payload := by
  have hle := h.pushed_le
  obtain ⟨hisn, hcur, hseen, hfin, hsa, -⟩ := noted_flags t m
  rw [hs] at hisn hcur hseen
  simp only [Bool.false_eq_true, if_false, Bool.false_or] at hisn hcur hseen
  have hindex : t.insertedAt m = some t.inbound.totalPushed := by
    have hz : t.curSeq ≠ t.isn := by
      rw [h.curSeq, h.origin, Ne, Wrap32.wrap_eq_zero_iff]; exact hround
    rw [insertedAt, hs, h.seenSyn, if_neg (by simp), insertIndex_of_payload hw hs h.seenSyn h.origin
      hne hD ⟨by omega, by omega⟩ fun hc => hz hc.2, TCPSenderMessage.index, hs]
    exact congrArg some (Nat.add_sub_cancel_left 1 _)
  have hahead : (t.noted m).isAhead m = false := by
    rw [isAhead, messageSeqnoUnwrapped, curSeqUnwrapped, hcur, hw.seqno.trans h.curSeq.symm]
    simp
  have hp : Piece D t.inbound.totalPushed m.payload := by
    have := piece_of_wellFormed hw hne
    rwa [TCPSenderMessage.index, hs, if_neg Bool.false_ne_true, Nat.add_sub_cancel_left] at this
  obtain ⟨r', hr, hu, ho⟩ := h.unended.insert hD hp
  have hpush : r'.output = t.inbound.push m.payload := ho
  rw [← hF] at hr
  refine ⟨_, receive_ok hR hindex hahead hr, inLine_account hD hu (hisn.trans h.origin)
    (hseen.trans h.seenSyn) ?_ ?_ ?_, ?_⟩
  · rw [hfin, hF, h.seenFin]; rfl
  · rw [hcur, hsa, h.synAccounted]; exact h.curSeq
  · rw [hpush, (push_pushed t.inbound m.payload).totalPushed]; exact Nat.le_add_right _ _
  · rw [inbound, (account_fields _).1]; exact hpush

/-- A single byte, for which there is room. -/
theorem InLine.receive_byte (h : InLine isn D t) (hD : D.length < 2 ^ 63) {b : Byte}
    (hb : [b] <+: D.drop t.inbound.totalPushed) (hroom : t.inbound.bytesInDeck < t.inbound.capacity)
    (hround : (1 + t.inbound.totalPushed) % 2 ^ 32 ≠ 0) :
    ∃ t', t.receive { seqno := .wrap (1 + t.inbound.totalPushed) isn, payload := [b] } = .ok t' ∧
      InLine isn D t' ∧ t'.inbound.totalPushed = t.inbound.totalPushed + 1 ∧
      t'.inbound.bytesInDeck = t.inbound.bytesInDeck + 1 ∧
      t'.inbound.capacity = t.inbound.capacity := by
  obtain ⟨t', hr, h', hin⟩ := h.receive (m := ⟨.wrap (1 + t.inbound.totalPushed) isn, false, [b],
    false, false⟩) hD ⟨rfl, by simp, fun _ => .inr (by omega), by
      rw [TCPSenderMessage.index, if_neg Bool.false_ne_true, Nat.add_sub_cancel_left]; exact hb,
      by simp⟩ rfl rfl rfl (by simp) hround
  have hp := push_pushed t.inbound [b]
  have htaken : t.inbound.taken [b] = [b] := by
    have hav := h.stream.availableCapacity_eq
    rw [taken, inbound, h.unended.isOpen, if_neg Bool.false_ne_true,
      List.take_of_length_le (by rw [inbound] at hav hroom; rw [List.length_singleton]; omega)]
  rw [htaken] at hp
  exact ⟨t', hr, h', hin ▸ hp.totalPushed, hin ▸ hp.bytesInDeck, hin ▸ hp.capacity⟩

/-! ### Where a payload goes -/

/-- With `cur_seq` and the message at the initial sequence number the payload goes one byte too far. -/
theorem insertIndex_of_round (hw : m.WellFormed isn D a) (hs : m.SYN = false)
    (hseen : t.seenSyn = true) (hisn : t.isn = isn) (hne : m.payload ≠ [])
    (hD : D.length < 2 ^ 63) (hnear : Near a t.inbound.totalPushed) (hseq : m.seqno = isn)
    (hcur : t.curSeq = isn) : (t.noted m).insertIndex m = a := by
  have ha := hw.seqno
  have hnear' := hnear.2
  obtain ⟨hisn', hcur', hseen', -⟩ := noted_flags t m
  rw [hs] at hisn' hcur' hseen'
  simp only [Bool.false_eq_true, if_false, Bool.false_or] at hisn' hcur' hseen'
  have hle := (piece_of_wellFormed hw hne).bound
  have hpos := List.length_pos_iff.2 hne
  rw [TCPSenderMessage.index, hs, if_neg Bool.false_ne_true] at hle
  have hu : m.seqno.unwrap isn t.inbound.totalPushed = a := by
    rw [ha]; exact Wrap32.unwrap_wrap (by omega) hnear.2 hnear.1
  rw [insertIndex, messageSeqnoUnwrapped, curSeqUnwrapped, bytesPushed, (noted_pushed t m).1, hseen',
    hcur', hisn', hseen, hcur, hisn, if_pos (by simp [hne]), hseq, if_neg (Nat.lt_irrefl _),
    if_neg (Nat.lt_irrefl _), if_pos rfl, ← hu, hseq]

theorem SegmentRun.origin {Ok : TCPReceiver → Nat → TCPSenderMessage → Prop}
    (h : SegmentRun capacity isn D Ok t msgs out) (hseen : t.seenSyn = true) : t.isn = isn := by
  induction h with
  | start => cases hseen
  | receive a m _ hw _ hl ih => exact receive_isn hw.seqno_of_syn ih hl hseen
  | pop len _ _ _ ih => exact ih hseen

/-- Once the SYN has been seen a near payload goes to its own index, unless it and `cur_seq` are back at
the initial sequence number. -/
theorem insertedAt_iff (hD : D.length < 2 ^ 63)
    (h : SegmentRun capacity isn D (fun _ _ _ => True) t msgs out) (hw : m.WellFormed isn D a)
    (hs : m.SYN = false) (hne : m.payload ≠ []) (hnear : Near a t.inbound.bytesPushed) :
    t.insertedAt m = some (a - 1) ↔
      t.seenSyn = true ∧ ¬ (m.seqno = isn ∧ t.curSeq = isn) := by
  have ha : 0 < a := (hw.start (.inl hne)).resolve_left (by simp [hs])
  rw [insertedAt, hs]
  cases hseen : t.seenSyn with
  | false => simp
  | true =>
    have hisn := h.origin hseen
    rw [if_neg (by simp), Option.some_inj, eq_self_iff_true, true_and]
    by_cases hround : m.seqno = isn ∧ t.curSeq = isn
    · rw [insertIndex_of_round hw hs hseen hisn hne hD hnear hround.1 hround.2]
      exact iff_of_false (by omega) (fun h => h hround)
    · refine iff_of_true ?_ hround
      rw [insertIndex_of_payload hw hs hseen hisn hne hD hnear (by rw [hisn]; exact hround),
        TCPSenderMessage.index, hs, if_neg Bool.false_ne_true]

/-- The second byte overtakes the first. -/
theorem insertedAt_iff_b : ∃ t msgs out, SegmentRun 4 ⟨7⟩ [1, 2] (fun _ _ _ => True) t msgs out ∧
    t.insertedAt { seqno := ⟨9⟩, payload := [2] } = some 1 := by
  have h₀ : SegmentRun 4 ⟨7⟩ [1, 2] (fun _ _ _ => True) _ _ _ := .start
  have h₁ := h₀.receive 0 { seqno := ⟨7⟩, SYN := true } ⟨rfl, by decide, by decide, by decide, by decide⟩
    trivial (.inl rfl)
  exact ⟨_, _, _, h₁, (insertedAt_iff (a := 2) (by decide) h₁
    ⟨rfl, by decide, by decide, by decide, by decide⟩ rfl (by decide) (by decide)).2
    ⟨rfl, by decide⟩⟩

/-- Single bytes in sequence, each read at once. -/
theorem exists_pushed {N : Nat} (hN : N < 2 ^ 63) (isn : Wrap32) : ∀ n, n ≤ N → n < 2 ^ 32 →
    ∃ t msgs out, SegmentRun 1 isn (List.replicate N 0) (fun _ _ _ => True) t msgs out ∧
      InLine isn (List.replicate N 0) t ∧ t.inbound.totalPushed = n ∧ t.inbound.bytesInDeck = 0 ∧
      t.inbound.capacity = 1 := by
  have hD : (List.replicate N (0 : Byte)).length < 2 ^ 63 := by rw [List.length_replicate]; exact hN
  intro n
  induction n with
  | zero =>
    intro _ _
    obtain ⟨t, hr, hl, hin⟩ := inLine_syn (show 1 < 2 ^ 31 by decide) isn hD
    exact ⟨t, _, _, SegmentRun.start.receive 0 _ ⟨(Wrap32.add_zero isn).symm, fun _ => rfl,
      fun _ => .inl rfl, List.nil_prefix, fun hF => by cases hF⟩ trivial (.inl hr), hl, by rw [hin],
      by rw [hin], by rw [hin]⟩
  | succ n ih =>
    intro hle hlt
    obtain ⟨t, msgs, out, hrun, hl, hn, hb, hc⟩ := ih (by omega) (by omega)
    have hpre : [0] <+: (List.replicate N (0 : Byte)).drop t.inbound.totalPushed := by
      rw [List.drop_replicate, hn, show N - n = (N - n - 1) + 1 by omega, List.replicate_succ]
      exact List.prefix_append [0] _
    obtain ⟨t', hr, hl', hP, hB, hC⟩ := hl.receive_byte hD hpre (by omega) (by omega)
    obtain ⟨o, hpop, hp⟩ := pop_spec hl'.stream (show 1 ≤ _ by rw [bytesBuffered]; omega)
    have hbyte := hrun.receive (1 + t.inbound.totalPushed) _ ⟨rfl, by simp, fun _ => .inr (by omega),
      by rw [TCPSenderMessage.index, if_neg Bool.false_ne_true, Nat.add_sub_cancel_left]; exact hpre,
      by simp⟩ trivial (.inl hr)
    have hread := hbyte.pop 1 (by rw [bytesBuffered]; omega) hpop
    exact ⟨_, _, _, hread, hl'.pop hp, hp.totalPushed.trans (by omega),
      (hp.bytesInDeck hl'.stream).trans (by omega), hp.capacity.trans (by omega)⟩

/-- A stream that has come round to the initial sequence number. -/
theorem exists_round {N : Nat} (hN : N = 2 ^ 32) : ∃ t msgs out,
    SegmentRun 1 ⟨7⟩ (List.replicate N 0) (fun _ _ _ => True) t msgs out ∧
    t.inbound.bytesPushed = N - 1 ∧
    TCPSenderMessage.WellFormed { seqno := ⟨7⟩, payload := [0] } ⟨7⟩ (List.replicate N 0) N ∧
    t.insertedAt { seqno := ⟨7⟩, payload := [0] } = some N := by
  obtain ⟨t, msgs, out, hrun, hl, hn, -, -⟩ :=
    exists_pushed (show N < 2 ^ 63 by omega) ⟨7⟩ (N - 1) (by omega) (by omega)
  have hwrap : Wrap32.wrap N ⟨7⟩ = ⟨7⟩ := by rw [Wrap32.wrap_eq_zero_iff]; omega
  have hw : TCPSenderMessage.WellFormed { seqno := ⟨7⟩, payload := [0] } ⟨7⟩ (List.replicate N 0)
      N := by
    refine ⟨hwrap.symm, by simp, fun _ => .inr (by omega), ?_, by simp⟩
    rw [TCPSenderMessage.index, if_neg Bool.false_ne_true, List.drop_replicate,
      show N - (N - 1) = 1 by omega]
    exact List.prefix_rfl
  have hcur : t.curSeq = ⟨7⟩ := by
    rw [hl.curSeq, hn, show 1 + (N - 1) = N by omega]; exact hwrap
  refine ⟨t, msgs, out, hrun, hn, hw, ?_⟩
  rw [insertedAt, hl.seenSyn, if_neg (by simp), insertIndex_of_round hw rfl hl.seenSyn hl.origin
    (by simp) (by rw [List.length_replicate]; omega) ⟨by omega, by omega⟩ rfl hcur]

/-- After `2 ^ 32 - 1` bytes in sequence, each read at once, the next byte is taken for the one after
it. -/
theorem insertedAt_fails : ∃ t msgs out,
    SegmentRun 1 ⟨7⟩ (List.replicate (2 ^ 32) 0) (fun _ _ _ => True) t msgs out ∧
    t.inbound.bytesPushed = 2 ^ 32 - 1 ∧
    TCPSenderMessage.WellFormed { seqno := ⟨7⟩, payload := [0] } ⟨7⟩ (List.replicate (2 ^ 32) 0)
      (2 ^ 32) ∧
    t.insertedAt { seqno := ⟨7⟩, payload := [0] } ≠ some (2 ^ 32 - 1) := by
  obtain ⟨t, msgs, out, hrun, hn, hw, hi⟩ := exists_round (N := 2 ^ 32) rfl
  exact ⟨t, msgs, out, hrun, hn, hw, by rw [hi]; decide⟩

end TCPReceiver

end Minnow
