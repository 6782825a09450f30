import Minnow.Delivery
import Minnow.ReassemblerFit
import Minnow.ReassemblerTotal
import Minnow.ReceiverAck

/-!
# Delivery of streams that fit into the capacity

`OrderlyRun` collects the receivers of a stream shorter than the capacity that is opened by its only
SYN and whose bare FINs come after all the data. Whatever the order of the data segments, each goes to
its own place although a FIN that came early puts `cur_seq` one ahead of the data, so what has been
put out is what has been received without a gap (`delivers_of_orderly`).
-/

namespace Minnow.TCPReceiver
open Prog Reassembler ByteStream

/-- The call of `insert` that delivers the message `x.2` at the absolute sequence number `x.1`. -/
def callOf (x : Nat × TCPSenderMessage) : Call := ⟨x.2.index x.1, x.2.payload, x.2.FIN⟩

/-- The message `x.2` at `x.1` brings byte `k` of the stream. -/
def Brings (x : Nat × TCPSenderMessage) (k : Nat) : Prop := (callOf x).Covers k

/-- The first message is the only SYN, and a FIN without payload comes after all of the stream. -/
structure Orderly (D : Bytes) (msgs : List (Nat × TCPSenderMessage)) (m : TCPSenderMessage) :
    Prop where
  syn : m.SYN = true ↔ msgs = []
  fin : m.FIN = true → m.payload = [] → ∀ k < D.length, ∃ x ∈ msgs, Brings x k

/-- The receivers with the messages received so far, each at its absolute sequence number, and the
bytes read so far. -/
inductive OrderlyRun (capacity : Nat) (isn : Wrap32) (D : Bytes) :
    TCPReceiver → List (Nat × TCPSenderMessage) → Bytes → Prop
  | start : OrderlyRun capacity isn D (ofReassembler (ofStream { capacity })) [] []
  | receive {t t' : TCPReceiver} {msgs : List (Nat × TCPSenderMessage)} {out : Bytes} (a : Nat)
      (m : TCPSenderMessage) (h : OrderlyRun capacity isn D t msgs out)
      (hw : m.WellFormed isn D a) (hok : Orderly D msgs m) (hl : (t.receive m).Leaves t') :
      OrderlyRun capacity isn D t' ((a, m) :: msgs) out
  | pop {t : TCPReceiver} {o : ByteStream} {msgs : List (Nat × TCPSenderMessage)} {out : Bytes}
      (len : Nat) (h : OrderlyRun capacity isn D t msgs out)
      (hlen : len ≤ t.inbound.bytesBuffered) (hpop : t.inbound.pop len = some o) :
      OrderlyRun capacity isn D { t with reassembler := { t.reassembler with output := o } } msgs
        (out ++ t.inbound.queued.take len)

variable {t t' : TCPReceiver} {m : TCPSenderMessage} {isn : Wrap32} {D out : Bytes} {a len : Nat}
  {msgs : List (Nat × TCPSenderMessage)} {capacity : Nat} {r' : Reassembler}

/-- The counters. `cur_seq` is the number of the next byte, one more if a FIN has been counted. -/
structure Counted (isn : Wrap32) (D : Bytes) (t : TCPReceiver)
    (msgs : List (Nat × TCPSenderMessage)) : Prop where
  seenSyn : t.seenSyn = true ↔ msgs ≠ []
  origin : msgs ≠ [] → t.isn = isn
  synAccounted : t.synAccounted = true ↔ msgs ≠ []
  curSeq : msgs ≠ [] →
    t.curSeq = .wrap (1 + t.inbound.totalPushed + t.finAccounted.toNat) isn
  seenFin : t.seenFin = true → ∃ x ∈ msgs, x.2.FIN = true
  finAccounted : t.finAccounted = true → t.seenFin = true
  pushed_le : t.inbound.totalPushed ≤ D.length
  pushed_eq_zero : msgs = [] → t.inbound.totalPushed = 0

/-- What has been put out: while the stream is open, what the calls covered without a gap. -/
structure Delivered (capacity : Nat) (D : Bytes) (t : TCPReceiver)
    (msgs : List (Nat × TCPSenderMessage)) (out : Bytes) : Prop where
  opened : t.inbound.isClosed = false →
    ∃ A, Exact capacity D t.reassembler A (msgs.map callOf) out
  closed : t.inbound.isClosed = true → out ++ t.inbound.queued = D ∧
    t.inbound.totalPushed = D.length ∧ (∃ x ∈ msgs, x.2.FIN = true) ∧
    ∀ k < D.length, ∃ x ∈ msgs, Brings x k

/-- What is known of the receiver, open or closed. -/
structure Fitted (capacity : Nat) (isn : Wrap32) (D : Bytes) (t : TCPReceiver)
    (msgs : List (Nat × TCPSenderMessage)) (out : Bytes) : Prop extends
    Counted isn D t msgs, Delivered capacity D t msgs out where
  steady : t.reassembler.Steady
  capacity : t.inbound.capacity = capacity

theorem Delivered.noted (h : Delivered capacity D t msgs out) (ho : t.inbound.isClosed = false) :
    ∃ A, Exact capacity D (t.noted m).reassembler A (msgs.map callOf) out := by
  obtain ⟨A, hA⟩ := h.opened ho
  rw [noted_reassembler]
  split
  · exact ⟨A, hA.setError⟩
  · exact ⟨A, hA⟩

theorem steady_noted (h : t.reassembler.Steady) : (t.noted m).reassembler.Steady := by
  rw [noted_reassembler]
  split
  · exact h.setError
  · exact h

theorem Delivered.pushed_le (h : Delivered capacity D t msgs out) :
    t.inbound.totalPushed ≤ D.length := by
  cases hc : t.inbound.isClosed with
  | true => exact (h.closed hc).2.1.le
  | false =>
    obtain ⟨A, hA⟩ := h.opened hc
    exact hA.knows.pushed_le

/-! ### Where a message goes -/

theorem Counted.index_payload (h : Counted isn D t msgs) (hD : D.length < 2 ^ 31 - 1)
    (hw : m.WellFormed isn D a) (hok : Orderly D msgs m) (hne : m.payload ≠ []) :
    (t.noted m).insertIndex m = m.index a ∧
      ((t.noted m).isAhead m = true → m.SYN = false ∧ t.inbound.totalPushed < m.index a) := by
  have hP := h.pushed_le
  cases hs : m.SYN with
  | true =>
    refine ⟨?_, fun ha => by rw [isAhead_of_syn hs] at ha; cases ha⟩
    rw [insertIndex_of_syn hs ⟨by omega, by omega⟩, TCPSenderMessage.index, if_pos hs]
  | false =>
    have hmsgs : msgs ≠ [] := mt hok.syn.2 (by simp [hs])
    have hseen := h.seenSyn.2 hmsgs
    have hisn := h.origin hmsgs
    have hcur := h.curSeq hmsgs
    have hfa := Bool.toNat_le t.finAccounted
    have ha0 := (hw.start (.inl hne)).resolve_left (by simp [hs])
    have hidx : m.index a = a - 1 := by rw [TCPSenderMessage.index, hs]; rfl
    have hbound := (piece_of_wellFormed hw hne).bound
    have hpos := List.length_pos_iff.2 hne
    have hnear : Near a t.inbound.totalPushed := ⟨by omega, by omega⟩
    have hz : t.curSeq ≠ t.isn := by
      rw [hcur, hisn, Ne, Wrap32.wrap_eq_zero_iff]
      omega
    refine ⟨insertIndex_of_payload hw hs hseen hisn hne (by omega) hnear fun h => hz h.2,
      fun ha => ⟨rfl, ?_⟩⟩
    obtain ⟨hisn', hcur', -⟩ := noted_flags t m
    rw [hs] at hisn' hcur'
    rw [isAhead, messageSeqnoUnwrapped, curSeqUnwrapped, hisn', hcur', bytesPushed,
      (noted_pushed t m).1, hcur, hw.seqno] at ha
    simp only [Bool.false_eq_true, if_false, hisn, Bool.and_eq_true, decide_eq_true_eq] at ha
    have hlt := ha.2
    rw [Wrap32.unwrap_wrap (by omega) (by omega) (by omega),
      Wrap32.unwrap_wrap (by omega) hnear.2 hnear.1] at hlt
    omega

theorem Counted.index_empty (h : Counted isn D t msgs) (hD : D.length < 2 ^ 31 - 1)
    (hok : Orderly D msgs m) (he : m.payload = []) :
    (t.noted m).insertIndex m =
      if m.SYN then 0 else t.inbound.totalPushed + t.finAccounted.toNat := by
  have hP := h.pushed_le
  cases hs : m.SYN with
  | true => exact insertIndex_of_syn hs ⟨by omega, by omega⟩
  | false =>
    have hmsgs : msgs ≠ [] := mt hok.syn.2 (by simp [hs])
    have hisn := h.origin hmsgs
    have hcur := h.curSeq hmsgs
    have hfa := Bool.toNat_le t.finAccounted
    have hz : t.curSeq ≠ t.isn := by
      rw [hcur, hisn, Ne, Wrap32.wrap_eq_zero_iff]
      omega
    rw [insertIndex_of_empty hs he, if_neg hz, hcur, hisn,
      Wrap32.unwrap_wrap (by omega) (by omega) (by omega), sub64_of_le (by omega) (by omega)]
    simp only [Bool.false_eq_true, if_false]
    omega

/-! ### One message -/

theorem Counted.noted_seenSyn (h : Counted isn D t msgs) (hok : Orderly D msgs m) :
    (t.noted m).seenSyn = true := by
  obtain ⟨-, -, hseen, -⟩ := noted_flags t m
  rw [hseen, Bool.or_eq_true, hok.syn, h.seenSyn]
  exact Classical.em _

theorem Counted.noted_isn (h : Counted isn D t msgs) (hok : Orderly D msgs m)
    (hsyn : m.SYN = true → m.seqno = isn) : (t.noted m).isn = isn := by
  obtain ⟨hisn, -⟩ := noted_flags t m
  rw [hisn]
  cases hs : m.SYN with
  | true => exact hsyn hs
  | false => exact h.origin (mt hok.syn.2 (by simp [hs]))

theorem Counted.noted_seenFin (h : Counted isn D t msgs)
    (hF : (t.noted m).seenFin = true) : ∃ x ∈ (a, m) :: msgs, x.2.FIN = true := by
  obtain ⟨-, -, -, hfin, -⟩ := noted_flags t m
  rw [hfin, Bool.or_eq_true] at hF
  rw [List.exists_mem_cons_iff]
  exact hF.imp_right h.seenFin

theorem Counted.noted_finAccounted (h : Counted isn D t msgs)
    (hF : (t.noted m).finAccounted = true) : (t.noted m).seenFin = true := by
  obtain ⟨-, -, -, hfin, -, hfa⟩ := noted_flags t m
  rw [hfin, h.finAccounted (hfa.symm.trans hF), Bool.or_true]

/-- Where `cur_seq` is when the message has been noted: the SYN starts it anew. -/
theorem Counted.noted_curSeq (h : Counted isn D t msgs) (hok : Orderly D msgs m)
    (hsyn : m.SYN = true → m.seqno = isn) :
    (t.noted m).curSeq = .wrap ((t.noted m).synAccounted.toNat + t.inbound.totalPushed +
      (t.noted m).finAccounted.toNat) isn := by
  obtain ⟨-, hcur, -, -, hsa, hfa⟩ := noted_flags t m
  rw [hcur, hsa, hfa]
  cases hs : m.SYN with
  | true =>
    have hmsgs := hok.syn.1 hs
    have hsa0 : t.synAccounted = false :=
      Bool.eq_false_iff.2 fun hx => h.synAccounted.1 hx hmsgs
    have hfa0 : t.finAccounted = false := Bool.eq_false_iff.2 fun hx => by
      obtain ⟨x, hx, -⟩ := h.seenFin (h.finAccounted hx)
      rw [hmsgs] at hx; cases hx
    rw [if_pos rfl, hsyn hs, hsa0, hfa0, h.pushed_eq_zero hmsgs, Wrap32.wrap]
    exact (Wrap32.add_zero isn).symm
  | false =>
    have hmsgs : msgs ≠ [] := mt hok.syn.2 (by simp [hs])
    rw [h.synAccounted.2 hmsgs]
    exact h.curSeq hmsgs

/-- Nothing is added when nothing is pushed and no SYN has come. -/
theorem Counted.unmoved (h : Counted isn D t msgs) (hok : Orderly D msgs m)
    (hs : m.SYN = false) (hP : r'.output.totalPushed = t.inbound.totalPushed) :
    Counted isn D { t.noted m with reassembler := r' } ((a, m) :: msgs) := by
  obtain ⟨-, hcur, -, -, hsa, hfa⟩ := noted_flags t m
  have hcons : (a, m) :: msgs ≠ [] := List.cons_ne_nil _ _
  have hmsgs : msgs ≠ [] := mt hok.syn.2 (by simp [hs])
  refine ⟨⟨fun _ => hcons, fun _ => h.noted_seenSyn hok⟩, fun _ => h.noted_isn hok (by simp [hs]),
    ⟨fun _ => hcons, fun _ => ?_⟩, fun _ => ?_, h.noted_seenFin, h.noted_finAccounted,
    hP.trans_le h.pushed_le, fun hx => absurd hx hcons⟩
  · exact hsa.trans (h.synAccounted.2 hmsgs)
  · show (t.noted m).curSeq = .wrap (1 + r'.output.totalPushed + (t.noted m).finAccounted.toNat) isn
    rw [hcur, hs, hP, hfa]
    exact h.curSeq hmsgs

/-- The SYN is counted with the first message, a FIN with the first message after it. -/
theorem Counted.accounted (h : Counted isn D t msgs) (hok : Orderly D msgs m)
    (hsyn : m.SYN = true → m.seqno = isn) (hmono : t.inbound.totalPushed ≤ r'.output.totalPushed)
    (hle : r'.output.totalPushed ≤ D.length) (hword : D.length < 2 ^ 64) :
    Counted isn D (account { t.noted m with reassembler := r' }) ((a, m) :: msgs) := by
  obtain ⟨hre, hi, hss, hsf, hsa, hfa, hc⟩ := account_fields { t.noted m with reassembler := r' }
  obtain ⟨-, hprev, -⟩ := noted_pushed t m
  have hcons : (a, m) :: msgs ≠ [] := List.cons_ne_nil _ _
  have hseen := h.noted_seenSyn hok
  have hinb : (account { t.noted m with reassembler := r' }).inbound = r'.output := by
    rw [inbound, hre]
  refine ⟨⟨fun _ => hcons, fun _ => hss.trans hseen⟩, fun _ => hi.trans (h.noted_isn hok hsyn),
    ⟨fun _ => hcons, fun _ => ?_⟩, fun _ => ?_, fun hf => h.noted_seenFin (hsf ▸ hf), fun hf => ?_,
    hinb ▸ hle, fun hx => absurd hx hcons⟩
  · rw [hsa]
    show (_ || (t.noted m).seenSyn) = true
    rw [hseen, Bool.or_true]
  · dsimp only [inbound, bytesPushed] at hc
    rw [hc, hinb, hfa, h.noted_curSeq hok hsyn, hprev, sub64_of_le hmono (by omega), Wrap32.wrap,
      Wrap32.wrap, Wrap32.add_add]
    refine congrArg (fun x : Nat => isn + x) ?_
    dsimp only
    rw [hseen]
    cases (t.noted m).synAccounted <;> cases (t.noted m).finAccounted <;>
      cases (t.noted m).seenFin <;> simp <;> omega
  · rw [hfa] at hf
    rw [hsf]
    exact (Bool.or_eq_true _ _ ▸ hf).elim h.noted_finAccounted id

/-- The counters keep in step with a message that either is accounted for or pushes nothing. -/
theorem Counted.receive (h : Counted isn D t msgs) (hok : Orderly D msgs m)
    (hsyn : m.SYN = true → m.seqno = isn) (hr : Received t m t')
    (hle : t'.inbound.totalPushed ≤ D.length) (hword : D.length < 2 ^ 64)
    (hins : (t.noted m).reassembler.insert ((t.noted m).insertIndex m) m.payload m.FIN = .ok r')
    (hahead : (t.noted m).isAhead m = true →
      m.SYN = false ∧ r'.output.totalPushed = t.inbound.totalPushed) :
    Counted isn D t' ((a, m) :: msgs) := by
  cases hr with
  | ahead ha hl =>
    obtain rfl := Outcome.leaves_ok.1 (hins ▸ hl)
    obtain ⟨hs, hP⟩ := hahead ha
    exact h.unmoved hok hs hP
  | thrown hl =>
    rw [hins] at hl; cases hl
  | accounted ha hl =>
    rw [inbound, (account_fields _).1] at hle
    exact h.accounted hok hsyn ((noted_pushed t m).1 ▸ (ends_insert (.inl hl)).mono) hle hword

/-! ### What it puts out -/

theorem delivered_of_exact (hE : ∃ A, Exact capacity D t.reassembler A (msgs.map callOf) out) :
    Delivered capacity D t msgs out := by
  refine ⟨fun _ => hE, fun hc => ?_⟩
  obtain ⟨A, hA⟩ := hE
  obtain ⟨hlast, hP⟩ := hA.isClosed_iff.1 hc
  have hlen := hA.knows.tracks.length
  refine ⟨?_, hP, ?_, fun k hk => ?_⟩
  · rw [inbound, hA.knows.split]
    exact hA.knows.agrees.out.eq_of_length (hlen.trans hP)
  · obtain ⟨c, hc, hF⟩ := hlast
    obtain ⟨x, hx, rfl⟩ := List.mem_map.1 hc
    exact ⟨x, hx, hF⟩
  · obtain ⟨c, hc, hcov⟩ := hA.isGreatest.1 k (hP ▸ hk)
    obtain ⟨x, hx, rfl⟩ := List.mem_map.1 hc
    exact ⟨x, hx, hcov⟩

/-- A message that finds the stream closed changes nothing of it. -/
theorem Delivered.receive_closed (h : Delivered capacity D t msgs out)
    (hc : t.inbound.isClosed = true)
    (hins : ((t.noted m).reassembler.insert ((t.noted m).insertIndex m) m.payload m.FIN).Leaves r')
    (heq : t'.reassembler = r') :
    Delivered capacity D t' ((a, m) :: msgs) out ∧
      r'.output.totalPushed = t.inbound.totalPushed := by
  obtain ⟨hq, hP, ⟨x, hx, hF⟩, hcov⟩ := h.closed hc
  have hk := kept_noted t m
  have hc' : (t.noted m).reassembler.output.isClosed = true := (noted_pushed t m).2.2.trans hc
  have hcl := (ends_insert hins).of_closed hc'
  have hP' : r'.output.totalPushed = t.inbound.totalPushed := hcl.2.trans (hk.pushed hc).1
  have hq' : r'.output.queued = t.inbound.queued :=
    ((ends_insert hins).queued_of_closed hc').trans (hk.pushed hc).2
  rw [← heq] at hcl
  refine ⟨⟨fun ho => absurd (hcl.1.symm.trans ho) (by simp), fun _ => ?_⟩, hP'⟩
  rw [inbound, heq, hq', hP']
  refine ⟨hq, hP, ⟨x, List.mem_cons_of_mem _ hx, hF⟩, fun k hk => ?_⟩
  obtain ⟨y, hy, hb⟩ := hcov k hk
  exact ⟨y, List.mem_cons_of_mem _ hy, hb⟩

/-- The FIN without payload ends the stream, of which all has been received. -/
theorem Fitted.receive_fin (h : Fitted capacity isn D t msgs out) (hD : D.length < 2 ^ 31 - 1)
    (hok : Orderly D msgs m) (ho : t.inbound.isClosed = false) (he : m.payload = [])
    (hF : m.FIN = true)
    (hins : ((t.noted m).reassembler.insert ((t.noted m).insertIndex m) m.payload m.FIN).Leaves r')
    (heq : t'.reassembler = r') : Delivered capacity D t' ((a, m) :: msgs) out := by
  obtain ⟨A, hA⟩ := h.noted (m := m) ho
  have ho' : (t.noted m).reassembler.output.isClosed = false := (noted_pushed t m).2.2.trans ho
  have hPn : (t.noted m).reassembler.output.totalPushed = t.inbound.totalPushed :=
    (noted_pushed t m).1
  have hP : t.inbound.totalPushed = D.length := by
    refine Nat.le_antisymm h.pushed_le ?_
    rw [← hPn]
    refine hA.isGreatest.2 fun k hk => ?_
    obtain ⟨x, hx, hb⟩ := hok.fin hF he k hk
    exact ⟨_, List.mem_map.2 ⟨x, hx, rfl⟩, hb⟩
  -- a FIN before this one would have closed the stream
  have hfa : t.finAccounted = false := Bool.eq_false_iff.2 fun hx => by
    obtain ⟨x, hx, hxF⟩ := h.seenFin (h.finAccounted hx)
    rw [hA.isClosed_iff.2 ⟨⟨_, List.mem_map.2 ⟨x, hx, rfl⟩, hxF⟩, hPn.trans hP⟩] at ho'
    cases ho'
  have hidx : (t.noted m).insertIndex m = D.length := by
    rw [h.index_empty hD hok he, hfa, hP]
    split
    next hs => rw [← hP, h.pushed_eq_zero (hok.syn.1 hs)]
    next => rfl
  rw [hidx, he, hF] at hins
  obtain ⟨hcl, A', hA'⟩ := hA.insert_last ho' (hPn.trans hP) hins
  obtain ⟨-, hP'⟩ := hA'.closed hcl
  rw [← heq] at hcl hP'
  refine ⟨fun ho => absurd (hcl.symm.trans ho) (by simp), fun _ => ⟨?_, hP', ?_, ?_⟩⟩
  · rw [inbound, heq, hA'.split]
    exact hA'.agrees.out.eq_of_length (hA'.tracks.length.trans (heq ▸ hP'))
  · exact ⟨_, List.mem_cons_self, hF⟩
  · intro k hk
    obtain ⟨x, hx, hb⟩ := hok.fin hF he k hk
    exact ⟨x, List.mem_cons_of_mem _ hx, hb⟩

/-- A message that carries nothing leaves the stream as it is. -/
theorem Delivered.receive_empty (h : Delivered capacity D t msgs out)
    (ho : t.inbound.isClosed = false) (he : m.payload = []) (hF : m.FIN = false)
    (hins : ((t.noted m).reassembler.insert ((t.noted m).insertIndex m) m.payload m.FIN).Leaves r')
    (heq : t'.reassembler = r') : Delivered capacity D t' ((a, m) :: msgs) out := by
  obtain ⟨A, hA⟩ := h.noted (m := m) ho
  rw [he, hF] at hins
  obtain ⟨A', hA'⟩ := hA.insert_nil ((noted_pushed t m).2.2.trans ho) hins
  exact delivered_of_exact (heq ▸ ⟨A', hA'.cons_nil he hF⟩)

/-- A payload that is ahead of the bytes pushed pushes nothing. -/
theorem Fitted.receive_payload (h : Fitted capacity isn D t msgs out) (hD : D.length < 2 ^ 31 - 1)
    (hw : m.WellFormed isn D a) (hok : Orderly D msgs m) (ho : t.inbound.isClosed = false)
    (hne : m.payload ≠ [])
    (hins : ((t.noted m).reassembler.insert ((t.noted m).insertIndex m) m.payload m.FIN).Leaves r')
    (heq : t'.reassembler = r') : Delivered capacity D t' ((a, m) :: msgs) out ∧
      (t.inbound.totalPushed < m.index a → r'.output.totalPushed = t.inbound.totalPushed) := by
  obtain ⟨A, hA⟩ := h.noted (m := m) ho
  have hcall : (callOf (a, m)).Fits D := ⟨piece_of_wellFormed hw hne, hw.fin⟩
  have hPn : (t.noted m).reassembler.output.totalPushed = t.inbound.totalPushed :=
    (noted_pushed t m).1
  obtain ⟨r'', A', hr'', hA'⟩ := hA.insert hcall hne
  rw [(h.index_payload hD hw hok hne).1] at hins
  obtain rfl : r'' = r' := Outcome.leaves_ok.1 (hr'' ▸ hins) ▸ rfl
  refine ⟨delivered_of_exact (heq ▸ ⟨A', hA'⟩), fun hlt => ?_⟩
  exact (hA.pushed_eq hA' (by rw [hPn]; exact hlt)).trans hPn

/-! ### One message -/

/-- Every message goes through: it ends at most one behind the stream, which is within the capacity. -/
theorem Fitted.insert (h : Fitted capacity isn D t msgs out) (hint : capacity < 2 ^ 31)
    (hfit : D.length < capacity) (hw : m.WellFormed isn D a) (hok : Orderly D msgs m) :
    ∃ r', (t.noted m).reassembler.insert ((t.noted m).insertIndex m) m.payload m.FIN = .ok r' := by
  have hP := h.pushed_le
  have hcap : (t.noted m).reassembler.output.capacity = capacity :=
    (kept_noted t m).capacity.trans h.capacity
  have hPn : (t.noted m).reassembler.output.totalPushed = t.inbound.totalPushed :=
    (noted_pushed t m).1
  refine (steady_noted h.steady).insert_fits (by omega) (by omega) ?_ _
  by_cases he : m.payload = []
  · have hfa := Bool.toNat_le t.finAccounted
    rw [h.index_empty (by omega) hok he, he, List.length_nil]
    split <;> omega
  · have := (piece_of_wellFormed hw he).bound
    rw [(h.index_payload (by omega) hw hok he).1]
    omega

/-- What has come of it. A message that is ahead of `cur_seq` moves nothing. -/
theorem Fitted.delivered (h : Fitted capacity isn D t msgs out) (hD : D.length < 2 ^ 31 - 1)
    (hw : m.WellFormed isn D a) (hok : Orderly D msgs m)
    (hins : ((t.noted m).reassembler.insert ((t.noted m).insertIndex m) m.payload m.FIN).Leaves r')
    (heq : t'.reassembler = r') : Delivered capacity D t' ((a, m) :: msgs) out ∧
      ((t.noted m).isAhead m = true →
        m.SYN = false ∧ r'.output.totalPushed = t.inbound.totalPushed) := by
  have hahead : (t.noted m).isAhead m = true → m.payload ≠ [] := fun ha he => by
    rw [isAhead_of_empty he] at ha; cases ha
  cases hc : t.inbound.isClosed with
  | true =>
    obtain ⟨hd, hP⟩ := h.receive_closed hc hins heq
    exact ⟨hd, fun ha => ⟨((h.index_payload hD hw hok (hahead ha)).2 ha).1, hP⟩⟩
  | false =>
    by_cases he : m.payload = []
    · refine ⟨?_, fun ha => absurd he (hahead ha)⟩
      cases hF : m.FIN with
      | true => exact h.receive_fin hD hok hc he hF hins heq
      | false => exact h.receive_empty hc he hF hins heq
    · obtain ⟨hd, hP⟩ := h.receive_payload hD hw hok hc he hins heq
      obtain ⟨-, hlt⟩ := h.index_payload hD hw hok he
      exact ⟨hd, fun ha => (hlt ha).imp_right hP⟩

theorem Fitted.receive (h : Fitted capacity isn D t msgs out) (hint : capacity < 2 ^ 31)
    (hfit : D.length < capacity) (hw : m.WellFormed isn D a) (hok : Orderly D msgs m)
    (hl : (t.receive m).Leaves t') : Fitted capacity isn D t' ((a, m) :: msgs) out := by
  rcases receive_cases hl with ⟨hs, hseen, -⟩ | ⟨-, hr⟩
  · -- only a SYN comes before the SYN
    have hmsgs : msgs ≠ [] := mt hok.syn.2 (by simp [hs])
    rw [h.seenSyn.2 hmsgs] at hseen; cases hseen
  obtain ⟨r', hins⟩ := h.insert hint hfit hw hok
  have heq : t'.reassembler = r' := by
    obtain ⟨r'', hl', heq⟩ := hr.leaves
    exact heq.trans (Outcome.leaves_ok.1 (hins ▸ hl'))
  obtain ⟨hd, hahead⟩ := h.delivered (by omega) hw hok (.inl hins) heq
  refine ⟨h.toCounted.receive hok hw.seqno_of_syn hr hd.pushed_le (by omega) hins hahead, hd, ?_, ?_⟩
  · exact heq ▸ ((steady_noted h.steady).insert_spec _ _ _).1 _ (.inl hins)
  · rw [inbound, heq, (ends_insert (.inl hins)).capacity]
    exact (kept_noted t m).capacity.trans h.capacity

/-- A message that goes through is received. -/
theorem Fitted.receives (h : Fitted capacity isn D t msgs out) (hint : capacity < 2 ^ 31)
    (hfit : D.length < capacity) (hw : m.WellFormed isn D a) (hok : Orderly D msgs m) :
    ∃ t', t.receive m = .ok t' := by
  obtain ⟨r', hins⟩ := h.insert hint hfit hw hok
  exact receive_of_insert hins

theorem Fitted.pop {o : ByteStream} (h : Fitted capacity isn D t msgs out)
    (hp : Popped t.inbound len o) :
    Fitted capacity isn D { t with reassembler := { t.reassembler with output := o } } msgs
      (out ++ t.inbound.queued.take len) := by
  have hP := hp.totalPushed
  refine ⟨⟨h.seenSyn, h.origin, h.synAccounted, fun hne => ?_, h.seenFin, h.finAccounted,
    hP.trans_le h.pushed_le, fun hx => hP.trans (h.pushed_eq_zero hx)⟩, ⟨fun ho => ?_, fun hc => ?_⟩,
    h.steady.pop hp, hp.capacity.trans h.capacity⟩
  · show t.curSeq = .wrap (1 + o.totalPushed + t.finAccounted.toNat) isn
    rw [hP]; exact h.curSeq hne
  · obtain ⟨A, hA⟩ := h.opened (hp.isClosed.symm.trans ho)
    exact ⟨A, hA.pop hp⟩
  · obtain ⟨hq, hP', hF, hcov⟩ := h.closed (hp.isClosed.symm.trans hc)
    refine ⟨?_, hP.trans hP', hF, hcov⟩
    show _ ++ o.queued = D
    rw [hp.queued, List.append_assoc, List.take_append_drop, hq]

theorem OrderlyRun.fitted (hint : capacity < 2 ^ 31) (hfit : D.length < capacity)
    (h : OrderlyRun capacity isn D t msgs out) : Fitted capacity isn D t msgs out := by
  induction h with
  | start =>
    have hE : ∃ A, Exact capacity D (ofStream { capacity }) A [] [] :=
      FitRun.exact (by omega) hint (by omega) .start
    refine ⟨⟨?_, fun h => absurd rfl h, ?_, fun h => absurd rfl h, fun h => (by cases h),
      fun h => (by cases h), Nat.zero_le _, fun _ => rfl⟩, delivered_of_exact hE,
      AnyRun.steady (by omega) (by omega) .start, rfl⟩ <;>
      simp [ofReassembler]
  | receive a m _ hw hok hl ih => exact ih.receive hint hfit hw hok hl
  | pop len _ hlen hpop ih => exact ih.pop (ih.steady.stream.popped hlen hpop)

theorem OrderlyRun.brings_lt (h : OrderlyRun capacity isn D t msgs out)
    {x : Nat × TCPSenderMessage} (hx : x ∈ msgs) {k : Nat} (hb : Brings x k) : k < D.length := by
  induction h with
  | start => cases hx
  | receive a m _ hw _ _ ih =>
    rcases List.mem_cons.1 hx with rfl | hx
    · have hlen := hw.bytes.length_le
      have : m.index a ≤ k ∧ k < m.index a + m.payload.length := hb
      rw [List.length_drop] at hlen
      omega
    · exact ih hx
  | pop _ _ _ _ ih => exact ih hx

/-- What has been put out is the longest prefix of the stream that has been received, the stream is
closed once it is all there and a FIN has come, and every further message is received. -/
theorem delivers_of_orderly (hint : capacity < 2 ^ 31) (hfit : D.length < capacity)
    (h : OrderlyRun capacity isn D t msgs out) :
    IsGreatest {n | ∀ k < n, ∃ x ∈ msgs, Brings x k} t.inbound.bytesPushed ∧
    out ++ t.inbound.queued = D.take t.inbound.bytesPushed ∧
    (t.inbound.isClosed = true ↔
      (∃ x ∈ msgs, x.2.FIN = true) ∧ t.inbound.bytesPushed = D.length) ∧
    ∀ a m, m.WellFormed isn D a → Orderly D msgs m → ∃ t', t.receive m = .ok t' := by
  have hf := h.fitted hint hfit
  have hrec : ∀ a m, m.WellFormed isn D a → Orderly D msgs m → ∃ t', t.receive m = .ok t' :=
    fun a m hw hok => hf.receives hint hfit hw hok
  cases hc : t.inbound.isClosed with
  | true =>
    obtain ⟨hq, hP, hF, hcov⟩ := hf.closed hc
    rw [bytesPushed, hP]
    refine ⟨⟨hcov, fun n hn => ?_⟩, by rw [List.take_length, hq], ⟨fun _ => ⟨hF, rfl⟩, fun _ => rfl⟩,
      hrec⟩
    exact Nat.le_of_not_lt fun hlt => by
      obtain ⟨x, hx, hb⟩ := hn D.length hlt
      have := h.brings_lt hx hb
      omega
  | false =>
    obtain ⟨A, hA⟩ := hf.opened hc
    have hset : {n | ∀ k < n, ∃ x ∈ msgs, Brings x k} =
        {n | ∀ k < n, ∃ c ∈ msgs.map callOf, c.Covers k} := by
      simp only [List.mem_map, Brings, exists_exists_and_eq_and]
    refine ⟨hset ▸ hA.isGreatest, ?_, ?_, hrec⟩
    · rw [inbound, hA.knows.split, List.prefix_iff_eq_take.1 hA.knows.agrees.out,
        hA.knows.tracks.length, bytesPushed]
    · have := hA.isClosed_iff
      simp only [List.mem_map, exists_exists_and_eq_and] at this
      rw [inbound] at hc ⊢
      rw [hc] at this
      exact this

/-- The last byte with the FIN, an empty segment, the first byte, and the FIN once more. -/
theorem delivers_of_orderly_ab :
    ∃ t msgs out, OrderlyRun 4 ⟨7⟩ [1, 2] t msgs out ∧ out ++ t.inbound.queued = [1, 2] ∧
      t.inbound.isClosed = true := by
  have h₀ : OrderlyRun 4 ⟨7⟩ [1, 2] _ _ _ := .start
  have h₁ := h₀.receive 0 { seqno := ⟨7⟩, SYN := true }
    ⟨rfl, by decide, by decide, by decide, by decide⟩ ⟨by decide, fun h => by cases h⟩ (.inl rfl)
  have h₂ := h₁.receive 2 { seqno := ⟨9⟩, payload := [2], FIN := true }
    ⟨rfl, by decide, by decide, by decide, by decide⟩ ⟨by decide, fun _ h => by cases h⟩ (.inl rfl)
  have h₃ := h₂.receive 5 { seqno := ⟨12⟩ }
    ⟨rfl, by decide, by decide, by decide, by decide⟩ ⟨by decide, fun h => by cases h⟩ (.inl rfl)
  have h₄ := h₃.receive 1 { seqno := ⟨8⟩, payload := [1] }
    ⟨rfl, by decide, by decide, by decide, by decide⟩ ⟨by decide, fun h => by cases h⟩ (.inl rfl)
  exact ⟨_, _, _, h₄, (delivers_of_orderly (by decide) (by decide) h₄).2.1, by decide⟩

end Minnow.TCPReceiver
