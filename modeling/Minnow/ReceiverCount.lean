import Minnow.Delivery
import Minnow.ReceiverAck

/-!
# What the acknowledgment number counts

A second SYN sets `cur_seq` back, so it may stay behind what has been pushed, but it never gets ahead
of it (`Counts`) as long as no FIN is counted before it closes the stream (`FinTimely`).
-/

namespace Minnow.TCPReceiver
open Prog Reassembler ByteStream

/-- `cur_seq` is the 32-bit number of `n`, and `n` counts nothing that has not been pushed. -/
structure Counts (isn : Wrap32) (t : TCPReceiver) (n : Nat) : Prop where
  seq : t.seenSyn = true → t.curSeq = .wrap n isn
  bound : n ≤ t.synAccounted.toNat + t.inbound.totalPushed + t.finAccounted.toNat
  fin : t.finAccounted = true → t.inbound.isClosed = true

/-- A message that is not ahead while a FIN is waiting to be counted brings in all that was missing. -/
def FinTimely (t : TCPReceiver) (a : Nat) (m : TCPSenderMessage) : Prop :=
  m.FIN = true ∨ t.seenFin = true → t.finAccounted = false → m.SYN = true ∨ t.seenSyn = true →
    t.inbound.isClosed = false → (t.noted m).isAhead m = false →
      (m.FIN = true ∨ t.reassembler.seenLast = true ∧ m.payload ≠ []) ∧
        m.index a ≤ t.inbound.bytesPushed ∧
        Completes t.reassembler (m.index a) m.payload
          (if m.FIN then m.index a + m.payload.length else t.reassembler.totalLen)

instance (t : TCPReceiver) (a : Nat) (m : TCPSenderMessage) : Decidable (FinTimely t a m) :=
  inferInstanceAs (Decidable (_ → _ → _ → _ → _ → _ ∧ _ ∧ _))

variable {t t' : TCPReceiver} {m : TCPSenderMessage} {r' : Reassembler} {isn w : Wrap32}
  {D out : Bytes} {a n : Nat} {A : Assembly Byte}

theorem counts_ofReassembler (r : Reassembler) (isn : Wrap32) : Counts isn (ofReassembler r) 0 :=
  ⟨fun h => (by cases h), Nat.zero_le _, fun h => (by cases h)⟩

/-- The `ackno` that is sent stands for a number of which all has been pushed. -/
theorem Counts.ackno (h : Counts isn t n) (hw : t.send.ackno = some w) :
    w = .wrap n isn ∧ n ≤ 1 + t.inbound.totalPushed + t.inbound.isClosed.toNat := by
  unfold send at hw
  dsimp only at hw
  split at hw
  · cases hw
  next hs =>
    cases hw
    have hb := h.bound
    have hsa := Bool.toNat_le t.synAccounted
    refine ⟨h.seq (by simpa using hs), ?_⟩
    cases hf : t.finAccounted with
    | false => rw [hf, Bool.toNat_false] at hb; omega
    | true => rw [hf, Bool.toNat_true] at hb; rw [h.fin hf, Bool.toNat_true]; omega

theorem Counts.pop {o : ByteStream} {len : Nat} (h : Counts isn t n)
    (hp : Popped t.inbound len o) :
    Counts isn { t with reassembler := { t.reassembler with output := o } } n := by
  refine ⟨h.seq, ?_, fun hf => hp.isClosed.trans (h.fin hf)⟩
  show n ≤ _ + o.totalPushed + _
  rw [hp.totalPushed]; exact h.bound

/-- A call adds to `cur_seq`, from where the message's SYN leaves it, no more than is pushed and
newly accounted for. -/
theorem Received.adds (h : Received t m t') (hP : t'.inbound.totalPushed < 2 ^ 64) :
    ∃ d, t'.curSeq = (if m.SYN then m.seqno else t.curSeq) + d ∧
      d + (t.synAccounted.toNat + t.inbound.totalPushed + t.finAccounted.toNat) ≤
        t'.synAccounted.toNat + t'.inbound.totalPushed + t'.finAccounted.toNat := by
  obtain ⟨-, hcur, -, -, hsa, hfa⟩ := noted_flags t m
  obtain ⟨hPn, hprev, -⟩ := noted_pushed t m
  have mono : ∀ {r' : Reassembler},
      ((t.noted m).reassembler.insert ((t.noted m).insertIndex m) m.payload m.FIN).Leaves r' →
      t.inbound.totalPushed ≤ r'.output.totalPushed := by
    intro r' hl
    exact hPn ▸ (ends_insert hl).mono
  have unmoved : ∀ {r' : Reassembler}, t.inbound.totalPushed ≤ r'.output.totalPushed →
      ∃ d, (t.noted m).curSeq = (if m.SYN then m.seqno else t.curSeq) + d ∧
        d + (t.synAccounted.toNat + t.inbound.totalPushed + t.finAccounted.toNat) ≤
          (t.noted m).synAccounted.toNat + r'.output.totalPushed +
            (t.noted m).finAccounted.toNat := by
    intro r' hle
    refine ⟨0, by rw [hcur, Wrap32.add_zero], ?_⟩
    rw [hsa, hfa]; omega
  cases h with
  | ahead ha hl => exact unmoved (mono hl)
  | thrown hl => exact unmoved (mono (.inr ⟨_, hl⟩))
  | @accounted r' ha hl =>
    have hle := mono (.inl hl)
    obtain ⟨hr, -, -, -, hsa', hfa', hc⟩ := account_fields { t.noted m with reassembler := r' }
    have hinb : (account { t.noted m with reassembler := r' }).inbound = r'.output := by
      rw [inbound, hr]
    rw [hinb] at hP
    refine ⟨r'.output.totalPushed - t.inbound.totalPushed +
      ((t.noted m).seenSyn && !(t.noted m).synAccounted).toNat +
      ((t.noted m).seenFin && !(t.noted m).finAccounted).toNat, ?_, ?_⟩
    · rw [hc, inbound, bytesPushed]
      dsimp only
      rw [hprev, sub64_of_le hle hP, hcur]
    rw [hsa', hfa', hinb]
    dsimp only
    rw [hsa, hfa]
    cases t.synAccounted <;> cases t.finAccounted <;> cases (t.noted m).seenSyn <;>
      cases (t.noted m).seenFin <;> simp <;> omega

/-- A message that brings the FIN or bytes occupies sequence numbers, and goes to its own place. -/
theorem index_of_carries (hlast : m.FIN = true ∨ m.payload ≠ []) (hD : D.length < 2 ^ 63)
    (hisn : t.seenSyn = true → t.isn = isn) (hw : 0 < m.sequenceLength → m.WellFormed isn D a)
    (hproc : m.SYN = true ∨ t.seenSyn = true) (ho : t.inbound.isClosed = false)
    (hp : PayloadSafe t a m) (hf : FinSafe t a m) :
    m.WellFormed isn D a ∧ (t.noted m).insertIndex m = m.index a := by
  have hwf : m.WellFormed isn D a := by
    refine hw ?_
    rw [TCPSenderMessage.sequenceLength]
    rcases hlast with hF | hne
    · rw [hF, Bool.toNat_true]; omega
    · have := List.length_pos_iff.2 hne; omega
  refine ⟨hwf, ?_⟩
  by_cases hne : m.payload = []
  · have hF := hlast.resolve_right fun h => h hne
    have h1 := hf.index hwf hD hisn hproc ho hF
    have h2 := hwf.fin hF
    omega
  · exact hp.index hD hisn hwf hproc ho hne

/-- A timely message that is accounted for with a FIN closes the stream. -/
theorem FinTimely.closes (ht : FinTimely t a m) (hk : t.reassembler.Knows D A out)
    (hD : D.length < 2 ^ 63) (hisn : t.seenSyn = true → t.isn = isn)
    (hw : 0 < m.sequenceLength → m.WellFormed isn D a) (hproc : m.SYN = true ∨ t.seenSyn = true)
    (ho : t.inbound.isClosed = false) (hp : PayloadSafe t a m) (hf : FinSafe t a m)
    (hfin : m.FIN = true ∨ t.seenFin = true) (hfa : t.finAccounted = false)
    (ha : (t.noted m).isAhead m = false)
    (hl : (t.noted m).reassembler.insert ((t.noted m).insertIndex m) m.payload m.FIN = .ok r') :
    r'.output.isClosed = true := by
  obtain ⟨hlast, hle, hcomp⟩ := ht hfin hfa hproc ho ha
  have hk₀ := kept_noted t m
  obtain ⟨hwf, hidx⟩ := index_of_carries (hlast.imp_right And.right) hD hisn hw hproc ho hp hf
  have htotal : (if m.FIN then m.index a + m.payload.length else t.reassembler.totalLen) =
      D.length := by
    split
    next hF => exact hwf.fin hF
    next hF => exact hk.total (hlast.resolve_left hF).1
  rw [htotal] at hcomp
  rw [hidx] at hl
  have hsafe : t.reassembler.Safe (m.index a) m.payload := by
    by_cases hne : m.payload = []
    · rw [hne]; exact hk.tracks.safe_nil _
    · exact (hp hne hproc ho).2.2
  have hPle : t.inbound.totalPushed ≤ D.length := hk.pushed_le
  have hlen := hwf.length_payload_le
  rcases noted_insert_spec hk.tracks hsafe (by omega) (by omega) ho (.inl hl) with
    ⟨-, A', xs, hins⟩ | ⟨-, -, hlt | ⟨-, hthrow⟩⟩
  · have hseen : r'.seenLast = true := by
      rw [hins.seenLast, hk₀.seenLast, Bool.or_eq_true]
      exact hlast.symm.imp_left And.left
    have hend : r'.totalLen = D.length := by
      rw [hins.totalLen, endAfter, hk₀.totalLen]
      split
      next hF => rw [add64_of_lt (by have := hwf.fin hF; omega)]; exact hwf.fin hF
      next hF => exact hk.total (hlast.resolve_left hF).1
    have hpushed := (completes_noted.2 hcomp).pushed (tracks_noted hk.tracks) hins
    rw [inserted_isClosed ho hins, hseen, hpushed, hend, decide_eq_true rfl, Bool.and_self]
  · rw [bytesPushed] at hle
    omega
  · rw [hl] at hthrow; cases hthrow

theorem receive_isClosed (hl : (t.receive m).Leaves t') (hc : t.inbound.isClosed = true) :
    t'.inbound.isClosed = true := by
  rcases receive_cases hl with ⟨-, -, rfl⟩ | ⟨-, hr⟩
  · split <;> exact hc
  · obtain ⟨r', hins, heq⟩ := hr.leaves
    rw [inbound, heq]
    exact ((ends_insert hins).of_closed ((noted_pushed t m).2.2.trans hc)).1

/-- A message that newly accounts for the FIN closes the stream. -/
theorem Counts.closed (h : Counts isn t n) (hd : Delivers isn D t out) (hD : D.length < 2 ^ 63)
    (hw : 0 < m.sequenceLength → m.WellFormed isn D a) (hp : PayloadSafe t a m)
    (hf : FinSafe t a m) (ht : FinTimely t a m) (hproc : m.SYN = true ∨ t.seenSyn = true)
    (hr : Received t m t') (hfa' : t'.finAccounted = true) (hc : t.inbound.isClosed = false) :
    t'.inbound.isClosed = true := by
  have hfa : t.finAccounted = false := by
    cases hfa : t.finAccounted with
    | false => rfl
    | true => rw [h.fin hfa] at hc; cases hc
  have hnoted := (noted_flags t m).2.2.2.2.2.trans hfa
  cases hr with
  | ahead | thrown => exact absurd (hnoted.symm.trans hfa') (by simp)
  | @accounted r' ha hl =>
    obtain ⟨A, hA⟩ := hd.opened hc
    obtain ⟨hre, -, -, -, -, hfa'', -⟩ := account_fields { t.noted m with reassembler := r' }
    rw [hfa''] at hfa'
    have hfin : m.FIN = true ∨ t.seenFin = true := by
      rw [← Bool.or_eq_true, ← (noted_flags t m).2.2.2.1]
      exact (Bool.or_eq_true _ _ ▸ hfa').resolve_left (by simp [hnoted])
    rw [inbound, hre]
    exact ht.closes hA hD hd.isn hw hproc hc hp hf hfin hfa ha hl

/-- What the number counts after a message, followed through 32 bits. -/
theorem Counts.receive (h : Counts isn t n) (hd : Delivers isn D t out) (hD : D.length < 2 ^ 63)
    (hw : 0 < m.sequenceLength → m.WellFormed isn D a) (hp : PayloadSafe t a m)
    (hf : FinSafe t a m) (ht : FinTimely t a m) (hl : (t.receive m).Leaves t') :
    Counts isn t' (if m.SYN then (t'.curSeq.rawValue - m.seqno.rawValue).toNat
      else n + (t'.curSeq.rawValue - t.curSeq.rawValue).toNat) := by
  have hP := (hd.receive hD hw hp hf hl).1.pushed_le
  have hclosed := receive_isClosed hl
  rcases receive_cases hl with ⟨hs, hseen, rfl⟩ | ⟨hproc, hr⟩
  · have hsame : Counts isn (if m.RST then t.setError else t) n := by
      split <;> exact ⟨h.seq, h.bound, h.fin⟩
    have hcur : (if m.RST then t.setError else t).curSeq = t.curSeq := by split <;> rfl
    rw [hs, hcur]
    simpa using hsame
  obtain ⟨d, hcur, hsum⟩ := hr.adds (by omega)
  have hb := h.bound
  have hmod := Nat.mod_le d (2 ^ 32)
  refine ⟨fun hs => ?_, ?_, fun hfa' => ?_⟩
  · rw [hcur]
    cases hs : m.SYN with
    | true =>
      have hpos : 0 < m.sequenceLength := by
        rw [TCPSenderMessage.sequenceLength, hs, Bool.toNat_true]; omega
      have hseq := (hw hpos).seqno_of_syn hs
      rw [if_pos rfl, if_pos rfl, Wrap32.sub_add, hseq, Wrap32.wrap, Wrap32.add_eq_add_iff]
      exact (Nat.mod_mod d _).symm
    | false =>
      have hseq := h.seq (hproc.resolve_left (by simp [hs]))
      rw [if_neg (by simp), if_neg (by simp), Wrap32.sub_add, hseq, Wrap32.wrap, Wrap32.wrap,
        Wrap32.add_add, Wrap32.add_eq_add_iff]
      omega
  · rw [hcur]
    split <;> rw [Wrap32.sub_add] <;> omega
  · cases hc : t.inbound.isClosed with
    | true => exact hclosed hc
    | false => exact h.closed hd hD hw hp hf ht hproc hr hfa' hc

end Minnow.TCPReceiver
