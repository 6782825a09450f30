import Minnow.SenderFill
import Minnow.SenderPayload
import Minnow.SenderTimer

/-!
# Messages that occupy no sequence number

After the inner loop `push` looks at the flag of the sender, `fin`, where it means that of the message.
So with the FIN outstanding and the window full to the last number (`FinFills`) every call of `push`
transmits and queues a message without length. In runs that do not call it there none is transmitted
(`positive_of_notFinFills`).
-/

namespace Minnow.TCPSender
open Prog ByteStream

/-- The FIN is outstanding, and what is in flight fills a positive window exactly. -/
def FinFills (s : TCPSender) : Prop :=
  s.finQueued = true ∧ s.finReceived = false ∧ 0 < s.curWinSize ∧
    s.sequenceNumbersInFlight = s.curWinSize

instance (s : TCPSender) : Decidable s.FinFills := inferInstanceAs (Decidable (_ ∧ _))

variable {s s' : TCPSender} {isn : Wrap32} {acc : Bytes} {sent out new : List TCPSenderMessage}
  {m : TCPSenderMessage} {capacity rto : Nat} {cleared : List (TCPSenderMessage × Nat)}

/-- Behind a FIN that fills the window comes a message with nothing in it. -/
theorem length_startMessage_of_finFills (h : Ready s) (hf : s.FinFills) :
    s.setsFin = false ∧ s.startMessage.sequenceLength = 0 := by
  obtain ⟨hq, -, hw, hB⟩ := hf
  have hS := (h.finished hq).2
  have hset : s.setsFin = false := by
    have hlen : s.inFlightWith { SYN := !s.synSent } = s.sequenceNumbersInFlight := by
      rw [hS]; exact Nat.zero_add _
    unfold setsFin
    rw [hlen, hB, decide_eq_false (Nat.lt_irrefl _), decide_eq_false (Nat.ne_of_gt hw)]
    exact Bool.and_false _
  refine ⟨hset, ?_⟩
  show (!s.synSent).toNat + 0 + s.setsFin.toNat = 0
  rw [hS, hset]
  rfl

theorem Ready.pushBody_idle (h : Ready s) (hf : s.FinFills) (sent : List TCPSenderMessage) :
    ∃ u, pushBody (s, sent) = .exit (u, sent ++ [s.startMessage]) := by
  obtain ⟨hset, hlen⟩ := length_startMessage_of_finFills h hf
  obtain ⟨hq, hr, hw, hB⟩ := hf
  have hfly : s.inFlightWith s.startMessage = s.curWinSize := by
    rw [inFlightWith, hlen, Nat.zero_add, hB]
  have hstop : s.Stops s.input s.startMessage :=
    .inl ⟨.inl (Nat.le_of_eq hfly.symm), Nat.ne_of_gt hw⟩
  have hfill : s.fill s.startMessage = some (s.input, s.startMessage) := by
    rw [fill, loop, fillBody_eq, if_pos hstop]
  have hend : (s.begun s.input).endMessage s.startMessage = s.startMessage := by
    have hroom : decide ((s.begun s.input).inFlightWith s.startMessage < s.curWinSize) = false :=
      decide_eq_false (Nat.not_lt.2 (Nat.le_of_eq hfly.symm))
    rw [endMessage, show (s.begun s.input).curWinSize = s.curWinSize from rfl, hroom, Bool.and_false,
      Bool.or_false]
  have hfin : (s.begun s.input).fin = true := by
    show (s.fin || s.setsFin) = true
    rw [h.fin, hq, Bool.true_or]
  rw [pushBody_eq, hfill]
  swap
  · rintro (⟨-, -, hF⟩ | ⟨-, hr'⟩)
    · rw [h.fin, hq] at hF; cases hF
    · rw [hr] at hr'; cases hr'
  dsimp only
  rcases (s.begun s.input).pushEnd_cases (m := s.startMessage) (fun _ => hfin) with
    ⟨hret, -⟩ | ⟨-, hpe⟩
  · rw [hend] at hret
    rcases hret with ⟨hF, -⟩ | ⟨hlt, -⟩ | ⟨-, -, hF⟩
    · rw [show s.startMessage.FIN = false from hset] at hF; cases hF
    · exact absurd hfly (Nat.ne_of_gt hlt)
    · rw [hfin] at hF; cases hF
  · -- what is in flight still fills the window, so the pass is the last one
    rw [hpe, hend, hlen]
    dsimp only
    rw [if_pos (.inr hB)]
    exact ⟨_, rfl⟩

/-- A pass transmits a message without length only behind a FIN that fills the window. -/
theorem Ready.finFills_of_empty (h : Ready s) (ht : Transmits s m s')
    (hb : pushBody (s, sent) = .exit (s', sent ++ [m]) ∨
      pushBody (s, sent) = .next (s', sent ++ [m])) (h0 : m.sequenceLength = 0) : s.FinFills := by
  have hq := ht.empty h0
  obtain ⟨hdone, hS⟩ := h.finished hq
  have hset : s.setsFin = false := Bool.eq_false_iff.2 fun hF => by
    have := h.finQueued_of_pushBody hb hS hF
    rw [hq] at this; cases this
  have hfull := full_of_setsFin hS hset hdone
  have hw : s.curWinSize ≠ 0 := by
    intro hz
    rw [setsFin_of_zero hz, hdone] at hset; cases hset
  have hfit := ht.window hw
  rw [inFlightWith, h0] at hfit
  refine ⟨hq, ?_, by omega, by omega⟩
  by_contra hr
  rw [h.pushBody_returns sent (.inr ⟨by rw [h.fin, hq, Bool.true_or], Bool.not_eq_false _ ▸ hr⟩)] at hb
  exact hb.elim exit_append_ne fun hb => by cases hb

theorem Ready.push_positive_iff (h : Ready s) (hp : s.push = some (s', out)) :
    (∀ m ∈ out, 0 < m.sequenceLength) ↔ ¬ s.FinFills := by
  constructor
  · intro hall hf
    obtain ⟨u, hb⟩ := h.pushBody_idle hf []
    rw [push, loop, hb] at hp
    cases hp
    have := hall s.startMessage List.mem_cons_self
    rw [(length_startMessage_of_finFills h hf).2] at this
    exact Nat.lt_irrefl 0 this
  · intro hf
    have snoc : ∀ {t t' : TCPSender} {out m}, Ready t → ¬ t.FinFills → Transmits t m t' →
        (pushBody (t, out) = .exit (t', out ++ [m]) ∨
          pushBody (t, out) = .next (t', out ++ [m])) →
        (∀ x ∈ out, 0 < x.sequenceLength) → ∀ x ∈ out ++ [m], 0 < x.sequenceLength := by
      intro t t' out m hr hf ht hb hout x hx
      rcases List.mem_append.1 hx with hx | hx
      · exact hout x hx
      · rw [List.mem_singleton.1 hx]
        exact Nat.pos_of_ne_zero fun h0 => hf (hr.finFills_of_empty ht hb h0)
    refine h.push_rule (fun t out => ¬ t.FinFills ∧ ∀ m ∈ out, 0 < m.sequenceLength)
      (fun _ out => ∀ m ∈ out, 0 < m.sequenceLength) ⟨hf, by simp⟩ ?_ ?_
      (fun _ _ _ hi _ => hi.2) hp
    · -- a pass that goes on has bytes left to send, so the FIN has not been queued
      rintro t out m t' hr ⟨hf, hout⟩ ht hb hmore
      refine ⟨fun hf' => hmore ?_, snoc hr hf ht (.inr hb) hout⟩
      exact ht.popped.wf.bytesInDeck_of_isFinished ((ht.ready hr).finished hf'.1).1
    · rintro t out m t' hr ⟨hf, hout⟩ ht hb
      exact snoc hr hf ht (.inl hb) hout

/-! ### Whole runs -/

theorem eq_nil_iff_span (h : ∀ m ∈ sent, 0 < m.sequenceLength) : sent = [] ↔ span sent = 0 := by
  refine ⟨fun hn => by rw [hn, span_nil], fun h0 => ?_⟩
  cases sent with
  | nil => rfl
  | cons m ms =>
    have := h m List.mem_cons_self
    rw [span_cons] at h0
    omega

/-- Where `push` is not called with a window that the FIN fills, no message without length is
transmitted or queued, and nothing is transmitted again when nothing is in flight; the next call
transmits none either, unless the FIN fills the window then. -/
theorem positive_of_notFinFills (hcap : capacity < 2 ^ 64)
    (h : SendRun capacity isn rto (fun s => ¬ s.FinFills) s out) :
    (∀ m ∈ out, 0 < m.sequenceLength) ∧ (∀ m ∈ s.msgQueue, 0 < m.sequenceLength) ∧
    (s.msgQueue = [] ↔ s.sequenceNumbersInFlight = 0) ∧
    (s.sequenceNumbersInFlight = 0 → ∀ ms, (s.tick ms).2 = []) ∧
    ∀ s' new, s.push = some (s', new) →
      ((∀ m ∈ new, 0 < m.sequenceLength) ↔ ¬ s.FinFills) := by
  obtain ⟨_, _, _, hrun⟩ := h.run
  have hi := hrun.inv hcap
  obtain ⟨hqueue, hout⟩ := h.forall_mem hcap (0 < ·.sequenceLength)
    fun _ _ _ hr hf hp => (hr.push_positive_iff hp).2 hf
  have hnil : s.msgQueue = [] ↔ s.sequenceNumbersInFlight = 0 := by
    rw [sequenceNumbersInFlight, hi.inFlight]
    exact eq_nil_iff_span hqueue
  exact ⟨hout, hqueue, hnil, fun h0 ms => by rw [tick_nil (hnil.2 h0) ms],
    fun s' new hp => hi.ready.push_positive_iff hp⟩

/-- The SYN, and then a byte with the FIN behind it in a window of three; a further call of `push`
transmits nothing. -/
theorem positive_of_notFinFills_a : ∃ s out, SendRun 4 ⟨7⟩ 1000 (fun s => ¬ s.FinFills) s out ∧
    out.length = 2 ∧ s.finQueued = true ∧ (∀ m ∈ out, 0 < m.sequenceLength) ∧
    (s.msgQueue = [] ↔ s.sequenceNumbersInFlight = 0) := by
  have h₀ : SendRun 4 ⟨7⟩ 1000 (fun s => ¬ s.FinFills) _ _ := .start
  have h₁ := h₀.push (by decide) rfl
  have h₂ : SendRun 4 ⟨7⟩ 1000 (fun s => ¬ s.FinFills)
      { input := { capacity := 4 }, isn := ⟨7⟩, initialRTO := 1000, synSent := true, curWinSize := 3 }
      _ := h₁.receive { ackno := some ⟨8⟩, windowSize := 3 } (by decide)
  have h₃ : SendRun 4 ⟨7⟩ 1000 (fun s => ¬ s.FinFills)
      { input := { capacity := 4, isClosed := true, totalPushed := 1, totalPopped := 1 }, isn := ⟨7⟩,
        initialRTO := 1000, synSent := true, curWinSize := 3, fin := true, finQueued := true,
        msgQueue := [⟨⟨8⟩, false, [1], true, false⟩], bytesInQueue := 2 }
      _ := (h₂.write [1]).close.push (by decide) rfl
  have h₄ := h₃.push (by decide) rfl
  have h := positive_of_notFinFills (by decide) h₄
  exact ⟨_, _, h₄, rfl, rfl, h.1, h.2.2.1⟩

/-- The FIN fills a window of one. A second call of `push` queues a message without length, which stays
when the FIN has been acknowledged, and is transmitted again with nothing in flight. -/
theorem push_idle : (∃ s s' m sent cleared, SenderRun 4 ⟨7⟩ 1000 s [] sent cleared ∧
      s.push = some (s', [m]) ∧ m.sequenceLength = 0) ∧
    ∃ s m sent cleared, SenderRun 4 ⟨7⟩ 1000 s [] sent cleared ∧
      s.sequenceNumbersInFlight = 0 ∧ s.msgQueue = [m] ∧ (s.tick 1000).2 = [m] := by
  have h₀ : SenderRun 4 ⟨7⟩ 1000 _ _ _ _ := .start
  have h₁ := h₀.push rfl
  have h₂ : SenderRun 4 ⟨7⟩ 1000
      { input := { capacity := 4 }, isn := ⟨7⟩, initialRTO := 1000, synSent := true, curWinSize := 1 }
      [] _ _ := h₁.receive { ackno := some ⟨8⟩, windowSize := 1 } (by decide)
  have h₃ : SenderRun 4 ⟨7⟩ 1000
      { input := { capacity := 4, isClosed := true }, isn := ⟨7⟩, initialRTO := 1000, synSent := true,
        curWinSize := 1, fin := true, finQueued := true, msgQueue := [⟨⟨8⟩, false, [], true, false⟩],
        bytesInQueue := 1 } [] _ _ := h₂.close.push rfl
  have h₄ : SenderRun 4 ⟨7⟩ 1000
      { input := { capacity := 4, isClosed := true }, isn := ⟨7⟩, initialRTO := 1000, synSent := true,
        curWinSize := 1, fin := true, finQueued := true,
        msgQueue := [⟨⟨8⟩, false, [], true, false⟩, ⟨⟨8⟩, false, [], false, false⟩],
        bytesInQueue := 1 } [] _ _ := h₃.push rfl
  have h₅ : SenderRun 4 ⟨7⟩ 1000
      { input := { capacity := 4, isClosed := true }, isn := ⟨7⟩, initialRTO := 1000, synSent := true,
        curWinSize := 1, fin := true, finQueued := true, finReceived := true,
        msgQueue := [⟨⟨8⟩, false, [], false, false⟩] } [] _ _ :=
    h₄.receive { ackno := some ⟨9⟩, windowSize := 1 } (by decide)
  exact ⟨⟨_, _, _, _, _, h₃, rfl, rfl⟩, _, _, _, _, h₅, rfl, rfl, by decide⟩

end Minnow.TCPSender
