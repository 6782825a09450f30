import Minnow.SenderQueue

/-!
# How much one message carries

A message is filled chunk by chunk, each time with up to `MAX_PAYLOAD_SIZE` bytes, until its payload
has exactly that size. So the size is kept only if the chunks that the application wrote end where the
messages do (`Aligned`, `payload_le_of_aligned`); from a stream of other chunks everything that the
window lets through goes into one message (`payload_overflows`).
-/

namespace Minnow

namespace ByteStream
variable {s s' : ByteStream} {c : Bytes} {chunks rest : List Bytes} {k x : Nat}

/-- A chunk begins or ends `x` bytes into the chunks. -/
def Cut : List Bytes → Nat → Prop
  | [], x => x = 0
  | c :: rest, x => x = 0 ∨ (c.length ≤ x ∧ Cut rest (x - c.length))

/-- The first cut is at the end of the front chunk. -/
theorem Cut.length_le (h : Cut (c :: rest) x) (hx : 0 < x) : c.length ≤ x := by
  rcases h with h | h
  · omega
  · exact h.1

theorem cut_zero (chunks : List Bytes) : Cut chunks 0 := by
  cases chunks with
  | nil => rfl
  | cons c rest => exact .inl rfl

theorem cut_length (c : Bytes) (rest : List Bytes) : Cut (c :: rest) c.length :=
  .inr ⟨Nat.le_refl _, by rw [Nat.sub_self]; exact cut_zero rest⟩

/-- Without the front chunk the cuts move to the front by its length. -/
theorem cut_tail (hx : 0 < x) : Cut rest x ↔ Cut (c :: rest) (c.length + x) := by
  rw [Cut, Nat.add_sub_cancel_left]
  exact ⟨fun h => .inr ⟨Nat.le_add_right _ _, h⟩, fun h => (h.resolve_left (by omega)).2⟩

/-- Without a part of the front chunk they move by as much. -/
theorem cut_drop (hk : k < c.length) (hx : 0 < x) :
    Cut (c.drop k :: rest) x ↔ Cut (c :: rest) (k + x) := by
  rw [Cut, Cut, List.length_drop, show x - (c.length - k) = k + x - c.length by omega]
  exact or_congr (by omega) (and_congr_left fun _ => by omega)

/-- Popping no more than the front chunk. -/
theorem pop_front (hd : s.deck = c :: rest) (hpos : 0 < k) (hk : k ≤ c.length)
    (hpop : s.pop k = some s') :
    s'.deck = if k = c.length then rest else c.drop k :: rest := by
  have hfuel : s.deck.length + 2 = (rest.length + 1) + 1 + 1 := by rw [hd]; rfl
  rw [pop, if_neg (by rw [hd]; exact List.cons_ne_nil _ _), hfuel, Prog.loop, popBody,
    if_neg (Nat.ne_of_lt hpos), hd] at hpop
  simp only [Nat.sub_zero, Nat.zero_add] at hpop
  -- the second pass finds all `k` bytes removed
  by_cases hkc : k = c.length
  · rw [if_pos hkc]
    rw [if_pos (Nat.le_of_eq hkc.symm)] at hpop
    dsimp only at hpop
    rw [Prog.loop, popBody, if_pos hkc.symm] at hpop
    cases hpop
    rfl
  · rw [if_neg hkc]
    rw [if_neg (by omega)] at hpop
    dsimp only at hpop
    rw [Prog.loop, popBody, if_pos (by rw [List.length_drop]; omega)] at hpop
    cases hpop
    rfl

/-- Popping no more than the front chunk moves the cuts. -/
theorem cut_pop (hk : k ≤ s.peek.length) (hpos : 0 < k) (hpop : s.pop k = some s') (hx : 0 < x) :
    Cut s'.deck x ↔ Cut s.deck (k + x) := by
  unfold peek at hk
  cases hd : s.deck with
  | nil => rw [hd, List.length_nil] at hk; omega
  | cons c rest =>
    rw [hd] at hk
    dsimp only at hk
    rw [pop_front hd hpos hk hpop]
    split
    next heq => rw [heq]; exact cut_tail hx
    next hne => exact cut_drop (by omega) hx

theorem deck_of_peek (h : s.peek ≠ []) : ∃ rest, s.deck = s.peek :: rest := by
  unfold peek at h ⊢
  cases hd : s.deck with
  | nil => rw [hd] at h; exact absurd rfl h
  | cons c rest => exact ⟨rest, rfl⟩

end ByteStream

namespace TCPSender
open Prog ByteStream

/-- How many bytes a call of `push` can send: what is buffered, as far as the window has room. -/
def sendable (s : TCPSender) : Nat :=
  min s.input.bytesBuffered (s.curWinSize - (s.sequenceNumbersInFlight + (!s.synSent).toNat))

/-- Wherever a full message ends with more to send behind it, a chunk ends too, or one chunk reaches
from the beginning of the message to its end. -/
def Aligned (s : TCPSender) : Prop :=
  ∀ j, maxPayloadSize * (j + 1) < s.sendable →
    Cut s.input.deck (maxPayloadSize * (j + 1)) ∨
      ∀ x, maxPayloadSize * j < x → x < maxPayloadSize * (j + 1) → ¬ Cut s.input.deck x

variable {s s' : TCPSender} {m msg msg' : TCPSenderMessage} {input input' : ByteStream}
  {sent out : List TCPSenderMessage} {n : Nat}

/-- What the inner loop has done in an aligned sender: the payload ends with a chunk, or is as long as
it can be. -/
structure Portion (s : TCPSender) (input : ByteStream) (payload : Bytes) : Prop where
  le_sendable : payload.length ≤ s.sendable
  le_max : payload.length ≤ maxPayloadSize
  cuts : ∀ x, 0 < x → (Cut input.deck x ↔ Cut s.input.deck (payload.length + x))
  ends : payload.length = 0 ∨ payload.length = s.sendable ∨ payload.length = maxPayloadSize ∨
    Cut s.input.deck payload.length

/-- What is in flight with the message that is being filled. -/
theorem Filled.inFlightWith_eq (hf : Filled s s.startMessage n input msg) (hwf : s.input.Wf) :
    s.inFlightWith msg =
      s.sequenceNumbersInFlight + (!s.synSent).toNat + n + s.setsFin.toNat := by
  have hlen := hf.length hwf
  have hstart : s.startMessage.sequenceLength = (!s.synSent).toNat + 0 + s.setsFin.toNat := rfl
  rw [inFlightWith]
  omega

/-- What is taken next does not make the payload too long: it ends with a chunk, so an aligned stream
has one that ends with the message. -/
theorem Portion.add_le_max {payload chunk : Bytes} {rest : List Bytes} {k : Nat} (hal : s.Aligned)
    (hp : Portion s input payload) (hdeck : input.deck = chunk :: rest) (hk : k ≤ chunk.length)
    (hsend : payload.length + k ≤ s.sendable) (hkmax : k ≤ maxPayloadSize)
    (hne : payload.length ≠ maxPayloadSize) : payload.length + k ≤ maxPayloadSize := by
  have hle := hp.le_max
  have hends := hp.ends
  rcases Nat.eq_zero_or_pos payload.length with h0 | hpos
  · omega
  rcases Nat.lt_or_ge maxPayloadSize s.sendable with hlt | hge
  swap
  · omega
  have hcut : Cut s.input.deck payload.length :=
    ((hends.resolve_left (by omega)).resolve_left (by omega)).resolve_left hne
  have hfull : Cut s.input.deck maxPayloadSize := by
    rcases hal 0 (by omega) with hc | hno
    · rwa [Nat.zero_add, Nat.mul_one] at hc
    · exact absurd hcut (hno _ (by omega) (by omega))
  have hnext : Cut input.deck (maxPayloadSize - payload.length) := by
    rw [hp.cuts _ (by omega), Nat.add_sub_cancel' hle]
    exact hfull
  rw [hdeck] at hnext
  have := hnext.length_le (by omega)
  omega

theorem Portion.takes (h : Ready s) (hal : s.Aligned) (hw : s.curWinSize ≠ 0)
    (hf : Filled s s.startMessage n input msg) (hp : Portion s input msg.payload)
    (ht : Takes s input msg input' msg') : Portion s input' msg'.payload := by
  have hn := hf.length_payload h.stream
  have hfly := hf.inFlightWith_eq h.stream
  have hbuf := hf.popped.bytesInDeck h.stream
  have hbound := hf.bound
  obtain ⟨hroom, hrem⟩ := ht.room hw h.window
  have hmore : input.bytesBuffered ≠ 0 ∧ msg.payload.length ≠ maxPayloadSize := by
    constructor <;> intro h0 <;> refine ht.more (.inl ⟨?_, hw⟩)
    · exact .inr (.inl h0)
    · exact .inr (.inr h0)
  have hF : s.setsFin = false := Bool.eq_false_iff.2 fun hF => by
    have := h.bytesBuffered_of_FIN hF
    rw [bytesBuffered] at hmore this
    omega
  rw [hF, Bool.toNat_false] at hfly
  have hpeek : input.peek ≠ [] := fun h0 => ht.nonempty (by rw [h0, List.take_nil])
  obtain ⟨rest, hdeck⟩ := deck_of_peek hpeek
  have hkpos := List.length_pos_iff.2 ht.nonempty
  have hklen : (input.peek.take (s.remaining msg)).length = min (s.remaining msg) input.peek.length :=
    List.length_take ..
  have hpop := ht.pop
  have hpay : msg'.payload.length =
      msg.payload.length + (input.peek.take (s.remaining msg)).length := by
    rw [ht.msg, withPayload, List.length_append]
  generalize (input.peek.take (s.remaining msg)).length = k at *
  have hpre := (peek_prefix_queued input).length_le
  rw [← hf.popped.wf.buffered] at hpre
  have hsend : s.sendable = min s.input.bytesBuffered
      (s.curWinSize - (s.sequenceNumbersInFlight + (!s.synSent).toNat)) := rfl
  rw [bytesBuffered] at *
  have hfit : msg.payload.length + k ≤ s.sendable := by omega
  have hshort := hp.add_le_max hal hdeck (by omega) hfit (by omega) hmore.2
  refine ⟨by omega, by omega, fun x hx => ?_, ?_⟩
  · rw [cut_pop (by omega) hkpos hpop hx, hp.cuts _ (by omega), hpay, Nat.add_assoc]
  · rw [hpay]
    rcases Nat.lt_or_ge k input.peek.length with hpart | hwhole
    · -- it ends where the window does, or it is full
      omega
    · have hcut := cut_length input.peek rest
      rw [← hdeck, show input.peek.length = k by omega, hp.cuts _ hkpos] at hcut
      exact .inr (.inr (.inr hcut))

/-- Where the inner loop ends in an aligned sender, with a positive window. -/
theorem Ready.fill_portion (h : Ready s) (hal : s.Aligned) (hw : s.curWinSize ≠ 0)
    (hf : s.fill s.startMessage = some (input, msg)) :
    Portion s input msg.payload ∧
      (msg.payload.length = s.sendable ∨ msg.payload.length = maxPayloadSize) := by
  refine loop_inv
    (fun p => (∃ n, Filled s s.startMessage n p.1 p.2) ∧ Portion s p.1 p.2.payload)
    (fun p => Portion s p.1 p.2.payload ∧
      (p.2.payload.length = s.sendable ∨ p.2.payload.length = maxPayloadSize)) ?_ ?_
    ⟨⟨0, Filled.refl h.stream⟩, ⟨Nat.zero_le _, Nat.zero_le _, fun x _ => ?_, .inl rfl⟩⟩ hf
  · rintro ⟨i, x⟩ ⟨i', x'⟩ ⟨⟨n, hn⟩, hp⟩ hb
    obtain ⟨n', hn', -⟩ := fillBody_next h.stream h.window rfl h.bytesBuffered_of_FIN hn hb
    exact ⟨⟨n', hn'⟩, hp.takes h hal hw hn (fillBody_takes hb)⟩
  · rintro ⟨i, x⟩ r ⟨⟨n, hn⟩, hp⟩ hb
    obtain ⟨hstop, rfl⟩ := fillBody_exit hb
    refine ⟨hp, ?_⟩
    dsimp only at hn hp hstop ⊢
    have hlen := hn.length_payload h.stream
    have hfly := hn.inFlightWith_eq h.stream
    have hbuf := hn.popped.bytesInDeck h.stream
    have hbound := hn.bound
    have hle := hp.le_sendable
    have hsend : s.sendable = min s.input.bytesBuffered
        (s.curWinSize - (s.sequenceNumbersInFlight + (!s.synSent).toNat)) := rfl
    rcases hstop with ⟨hfull | hempty | hmax, -⟩ | ⟨hz, -⟩ | ⟨hz, -⟩
    · -- a FIN set before the loop means that there is nothing to send
      cases hF : s.setsFin with
      | true => have := h.bytesBuffered_of_FIN hF; omega
      | false => rw [hF, Bool.toNat_false] at hfly; omega
    · rw [bytesBuffered] at *
      omega
    · exact .inr hmax
    · exact absurd hz hw
    · exact absurd hz hw
  · show _ ↔ Cut s.input.deck (0 + x)
    rw [Nat.zero_add]

/-! ### The messages of a call of `push` -/

/-- What is left is aligned again. -/
theorem Aligned.transmits (h : s.Aligned) (hr : Ready s) (ht : Transmits s m s')
    (hp : Portion s s'.input m.payload)
    (hend : m.payload.length = s.sendable ∨ m.payload.length = maxPayloadSize) : s'.Aligned := by
  have hbuf := ht.popped.bytesInDeck hr.stream
  have hB : s'.bytesInQueue = s.bytesInQueue + m.sequenceLength := by rw [ht.state]
  have hW : s'.curWinSize = s.curWinSize := by rw [ht.state]
  have hlen : m.sequenceLength = (!s.synSent).toNat + m.payload.length + m.FIN.toNat := by
    rw [← ht.syn]; rfl
  have hle : s'.sendable ≤ s.sendable - m.payload.length := by
    simp only [sendable, sequenceNumbersInFlight, bytesBuffered]
    omega
  intro j hj
  have hfull : m.payload.length = maxPayloadSize := hend.resolve_left fun h0 => by omega
  have hcuts := hp.cuts
  rw [hfull] at hle hcuts
  have hshift : maxPayloadSize * (j + 1 + 1) = maxPayloadSize + maxPayloadSize * (j + 1) := by
    rw [Nat.mul_succ]; omega
  rcases h (j + 1) (by omega) with hc | hno
  · left
    rw [hcuts _ (by rw [maxPayloadSize]; omega), ← hshift]
    exact hc
  · right
    intro x h1 h2
    rw [hcuts x (by omega)]
    exact hno _ (by rw [Nat.mul_succ]; omega) (by omega)

theorem Aligned.pass (h : s.Aligned) (hr : Ready s) (ht : Transmits s m s')
    (hb : pushBody (s, sent) = .exit (s', sent ++ [m]) ∨
      pushBody (s, sent) = .next (s', sent ++ [m])) :
    m.payload.length ≤ maxPayloadSize ∧ s'.Aligned := by
  by_cases hz : s.curWinSize = 0
  · -- a probe carries one byte
    have hW : s'.curWinSize = s.curWinSize := by rw [ht.state]
    refine ⟨?_, fun j hj => ?_⟩
    · by_cases hne : m.payload = []
      · rw [hne]; exact Nat.zero_le _
      · have h1 := (ht.probe hz hne).2
        rw [TCPSenderMessage.sequenceLength] at h1
        rw [maxPayloadSize]; omega
    · rw [sendable, hW, hz] at hj
      omega
  · obtain ⟨⟨msg, hf, hm⟩, -⟩ := hr.pushBody_sends hb
    have hpay : m.payload = msg.payload := by rw [hm]; rfl
    obtain ⟨hp, hend⟩ := hr.fill_portion h hz hf
    rw [← hpay] at hp hend
    exact ⟨hp.le_max, h.transmits hr ht hp hend⟩

theorem Aligned.push (h : s.Aligned) (hr : Ready s) (hp : s.push = some (s', out)) :
    ∀ m ∈ out, m.payload.length ≤ maxPayloadSize := by
  have add : ∀ {out : List TCPSenderMessage} {m}, (∀ m ∈ out, m.payload.length ≤ maxPayloadSize) →
      m.payload.length ≤ maxPayloadSize → ∀ x ∈ out ++ [m], x.payload.length ≤ maxPayloadSize := by
    intro out m hout hm x hx
    rcases List.mem_append.1 hx with hx | hx
    · exact hout x hx
    · exact List.mem_singleton.1 hx ▸ hm
  refine hr.push_rule (fun t out => t.Aligned ∧ ∀ m ∈ out, m.payload.length ≤ maxPayloadSize)
    (fun _ out => ∀ m ∈ out, m.payload.length ≤ maxPayloadSize) ⟨h, by simp⟩ ?_ ?_
    (fun _ _ _ hi _ => hi.2) hp
  · rintro t out m t' ht ⟨hal, hout⟩ hu hb -
    obtain ⟨hm, hal'⟩ := hal.pass ht hu (.inr hb)
    exact ⟨hal', add hout hm⟩
  · rintro t out m t' ht ⟨hal, hout⟩ hu hb
    exact add hout (hal.pass ht hu (.inl hb)).1

/-! ### Whole runs -/

/-- The senders with a given capacity and all that `push` and `tick` have transmitted, where `push` is
only called in states that satisfy `Ok`. -/
inductive SendRun (capacity : Nat) (isn : Wrap32) (rto : Nat) (Ok : TCPSender → Prop) :
    TCPSender → List TCPSenderMessage → Prop
  | start : SendRun capacity isn rto Ok { input := { capacity }, isn, initialRTO := rto } []
  | write {s : TCPSender} {out : List TCPSenderMessage} (data : Bytes)
      (h : SendRun capacity isn rto Ok s out) :
      SendRun capacity isn rto Ok { s with input := s.input.push data } out
  | close {s : TCPSender} {out : List TCPSenderMessage} (h : SendRun capacity isn rto Ok s out) :
      SendRun capacity isn rto Ok { s with input := s.input.close } out
  | setError {s : TCPSender} {out : List TCPSenderMessage} (h : SendRun capacity isn rto Ok s out) :
      SendRun capacity isn rto Ok { s with input := s.input.setError } out
  | push {s s' : TCPSender} {out new : List TCPSenderMessage} (h : SendRun capacity isn rto Ok s out)
      (hok : Ok s) (hp : s.push = some (s', new)) : SendRun capacity isn rto Ok s' (out ++ new)
  | tick {s : TCPSender} {out : List TCPSenderMessage} (ms : Nat)
      (h : SendRun capacity isn rto Ok s out) :
      SendRun capacity isn rto Ok (s.tick ms).1 (out ++ (s.tick ms).2)
  | receive {s s' : TCPSender} {out : List TCPSenderMessage} (msg : TCPReceiverMessage)
      (h : SendRun capacity isn rto Ok s out) (hr : s.receive msg = .ok s') :
      SendRun capacity isn rto Ok s' out

variable {capacity rto : Nat} {isn : Wrap32} {Ok : TCPSender → Prop}

theorem SendRun.run (h : SendRun capacity isn rto Ok s out) :
    ∃ acc sent cleared, SenderRun capacity isn rto s acc sent cleared := by
  induction h with
  | start => exact ⟨_, _, _, .start⟩
  | write data _ ih => obtain ⟨_, _, _, h⟩ := ih; exact ⟨_, _, _, h.write data⟩
  | close _ ih => obtain ⟨_, _, _, h⟩ := ih; exact ⟨_, _, _, h.close⟩
  | setError _ ih => obtain ⟨_, _, _, h⟩ := ih; exact ⟨_, _, _, h.setError⟩
  | push _ _ hp ih => obtain ⟨_, _, _, h⟩ := ih; exact ⟨_, _, _, h.push hp⟩
  | tick ms _ ih => obtain ⟨_, _, _, h⟩ := ih; exact ⟨_, _, _, h.tick ms⟩
  | receive msg _ hr ih => obtain ⟨_, _, _, h⟩ := ih; exact ⟨_, _, _, h.receive msg hr⟩

/-- What `tick` transmits is the front of the queue. -/
theorem tick_mem {ms : Nat} (hm : m ∈ (s.tick ms).2) : m ∈ s.msgQueue := by
  unfold TCPSender.tick at hm
  split at hm
  · cases hm
  next front rest hq =>
    dsimp only at hm
    split at hm
    · rw [hq, List.mem_singleton.1 hm]; exact List.mem_cons_self
    · cases hm

/-- What holds of all that `push` transmits holds of all that is queued, and of all that is transmitted
again. -/
theorem SendRun.forall_mem (hcap : capacity < 2 ^ 64) (h : SendRun capacity isn rto Ok s out)
    (P : TCPSenderMessage → Prop)
    (hpush : ∀ t t' new, Ready t → Ok t → t.push = some (t', new) → ∀ m ∈ new, P m) :
    (∀ m ∈ s.msgQueue, P m) ∧ ∀ m ∈ out, P m := by
  induction h with
  | start => exact ⟨by simp, by simp⟩
  | write data _ ih => exact ih
  | close _ ih => exact ih
  | setError _ ih => exact ih
  | push h hok hp ih =>
    obtain ⟨_, _, _, hrun⟩ := h.run
    have hr := (hrun.inv hcap).ready
    have hnew := hpush _ _ _ hr hok hp
    rw [(hr.push_sends hp).queue]
    exact ⟨fun m hm => (List.mem_append.1 hm).elim (ih.1 m) (hnew m),
      fun m hm => (List.mem_append.1 hm).elim (ih.2 m) (hnew m)⟩
  | tick ms _ ih =>
    obtain ⟨t, c, heq⟩ := tick_eq _ ms
    refine ⟨by rw [heq]; exact ih.1, fun m hm => (List.mem_append.1 hm).elim (ih.2 m) fun hm => ?_⟩
    exact ih.1 m (tick_mem hm)
  | receive msg h hr ih =>
    obtain ⟨_, _, _, hrun⟩ := h.run
    have hi := hrun.inv hcap
    obtain ⟨gone, ha⟩ := receive_acks hi.inFlight hi.inFlight_lt hr
    exact ⟨fun m hm => ih.1 m (ha.queue ▸ List.mem_append_right _ hm), ih.2⟩

/-- Where the chunks end with the messages, no message that `push` or `tick` transmits exceeds the
maximal size. -/
theorem payload_le_of_aligned (hcap : capacity < 2 ^ 64)
    (h : SendRun capacity isn rto Aligned s out) :
    ∀ m ∈ out, m.payload.length ≤ maxPayloadSize :=
  (h.forall_mem hcap (·.payload.length ≤ maxPayloadSize) fun _ _ _ hr hal hp => hal.push hr hp).2

/-- A SYN, then a write of 1000 bytes and one of 400, which end where the messages do. -/
theorem payload_le_of_aligned_abc : ∃ s out, SendRun 2000 ⟨7⟩ 1000 Aligned s out ∧
    out.map (·.payload.length) = [0, 1000, 400] ∧
    ∀ m ∈ out, m.payload.length ≤ maxPayloadSize := by
  have h₀ : SendRun 2000 ⟨7⟩ 1000 Aligned _ _ := .start
  have h₁ := h₀.push (fun j hj => absurd hj (Nat.not_lt_zero _)) rfl
  have h₂ : SendRun 2000 ⟨7⟩ 1000 Aligned
      { input := { capacity := 2000 }, isn := ⟨7⟩, initialRTO := 1000, synSent := true,
        curWinSize := 1500 }
      _ := h₁.receive { ackno := some ⟨8⟩, windowSize := 1500 } (by decide)
  have h₃ := (h₂.write (List.replicate 1000 1)).write (List.replicate 400 2)
  have sent : ∀ {s : TCPSender} {out}, SendRun 2000 ⟨7⟩ 1000 Aligned s out → s.Aligned →
      s.push.map (fun r => r.2.map (·.payload.length)) = some [1000, 400] →
      ∃ s new, SendRun 2000 ⟨7⟩ 1000 Aligned s (out ++ new) ∧
        new.map (·.payload.length) = [1000, 400] := by
    intro s out h hal hlen
    obtain ⟨⟨s', new⟩, hp, hlen⟩ := Option.map_eq_some_iff.1 hlen
    exact ⟨_, _, h.push hal hp, hlen⟩
  obtain ⟨s, new, h, hlen⟩ := sent h₃ (fun j hj => by
    rw [show TCPSender.sendable _ = 1400 by decide +kernel, maxPayloadSize] at hj
    obtain rfl : j = 0 := by omega
    rw [show ByteStream.deck _ = [List.replicate 1000 1, List.replicate 400 2] by decide +kernel,
      show maxPayloadSize * (0 + 1) = (List.replicate 1000 (1 : Byte)).length by
        rw [List.length_replicate, maxPayloadSize]]
    exact .inl (cut_length _ _)) (by decide +kernel)
  exact ⟨s, _, h, by rw [List.map_append, hlen]; rfl, payload_le_of_aligned (by decide) h⟩

/-- Two writes of 600 bytes go into one message. -/
theorem payload_overflows : ∃ s out, SendRun 2000 ⟨7⟩ 1000 (fun _ => True) s out ∧
    ∃ m ∈ out, m.payload.length = 1200 := by
  have h₀ : SendRun 2000 ⟨7⟩ 1000 (fun _ => True) _ _ := .start
  have h₁ := h₀.push trivial rfl
  have h₂ : SendRun 2000 ⟨7⟩ 1000 (fun _ => True)
      { input := { capacity := 2000 }, isn := ⟨7⟩, initialRTO := 1000, synSent := true,
        curWinSize := 1500 }
      _ := h₁.receive { ackno := some ⟨8⟩, windowSize := 1500 } (by decide)
  have sent : ∀ {s : TCPSender} {out}, SendRun 2000 ⟨7⟩ 1000 (fun _ => True) s out →
      s.push.map (fun r => r.2.map (·.payload.length)) = some [1200] →
      ∃ s out, SendRun 2000 ⟨7⟩ 1000 (fun _ => True) s out ∧ ∃ m ∈ out, m.payload.length = 1200 := by
    intro s out h hlen
    obtain ⟨⟨s', new⟩, hp, hlen⟩ := Option.map_eq_some_iff.1 hlen
    obtain ⟨m, rfl, hm⟩ := List.map_eq_singleton_iff.1 hlen
    exact ⟨_, _, h.push trivial hp, m, List.mem_append_right _ List.mem_cons_self, hm⟩
  exact sent ((h₂.write (List.replicate 600 1)).write (List.replicate 600 2)) (by decide +kernel)

end TCPSender

end Minnow
