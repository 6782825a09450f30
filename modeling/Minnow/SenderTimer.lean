import Minnow.SenderRun

/-!
# When the sender transmits again

`TimedRun` keeps a history of what a caller sees of the ticks and receipts. How long something has been
outstanding (`elapsed`) and how often the oldest message has been sent again (`resends`) are read off the
history alone; the two counters of the sender agree with them whatever comes in between, and they decide
what a tick transmits (`tick_law`).
-/

namespace Minnow.TCPSender
open Prog ByteStream

/-- What a caller sees of a call: the milliseconds of a tick, whether the queue held anything then and
whether something was transmitted; or whether a receipt took a message off the queue and whether the
window that it advertised was zero. -/
inductive Event
  | tick (ms : Nat) (outstanding resent : Bool)
  | receive (removed zeroWindow : Bool)
deriving Repr, DecidableEq

/-! ### What the history says, the last event first -/

/-- The last window that was advertised, if there was one, was zero. -/
def windowIsZero : List Event → Bool
  | [] => false
  | .tick .. :: hist => windowIsZero hist
  | .receive _ zeroWindow :: _ => zeroWindow

/-- The milliseconds ticked with something in the queue since the start, the last receipt that took a
message off it and the last retransmission. -/
def elapsed : List Event → Nat
  | [] => 0
  | .tick ms outstanding resent :: hist =>
    if resent then 0 else if outstanding then elapsed hist + ms else elapsed hist
  | .receive removed _ :: hist => if removed then 0 else elapsed hist

/-- The retransmissions since a receipt last took a message off the queue, without those at a window of
zero. -/
def resends : List Event → Nat
  | [] => 0
  | .tick _ _ resent :: hist =>
    if resent = true ∧ windowIsZero hist = false then resends hist + 1 else resends hist
  | .receive removed _ :: hist => if removed then 0 else resends hist

/-- The senders of a given capacity and timeout, with the history. Calls that are not in the history
have no business with the timer. -/
inductive TimedRun (capacity : Nat) (isn : Wrap32) (rto : Nat) : TCPSender → List Event → Prop
  | start : TimedRun capacity isn rto { input := { capacity }, isn, initialRTO := rto } []
  | write {s : TCPSender} {hist : List Event} (data : Bytes) (h : TimedRun capacity isn rto s hist) :
      TimedRun capacity isn rto { s with input := s.input.push data } hist
  | close {s : TCPSender} {hist : List Event} (h : TimedRun capacity isn rto s hist) :
      TimedRun capacity isn rto { s with input := s.input.close } hist
  | setError {s : TCPSender} {hist : List Event} (h : TimedRun capacity isn rto s hist) :
      TimedRun capacity isn rto { s with input := s.input.setError } hist
  | push {s s' : TCPSender} {hist : List Event} {out : List TCPSenderMessage}
      (h : TimedRun capacity isn rto s hist) (hp : s.push = some (s', out)) :
      TimedRun capacity isn rto s' hist
  | tick {s : TCPSender} {hist : List Event} (ms : Nat) (h : TimedRun capacity isn rto s hist) :
      TimedRun capacity isn rto (s.tick ms).1
        (.tick ms (!s.msgQueue.isEmpty) (!(s.tick ms).2.isEmpty) :: hist)
  | receive {s s' : TCPSender} {hist : List Event} (msg : TCPReceiverMessage)
      (h : TimedRun capacity isn rto s hist) (hr : s.receive msg = .ok s') :
      TimedRun capacity isn rto s'
        (.receive (decide (s'.msgQueue.length < s.msgQueue.length)) (decide (msg.windowSize = 0)) ::
          hist)

variable {s s' : TCPSender} {isn : Wrap32} {queue out : List TCPSenderMessage} {hist : List Event}
  {msg : TCPReceiverMessage} {capacity rto ms : Nat}

theorem TimedRun.run (h : TimedRun capacity isn rto s hist) :
    ∃ acc sent cleared, SenderRun capacity isn rto s acc sent cleared := by
  induction h with
  | start => exact ⟨_, _, _, .start⟩
  | write data _ ih => obtain ⟨_, _, _, h⟩ := ih; exact ⟨_, _, _, h.write data⟩
  | close _ ih => obtain ⟨_, _, _, h⟩ := ih; exact ⟨_, _, _, h.close⟩
  | setError _ ih => obtain ⟨_, _, _, h⟩ := ih; exact ⟨_, _, _, h.setError⟩
  | push _ hp ih => obtain ⟨_, _, _, h⟩ := ih; exact ⟨_, _, _, h.push hp⟩
  | tick ms _ ih => obtain ⟨_, _, _, h⟩ := ih; exact ⟨_, _, _, h.tick ms⟩
  | receive msg _ hr ih => obtain ⟨_, _, _, h⟩ := ih; exact ⟨_, _, _, h.receive msg hr⟩

/-! ### What one call does to the timer -/

/-- The timer and what it is compared with. -/
structure SameTimer (s s' : TCPSender) : Prop where
  timeSinceLastSend : s'.timeSinceLastSend = s.timeSinceLastSend
  consecRetransmissions : s'.consecRetransmissions = s.consecRetransmissions
  winAdvertisedZero : s'.winAdvertisedZero = s.winAdvertisedZero
  initialRTO : s'.initialRTO = s.initialRTO

theorem Sends.sameTimer (hs : Sends s out s') : SameTimer s s' := by
  induction hs with
  | nil => exact ⟨rfl, rfl, rfl, rfl⟩
  | snoc _ ht ih => rw [ht.state]; exact ⟨ih.1, ih.2, ih.3, ih.4⟩

/-- The loop in `receive` starts the timer anew with every message that it removes. -/
theorem receiveLoop_timer (hr : receiveLoop msg queue s = .ok s') :
    s'.winAdvertisedZero = s.winAdvertisedZero ∧ s'.initialRTO = s.initialRTO ∧
    ((s'.msgQueue = queue ∧ s'.timeSinceLastSend = s.timeSinceLastSend ∧
        s'.consecRetransmissions = s.consecRetransmissions) ∨
      (s'.msgQueue.length < queue.length ∧ s'.timeSinceLastSend = 0 ∧
        s'.consecRetransmissions = 0)) := by
  induction queue generalizing s with
  | nil => cases hr; exact ⟨rfl, rfl, .inl ⟨rfl, rfl, rfl⟩⟩
  | cons front rest ih =>
    rw [receiveLoop] at hr
    split at hr
    · cases hr
    dsimp only at hr
    split at hr
    swap
    · cases hr; exact ⟨rfl, rfl, .inl ⟨rfl, rfl, rfl⟩⟩
    obtain ⟨hz, hrto, hloop⟩ := ih hr
    refine ⟨hz, hrto, .inr ?_⟩
    rw [List.length_cons]
    rcases hloop with ⟨hq, ht, hc⟩ | ⟨hlt, ht, hc⟩
    · exact ⟨by rw [hq]; exact Nat.lt_succ_self _, ht, hc⟩
    · exact ⟨Nat.lt_succ_of_lt hlt, ht, hc⟩

theorem tick_nil (h : s.msgQueue = []) (ms : Nat) : s.tick ms = (s, []) := by
  unfold TCPSender.tick
  rw [h]

/-- A tick that reaches the timeout. -/
theorem tick_resends {front : TCPSenderMessage} {rest : List TCPSenderMessage}
    (h : s.msgQueue = front :: rest)
    (hms : s.initialRTO * 2 ^ s.consecRetransmissions ≤ s.timeSinceLastSend + ms) :
    s.tick ms = ({ s with
      timeSinceLastSend := 0
      consecRetransmissions :=
        if s.winAdvertisedZero = false then s.consecRetransmissions + 1
        else s.consecRetransmissions }, [front]) := by
  unfold TCPSender.tick
  rw [h]
  dsimp only
  rw [if_pos hms]
  cases s.winAdvertisedZero <;> rfl

theorem tick_waits (h : s.msgQueue ≠ [])
    (hms : s.timeSinceLastSend + ms < s.initialRTO * 2 ^ s.consecRetransmissions) :
    s.tick ms = ({ s with timeSinceLastSend := s.timeSinceLastSend + ms }, []) := by
  unfold TCPSender.tick
  split
  next hq => exact absurd hq h
  next =>
    dsimp only
    rw [if_neg (Nat.not_le.2 hms)]

/-! ### Whole runs -/

/-- The counters are what the history says, and the timeout has not been reached. -/
structure Timed (rto : Nat) (s : TCPSender) (hist : List Event) : Prop where
  time : s.timeSinceLastSend = elapsed hist
  count : s.consecRetransmissions = resends hist
  zero : s.winAdvertisedZero = windowIsZero hist
  timeout : s.initialRTO = rto
  below : elapsed hist < rto * 2 ^ resends hist

theorem Timed.same (h : Timed rto s hist) (hs : SameTimer s s') : Timed rto s' hist :=
  ⟨hs.timeSinceLastSend.trans h.time, hs.consecRetransmissions.trans h.count,
    hs.winAdvertisedZero.trans h.zero, hs.initialRTO.trans h.timeout, h.below⟩

/-- A tick transmits the front of the queue when the timeout has been reached. -/
theorem Timed.tick_transmits (h : Timed rto s hist) (ms : Nat) : (s.tick ms).2 =
    if s.msgQueue ≠ [] ∧ rto * 2 ^ resends hist ≤ elapsed hist + ms then s.msgQueue.take 1
    else [] := by
  rw [← h.timeout, ← h.count, ← h.time]
  cases hq : s.msgQueue with
  | nil => rw [tick_nil hq, if_neg (fun hc => hc.1 rfl)]
  | cons front rest =>
    rcases Nat.lt_or_ge (s.timeSinceLastSend + ms)
      (s.initialRTO * 2 ^ s.consecRetransmissions) with hlt | hge
    · rw [tick_waits (by simp [hq]) hlt, if_neg (fun hc => Nat.not_le.2 hlt hc.2)]
    · rw [tick_resends hq hge]
      exact (if_pos ⟨List.cons_ne_nil _ _, hge⟩).symm

theorem Timed.tick (h : Timed rto s hist) (hrto : 0 < rto) (ms : Nat) :
    Timed rto (s.tick ms).1 (.tick ms (!s.msgQueue.isEmpty) (!(s.tick ms).2.isEmpty) :: hist) := by
  obtain ⟨ht, hc, hz, hto, hlt⟩ := h
  cases hq : s.msgQueue with
  | nil =>
    rw [tick_nil hq]
    exact ⟨ht, hc, hz, hto, hlt⟩
  | cons front rest =>
    rcases Nat.lt_or_ge (s.timeSinceLastSend + ms)
      (s.initialRTO * 2 ^ s.consecRetransmissions) with hw | hge
    · rw [tick_waits (by simp [hq]) hw]
      rw [ht, hc, hto] at hw
      exact ⟨congrArg (· + ms) ht, hc, hz, hto, hw⟩
    · rw [tick_resends hq hge]
      refine ⟨rfl, ?_, hz, hto, Nat.mul_pos hrto (Nat.two_pow_pos _)⟩
      show (if s.winAdvertisedZero = false then _ else _) =
        if true = true ∧ windowIsZero hist = false then _ else _
      rw [hz, hc]
      simp only [true_and]

theorem Timed.receive (h : Timed rto s hist) (hrto : 0 < rto) (hr : s.receive msg = .ok s') :
    Timed rto s' (.receive (decide (s'.msgQueue.length < s.msgQueue.length))
      (decide (msg.windowSize = 0)) :: hist) := by
  obtain ⟨ht, hc, hz, hto, hlt⟩ := h
  obtain ⟨hz', hto', hloop⟩ := receiveLoop_timer hr
  rw [noteWindow_eq] at hz' hto' hloop
  rcases hloop with ⟨hq, ht', hc'⟩ | ⟨hless, ht', hc'⟩
  · rw [hq, decide_eq_false (Nat.lt_irrefl _)]
    exact ⟨ht'.trans ht, hc'.trans hc, hz', hto'.trans hto, hlt⟩
  · rw [decide_eq_true hless]
    refine ⟨ht', hc', hz', hto'.trans hto, ?_⟩
    show 0 < rto * 2 ^ 0
    rwa [Nat.pow_zero, Nat.mul_one]

theorem TimedRun.timed (hcap : capacity < 2 ^ 64) (hrto : 0 < rto)
    (h : TimedRun capacity isn rto s hist) : Timed rto s hist := by
  induction h with
  | start => exact ⟨rfl, rfl, rfl, rfl, Nat.mul_pos hrto (Nat.two_pow_pos _)⟩
  | write data _ ih => exact ih.same ⟨rfl, rfl, rfl, rfl⟩
  | close _ ih => exact ih.same ⟨rfl, rfl, rfl, rfl⟩
  | setError _ ih => exact ih.same ⟨rfl, rfl, rfl, rfl⟩
  | push h hp ih =>
    obtain ⟨_, _, _, hrun⟩ := h.run
    exact ih.same ((hrun.inv hcap).ready.push_sends hp).sameTimer
  | tick ms _ ih => exact ih.tick hrto ms
  | receive msg _ hr ih => exact ih.receive hrto hr

/-- In every run the counter is the number of retransmissions, the time is the time outstanding and
below the timeout, and a tick that reaches the timeout transmits the oldest message and nothing else. -/
theorem tick_law (hcap : capacity < 2 ^ 64) (hrto : 0 < rto)
    (h : TimedRun capacity isn rto s hist) :
    s.consecRetransmissions = resends hist ∧ s.timeSinceLastSend = elapsed hist ∧
    elapsed hist < rto * 2 ^ resends hist ∧
    ∀ ms, (s.tick ms).2 =
      if s.msgQueue ≠ [] ∧ rto * 2 ^ resends hist ≤ elapsed hist + ms then s.msgQueue.take 1
      else [] := by
  have ht := h.timed hcap hrto
  exact ⟨ht.count, ht.time, ht.below, ht.tick_transmits⟩

/-- The SYN is sent again after 100 ms and acknowledged with a window of zero; the probe is sent again
after 100 ms more, which does not count. -/
theorem tick_law_probe : ∃ s hist, TimedRun 4 ⟨7⟩ 100 s hist ∧ hist.length = 5 ∧
    s.consecRetransmissions = 0 ∧ s.timeSinceLastSend = 40 ∧ (s.tick 59).2 = [] ∧
    (s.tick 60).2.length = 1 ∧ elapsed hist < 100 * 2 ^ resends hist := by
  have h₀ : TimedRun 4 ⟨7⟩ 100 _ _ := .start
  have h₁ : TimedRun 4 ⟨7⟩ 100
      { input := { capacity := 4 }, isn := ⟨7⟩, initialRTO := 100, synSent := true,
        msgQueue := [{ seqno := ⟨7⟩, SYN := true }], bytesInQueue := 1, consecRetransmissions := 1 }
      [.tick 50 true true, .tick 60 true false] := ((h₀.push rfl).tick 60).tick 50
  have h₂ : TimedRun 4 ⟨7⟩ 100
      { input := { capacity := 4 }, isn := ⟨7⟩, initialRTO := 100, synSent := true,
        winAdvertisedZero := true } _ :=
    h₁.receive { ackno := some ⟨8⟩, windowSize := 0 } (by decide)
  have h₃ : TimedRun 4 ⟨7⟩ 100
      { input := { capacity := 4, deck := [[2]], totalPushed := 2, totalPopped := 1, bytesInDeck := 1 },
        isn := ⟨7⟩, initialRTO := 100, synSent := true, winAdvertisedZero := true,
        msgQueue := [{ seqno := ⟨8⟩, payload := [1] }], bytesInQueue := 1 } _ :=
    (h₂.write [1, 2]).push (show _ = some (_, [{ seqno := ⟨8⟩, payload := [1] }]) by decide)
  have h₄ := (h₃.tick 100).tick 40
  have h := tick_law (by decide) (by decide) h₄
  exact ⟨_, _, h₄, rfl, rfl, rfl, rfl, rfl, h.2.2.1⟩

end Minnow.TCPSender
