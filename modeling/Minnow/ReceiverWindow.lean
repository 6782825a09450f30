import Minnow.ByteStreamPop
import Minnow.ReceiverSeq

/-!
# The window that the receiver advertises

`send` cuts the capacity to 16 bits and then takes off what is buffered, so a receiver with a capacity
above 65535 advertises less than it has room for, or, once more than 65535 bytes are buffered, a
difference that has wrapped around. `WindowExact` says when the two orders agree.
-/

namespace Minnow.TCPReceiver
open Prog ByteStream Reassembler

/-- The receivers with a given capacity that any messages, reads of any length and errors reach. -/
inductive Reached (capacity : Nat) : TCPReceiver → Prop
  | start : Reached capacity (ofReassembler (ofStream { capacity }))
  | receive {t t' : TCPReceiver} (m : TCPSenderMessage) (h : Reached capacity t)
      (hl : (t.receive m).Leaves t') : Reached capacity t'
  | setError {t : TCPReceiver} (h : Reached capacity t) : Reached capacity t.setError
  | pop {t : TCPReceiver} {o : ByteStream} (len : Nat) (h : Reached capacity t)
      (hpop : t.inbound.pop len = some o) :
      Reached capacity { t with reassembler := { t.reassembler with output := o } }

/-- Clamping before the subtraction makes no difference: the capacity is not clamped, or what is
buffered or what the clamp takes off is a multiple of `2 ^ 16`. A capacity of 32 bits or more loses
its high bits before it is clamped. -/
def WindowExact (capacity buffered : Nat) : Prop :=
  capacity ≤ 65535 ∨
    if 65535 ≤ capacity - buffered then
      buffered % 2 ^ 16 = (min (capacity % 2 ^ 32) 65535 + 1) % 2 ^ 16
    else capacity % 2 ^ 16 = min (capacity % 2 ^ 32) 65535

instance (capacity buffered : Nat) : Decidable (WindowExact capacity buffered) :=
  inferInstanceAs (Decidable (_ ∨ ite _ _ _))

variable {t t' : TCPReceiver} {m : TCPSenderMessage} {capacity : Nat}

theorem noted_capacity (t : TCPReceiver) (m : TCPSenderMessage) :
    (t.noted m).capacity = t.capacity := by
  unfold noted note setError
  cases m.RST <;> cases m.SYN <;> cases m.FIN <;> rfl

theorem account_capacity (t : TCPReceiver) : t.account.capacity = t.capacity := by
  unfold account
  dsimp only
  split <;> split <;> rfl

/-- A call of `receive` changes neither capacity. -/
theorem receive_capacity (hl : (t.receive m).Leaves t') :
    t'.capacity = t.capacity ∧ t'.inbound.capacity = t.inbound.capacity := by
  rcases receive_cases hl with ⟨-, -, rfl⟩ | ⟨-, hr⟩
  · split <;> exact ⟨rfl, rfl⟩
  · have hnoted := noted_capacity t m
    have hk := (kept_noted t m).capacity
    obtain ⟨r', hins, heq⟩ := hr.leaves
    refine ⟨?_, ?_⟩
    · cases hr with
      | ahead | thrown => exact hnoted
      | accounted => exact (account_capacity _).trans hnoted
    · rw [inbound, inbound, heq]
      exact (ends_insert hins).capacity.trans hk

/-- What does not change about a receiver. -/
theorem Reached.inv (hc : capacity < 2 ^ 64) (h : Reached capacity t) :
    t.inbound.Wf ∧ t.inbound.capacity = capacity ∧ t.capacity = UInt32.ofNat capacity := by
  induction h with
  | start =>
    refine ⟨wf_new hc, rfl, ?_⟩
    show UInt32.ofNat (availableCapacity { capacity }) = _
    rw [(wf_new hc).availableCapacity_eq]
    rfl
  | receive m _ hl ih =>
    obtain ⟨hwf, hin, hcap⟩ := ih
    obtain ⟨h1, h2⟩ := receive_capacity hl
    exact ⟨(receive_stream hl).1 hwf, h2.trans hin, h1.trans hcap⟩
  | setError _ ih => exact ⟨ih.1.setError, ih.2⟩
  | pop len _ hpop ih =>
    have hp := (ih.1.popped_min hpop).2
    exact ⟨hp.wf, hp.capacity.trans ih.2.1, ih.2.2⟩

/-- The number that `send` computes. -/
theorem send_windowSize (h : t.capacity = UInt32.ofNat capacity) :
    t.send.windowSize.toNat =
      (2 ^ 32 - t.inbound.bytesBuffered % 2 ^ 32 + min (capacity % 2 ^ 32) 65535) % 2 ^ 16 := by
  have hcap : t.capacity.toNat = capacity % 2 ^ 32 := by rw [h, UInt32.toNat_ofNat']
  have hreal : (if t.capacity > 65535 then 65535 else t.capacity).toNat =
      min (capacity % 2 ^ 32) 65535 := by
    rw [← hcap]
    split
    next hgt => exact (Nat.min_eq_right (Nat.le_of_lt (UInt32.lt_iff_toNat_lt.1 hgt))).symm
    next hle => exact (Nat.min_eq_left (Nat.le_of_not_lt (mt UInt32.lt_iff_toNat_lt.2 hle))).symm
  have hwin : t.send.windowSize = ((if t.capacity > 65535 then 65535 else t.capacity) -
      UInt32.ofNat t.inbound.bytesBuffered).toUInt16 := by
    unfold send
    dsimp only
    split <;> rfl
  rw [hwin, UInt32.toNat_toUInt16, UInt32.toNat_sub, hreal, UInt32.toNat_ofNat']
  omega

/-- The receiver advertises what it has room for, up to 65535, exactly as long as the two orders
agree. -/
theorem send_window_iff (hc : capacity < 2 ^ 64) (h : Reached capacity t) :
    t.send.windowSize.toNat = min t.inbound.availableCapacity 65535 ↔
      WindowExact capacity t.inbound.bytesBuffered := by
  obtain ⟨hwf, hin, hcap⟩ := h.inv hc
  have hfits := hwf.fits
  rw [send_windowSize hcap, hwf.availableCapacity_eq, hin, WindowExact, bytesBuffered]
  rw [hin] at hfits
  split <;> omega

/-- Capacity 4, one byte buffered. -/
theorem send_window_iff_a : ∃ t, Reached 4 t ∧ t.inbound.bytesBuffered = 1 ∧
    t.send.windowSize.toNat = min t.inbound.availableCapacity 65535 := by
  have h₀ : Reached 4 _ := .start
  have h₁ := h₀.receive { seqno := ⟨7⟩, SYN := true, payload := [1] } (.inl rfl)
  exact ⟨_, h₁, by decide, (send_window_iff (by decide) h₁).2 (by decide)⟩

/-- Capacity 65537, one byte buffered: there is room for 65536, and 65534 is advertised. -/
theorem send_window_short : ∃ t, Reached 65537 t ∧ t.inbound.availableCapacity = 65536 ∧
    t.send.windowSize.toNat = 65534 := by
  obtain ⟨t₁, hr₁, hl₁, hin⟩ :=
    inLine_syn (D := [1]) (show 65537 < 2 ^ 31 by decide) ⟨7⟩ (by decide)
  obtain ⟨t₂, hr₂, hl₂, -, hB, hC⟩ := hl₁.receive_byte (b := 1) (by decide)
    (by rw [hin]; exact List.prefix_rfl) (by rw [hin]; decide) (by rw [hin]; decide)
  have h : Reached 65537 t₂ := (Reached.start.receive _ (.inl hr₁)).receive _ (.inl hr₂)
  rw [hin] at hB hC
  refine ⟨t₂, h, ?_, ?_⟩
  · rw [hl₂.stream.availableCapacity_eq, hB, hC]; rfl
  · rw [send_windowSize (h.inv (by decide)).2.2, bytesBuffered, hB]; rfl

end Minnow.TCPReceiver
