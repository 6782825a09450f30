import Minnow.ByteStream
import Minnow.Wrap32

/-!
# Messages (`tcp_sender_message.hh`, `tcp_receiver_message.hh`, `tcp_segment.hh`)
-/

namespace Minnow

/-- Without `SYN` the sequence number is that of the first byte of the payload. -/
structure TCPSenderMessage where
  seqno : Wrap32 := ⟨0⟩
  SYN : Bool := false
  payload : Bytes := []
  FIN : Bool := false
  RST : Bool := false
deriving Repr, DecidableEq

def TCPSenderMessage.sequenceLength (m : TCPSenderMessage) : Nat :=
  m.SYN.toNat + m.payload.length + m.FIN.toNat

/-- The stream index of the first byte of the payload of a message at `a`. -/
def TCPSenderMessage.index (m : TCPSenderMessage) (a : Nat) : Nat := if m.SYN then 0 else a - 1

/-- `m` is a segment of the stream `D` at the absolute sequence number `a`. -/
structure TCPSenderMessage.WellFormed (m : TCPSenderMessage) (isn : Wrap32) (D : Bytes) (a : Nat) :
    Prop where
  seqno : m.seqno = .wrap a isn
  syn : m.SYN = true → a = 0
  start : m.payload ≠ [] ∨ m.FIN = true → m.SYN = true ∨ 0 < a
  bytes : m.payload <+: D.drop (m.index a)
  fin : m.FIN = true → m.index a + m.payload.length = D.length

theorem TCPSenderMessage.WellFormed.seqno_of_syn {m : TCPSenderMessage} {isn : Wrap32} {D : Bytes}
    {a : Nat} (h : m.WellFormed isn D a) (hs : m.SYN = true) : m.seqno = isn := by
  rw [h.seqno, h.syn hs, Wrap32.wrap, Wrap32.add_zero]

theorem TCPSenderMessage.WellFormed.length_payload_le {m : TCPSenderMessage} {isn : Wrap32}
    {D : Bytes} {a : Nat} (h : m.WellFormed isn D a) : m.payload.length ≤ D.length := by
  have := h.bytes.length_le
  rw [List.length_drop] at this
  omega

theorem TCPSenderMessage.WellFormed.append {m : TCPSenderMessage} {isn : Wrap32} {D : Bytes}
    {a : Nat} (h : m.WellFormed isn D a) (hfin : m.FIN = false) (xs : Bytes) :
    m.WellFormed isn (D ++ xs) a where
  seqno := h.seqno
  syn := h.syn
  start := h.start
  bytes := h.bytes.trans (by rw [List.drop_append]; exact List.prefix_append _ _)
  fin hF := absurd hF (by simp [hfin])

structure TCPReceiverMessage where
  ackno : Option Wrap32 := none
  windowSize : UInt16 := 0
  RST : Bool := false
deriving Repr, DecidableEq

structure TCPMessage where
  sender : TCPSenderMessage := {}
  receiver : TCPReceiverMessage := {}
deriving Repr, DecidableEq

end Minnow
