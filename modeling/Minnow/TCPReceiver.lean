import Minnow.Reassembler
import Minnow.TCPMessage

/-!
# The receiver (`tcp_receiver.hh`, `tcp_receiver.cc`)

`curSeq` is the acknowledgment number. It starts over at `isn` with every SYN and is otherwise only
added to: the bytes pushed by a call, and one each for the first SYN and the first FIN that the end
of `receive` is reached with.
-/

namespace Minnow
open Prog

structure TCPReceiver where
  reassembler : Reassembler
  isn : Wrap32 := ⟨0⟩
  curSeq : Wrap32 := ⟨0⟩
  capacity : UInt32
  seenSyn : Bool := false
  synAccounted : Bool := false
  seenFin : Bool := false
  finAccounted : Bool := false
  prevBytesPending : Nat := 0
  prevBytesPushed : Nat := 0
deriving Repr, DecidableEq

namespace TCPReceiver

def ofReassembler (reassembler : Reassembler) : TCPReceiver where
  reassembler := reassembler
  capacity := UInt32.ofNat reassembler.output.availableCapacity

/-- The stream that `reader()` and `writer()` are views of. -/
def inbound (t : TCPReceiver) : ByteStream := t.reassembler.output

def setError (t : TCPReceiver) : TCPReceiver :=
  { t with reassembler := { t.reassembler with output := t.inbound.setError } }

/-- What a message's flags and the counters of before the call are noted in. -/
def note (t : TCPReceiver) (message : TCPSenderMessage) : TCPReceiver :=
  let t :=
    if message.SYN then { t with isn := message.seqno, curSeq := message.seqno, seenSyn := true }
    else t
  let t := if message.FIN then { t with seenFin := true } else t
  { t with
    prevBytesPending := t.reassembler.bytesPending
    prevBytesPushed := t.inbound.bytesPushed }

def messageSeqnoUnwrapped (t : TCPReceiver) (message : TCPSenderMessage) : Nat :=
  message.seqno.unwrap t.isn t.inbound.bytesPushed

def curSeqUnwrapped (t : TCPReceiver) : Nat := t.curSeq.unwrap t.isn t.inbound.bytesPushed

/-- The message is ahead of `cur_seq`; such a message never moves `cur_seq`. -/
def isAhead (t : TCPReceiver) (message : TCPSenderMessage) : Bool :=
  t.seenSyn && !message.payload.isEmpty &&
    decide (t.curSeqUnwrapped < t.messageSeqnoUnwrapped message)

/-- The stream index at which the payload is inserted. An empty payload goes to `cur_seq`, whatever
the message's own sequence number. -/
def insertIndex (t : TCPReceiver) (message : TCPSenderMessage) : Nat :=
  if (t.seenSyn && !message.payload.isEmpty) = true then
    if t.curSeqUnwrapped < t.messageSeqnoUnwrapped message then
      sub64 (t.messageSeqnoUnwrapped message) 1
    else if t.messageSeqnoUnwrapped message < t.curSeqUnwrapped then
      sub64 (t.messageSeqnoUnwrapped message) 1
    else if t.curSeq = t.isn then t.curSeqUnwrapped
    else sub64 t.curSeqUnwrapped 1
  else if t.curSeq ≠ t.isn then sub64 t.curSeqUnwrapped 1
  else t.curSeqUnwrapped

/-- The end of `receive`, which moves `cur_seq`. -/
def account (t : TCPReceiver) : TCPReceiver :=
  let t := { t with curSeq := t.curSeq + sub64 t.inbound.bytesPushed t.prevBytesPushed }
  let t :=
    if t.seenSyn && !t.synAccounted then { t with curSeq := t.curSeq + 1, synAccounted := true }
    else t
  if t.seenFin && !t.finAccounted then { t with curSeq := t.curSeq + 1, finAccounted := true }
  else t

def receive (t : TCPReceiver) (message : TCPSenderMessage) : Outcome TCPReceiver :=
  let t := if message.RST then t.setError else t
  if (!message.SYN && !t.seenSyn) = true then .ok t
  else
    let t := t.note message
    let inserted :=
      (t.reassembler.insert (t.insertIndex message) message.payload message.FIN).map
        fun r => { t with reassembler := r }
    if t.isAhead message then inserted
    else inserted.bind fun t => .ok t.account

/-- The window is the capacity cut to 16 bits, less what is buffered. -/
def send (t : TCPReceiver) : TCPReceiverMessage :=
  let realCapacity := if t.capacity > 65535 then 65535 else t.capacity
  let realCapacity := realCapacity - UInt32.ofNat t.inbound.bytesBuffered
  if !t.seenSyn then { ackno := none, windowSize := realCapacity.toUInt16, RST := t.inbound.hasError }
  else { ackno := some t.curSeq, windowSize := realCapacity.toUInt16, RST := t.inbound.hasError }

end TCPReceiver

end Minnow
