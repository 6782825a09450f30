import Minnow.Lib.Outcome
import Minnow.TCPMessage

/-!
# The sender (`tcp_sender.hh`, `tcp_sender.cc`)

`push` is two nested `while (true)` loops. A pass of the outer loop (`pushBody`) is cut into what the
source does before the inner loop (`pushStart`), the inner loop (`fill`) and what it does after it
(`pushEnd`). The inner loop can turn for ever without changing anything, so `push` is partial: `none`
says that it does not come back.
-/

namespace Minnow
open Prog

structure TCPSender where
  input : ByteStream
  isn : Wrap32
  initialRTO : Nat
  curWinSize : Nat := 0
  winAdvertisedZero : Bool := false
  msgQueue : List TCPSenderMessage := []
  bytesInQueue : Nat := 0
  synSent : Bool := false
  fin : Bool := false
  finReceived : Bool := false
  finQueued : Bool := false
  timeSinceLastSend : Nat := 0
  consecRetransmissions : Nat := 0
deriving Repr, DecidableEq

namespace TCPSender

/-- `TCPConfig::MAX_PAYLOAD_SIZE` -/
def maxPayloadSize : Nat := 1000

def sequenceNumbersInFlight (s : TCPSender) : Nat := s.bytesInQueue

/-- The sequence numbers that would be in flight with `m` sent as well. -/
def inFlightWith (s : TCPSender) (m : TCPSenderMessage) : Nat :=
  m.sequenceLength + s.sequenceNumbersInFlight

/-- From the top of the outer loop to the inner one; `none` is the `return` in between. -/
def pushStart (s : TCPSender) : TCPSender × Option TCPSenderMessage :=
  let msg : TCPSenderMessage := { RST := s.input.hasError, SYN := !s.synSent }
  let s := { s with synSent := true }
  let setFin := s.input.isFinished &&
    (decide (s.inFlightWith msg < s.curWinSize) || decide (s.curWinSize = 0))
  let msg := { msg with FIN := setFin }
  let s := { s with fin := s.fin || setFin }
  if (decide (s.input.bytesBuffered = 0) && !msg.SYN && !s.fin) || (s.fin && s.finReceived) then
    (s, none)
  else
    let seqno := s.isn + s.input.bytesPopped
    let seqno := if s.synSent && !msg.SYN then seqno + 1 else seqno
    (s, some { msg with seqno })

/-- One pass of the inner loop, which carries the stream and the message. A pass that takes nothing
from the stream changes nothing, so the loop then never ends. -/
def fillBody (s : TCPSender) :
    ByteStream × TCPSenderMessage → Ctl (ByteStream × TCPSenderMessage) (ByteStream × TCPSenderMessage)
  | (input, msg) =>
    if (s.inFlightWith msg ≥ s.curWinSize ∨ input.bytesBuffered = 0 ∨
        msg.payload.length = maxPayloadSize) ∧ s.curWinSize ≠ 0 then .exit (input, msg)
    else if s.curWinSize = 0 ∧ msg.sequenceLength = 1 then .exit (input, msg)
    else if s.curWinSize = 0 ∧ s.msgQueue ≠ [] then .exit (input, msg)
    else
      let bytesRemaining :=
        if s.curWinSize = 0 then 1
        else min (sub64 s.curWinSize (s.inFlightWith msg)) maxPayloadSize
      let curStr := input.peek.take bytesRemaining
      if curStr = [] then .spin
      else
        match input.pop curStr.length with
        | none => .spin
        | some input => .next (input, { msg with payload := msg.payload ++ curStr })

/-- Every pass but the last takes a byte from the stream. -/
def fill (s : TCPSender) (msg : TCPSenderMessage) : Option (ByteStream × TCPSenderMessage) :=
  loop s.fillBody (s.input.bytesBuffered + 1) (s.input, msg)

/-- After the inner loop: the message that is transmitted and queued, unless there is a `return`
before that. -/
def pushEnd (s : TCPSender) (msg : TCPSenderMessage) : TCPSender × Option TCPSenderMessage :=
  let setFin := s.input.isFinished && decide (s.inFlightWith msg < s.curWinSize)
  let msg := { msg with FIN := msg.FIN || setFin }
  let s := { s with fin := s.fin || setFin }
  if (msg.FIN && s.finQueued) ||
      (decide (s.inFlightWith msg > s.curWinSize) && decide (s.curWinSize ≠ 0)) ||
      (msg.payload.isEmpty && !msg.SYN && !s.fin) then (s, none)
  else
    ({ s with
      finQueued := s.finQueued || msg.FIN
      msgQueue := s.msgQueue ++ [msg]
      bytesInQueue := s.bytesInQueue + msg.sequenceLength }, some msg)

/-- One pass of the outer loop, which carries the sender and what has been transmitted. -/
def pushBody : TCPSender × List TCPSenderMessage →
    Ctl (TCPSender × List TCPSenderMessage) (TCPSender × List TCPSenderMessage)
  | (s, sent) =>
    match s.pushStart with
    | (s, none) => .exit (s, sent)
    | (s, some msg) =>
      match s.fill msg with
      | none => .spin
      | some (input, msg) =>
        match { s with input }.pushEnd msg with
        | (s, none) => .exit (s, sent)
        | (s, some msg) =>
          let sent := sent ++ [msg]
          if s.input.bytesBuffered = 0 ∨ s.sequenceNumbersInFlight = s.curWinSize then
            .exit (s, sent)
          else .next (s, sent)

/-- Passes that go round again take a byte from the stream, the first one perhaps only the `SYN`. -/
def push (s : TCPSender) : Option (TCPSender × List TCPSenderMessage) :=
  loop pushBody (s.input.bytesBuffered + 2) (s, [])

def makeEmptyMessage (s : TCPSender) : TCPSenderMessage :=
  let seqno := s.isn + s.input.bytesPopped + 1
  let seqno := if s.fin then seqno + 1 else seqno
  { seqno, RST := s.input.hasError }

/-- The loop in `receive`, by recursion on the queue it shortens. Reading the `ackno` of a message
without one is undefined. -/
def receiveLoop (msg : TCPReceiverMessage) :
    List TCPSenderMessage → TCPSender → Outcome TCPSender
  | [], s => .ok { s with msgQueue := [] }
  | curMsg :: rest, s =>
    match msg.ackno with
    | none => .undefined .noValue
    | some ackno =>
      let curSeqno := curMsg.seqno.unwrap s.isn s.input.bytesPushed
      let nextSeqno := ackno.unwrap s.isn s.input.bytesPushed
      if add64 curSeqno curMsg.sequenceLength = nextSeqno ∨
          add64 curSeqno s.sequenceNumbersInFlight = nextSeqno then
        receiveLoop msg rest { s with
          finReceived := s.finReceived || curMsg.FIN
          bytesInQueue := sub64 s.bytesInQueue curMsg.sequenceLength
          consecRetransmissions := 0
          timeSinceLastSend := 0 }
      else .ok { s with msgQueue := curMsg :: rest }

/-- The state the loop in `receive` starts in. -/
def noteWindow (s : TCPSender) (msg : TCPReceiverMessage) : TCPSender :=
  let s := { s with
    curWinSize := msg.windowSize.toNat
    winAdvertisedZero := decide (msg.windowSize = 0) }
  if msg.RST then { s with input := s.input.setError } else s

def receive (s : TCPSender) (msg : TCPReceiverMessage) : Outcome TCPSender :=
  receiveLoop msg s.msgQueue (s.noteWindow msg)

/-- The timer, and the message that it makes the sender transmit again. -/
def tick (s : TCPSender) (ms : Nat) : TCPSender × List TCPSenderMessage :=
  match s.msgQueue with
  | [] => (s, [])
  | front :: _ =>
    let s := { s with timeSinceLastSend := s.timeSinceLastSend + ms }
    if s.timeSinceLastSend ≥ s.initialRTO * 2 ^ s.consecRetransmissions then
      let s := { s with timeSinceLastSend := 0 }
      (if !s.winAdvertisedZero then
        { s with consecRetransmissions := s.consecRetransmissions + 1 }
      else s, [front])
    else (s, [])

end TCPSender

end Minnow
