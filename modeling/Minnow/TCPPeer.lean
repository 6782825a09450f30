import Minnow.TCPReceiver
import Minnow.TCPSender

/-!
# A peer (`tcp_peer.hh`, `tcp_config.hh`)
-/

namespace Minnow
open Prog

structure TCPConfig where
  rtTimeout : UInt16 := 1000
  recvCapacity : Nat := 64000
  sendCapacity : Nat := 64000
  isn : Wrap32 := ⟨137⟩
deriving Repr, DecidableEq

structure TCPPeer where
  cfg : TCPConfig
  sender : TCPSender
  receiver : TCPReceiver
  needSend : Bool := false
  lingerAfterStreamsFinish : Bool := true
  cumulativeTime : Nat := 0
  timeOfLastReceipt : Nat := 0
deriving Repr, DecidableEq

namespace TCPPeer

def ofConfig (cfg : TCPConfig) : TCPPeer where
  cfg := cfg
  sender := { input := { capacity := cfg.sendCapacity }, isn := cfg.isn, initialRTO := cfg.rtTimeout.toNat }
  receiver := .ofReassembler (.ofStream { capacity := cfg.recvCapacity })

/-- What `send` transmits for a message of the sender. -/
def segment (p : TCPPeer) (senderMessage : TCPSenderMessage) : TCPMessage :=
  ⟨senderMessage, p.receiver.send⟩

/-- `send`, for each of the messages in turn. -/
def sendAll (p : TCPPeer) (ms : List TCPSenderMessage) : TCPPeer × List TCPMessage :=
  ({ p with needSend := p.needSend && ms.isEmpty }, ms.map p.segment)

def push (p : TCPPeer) : Option (TCPPeer × List TCPMessage) :=
  p.sender.push.map fun (sender, sent) => { p with sender }.sendAll sent

def tick (p : TCPPeer) (t : Nat) : TCPPeer × List TCPMessage :=
  let p := { p with cumulativeTime := p.cumulativeTime + t }
  let (sender, sent) := p.sender.tick t
  { p with sender }.sendAll sent

def active (p : TCPPeer) : Bool :=
  let anyErrors := p.receiver.inbound.hasError || p.sender.input.hasError
  let senderActive := decide (p.sender.sequenceNumbersInFlight ≠ 0) || !p.sender.input.isFinished
  let receiverActive := !p.receiver.inbound.isClosed
  let lingering := p.lingerAfterStreamsFinish &&
    decide (p.cumulativeTime < p.timeOfLastReceipt + 10 * p.cfg.rtTimeout.toNat)
  !anyErrors && (senderActive || receiverActive || lingering)

/-- What `receive` notes down before it hands the message on. -/
def note (p : TCPPeer) (msg : TCPMessage) : TCPPeer :=
  let p := { p with
    timeOfLastReceipt := p.cumulativeTime
    needSend := p.needSend || decide (msg.sender.sequenceLength > 0) ||
      decide (p.receiver.send.ackno = some (msg.sender.seqno + 1)) }
  if p.receiver.inbound.isClosed && !p.sender.input.isFinished then
    { p with lingerAfterStreamsFinish := false }
  else p

def receive (p : TCPPeer) (msg : TCPMessage) : Outcome (TCPPeer × List TCPMessage) :=
  if !p.active then .ok (p, [])
  else
    let p := p.note msg
    let received := (p.receiver.receive msg.sender).map fun receiver => { p with receiver }
    let received := received.bind fun p =>
      (p.sender.receive msg.receiver).map fun sender => { p with sender }
    match received with
    | .ok p => .ok (if p.needSend then p.sendAll [p.sender.makeEmptyMessage] else (p, []))
    | .throws e p => .throws e (p, [])
    | .undefined u => .undefined u

end TCPPeer

end Minnow
