import Minnow.SenderRun
import Minnow.TCPPeer

/-!
# Two peers and a network

The network keeps every message that was ever transmitted and may deliver any of them, to the other
peer, at any time and any number of times; what it never delivers is lost. A step is one call of the
application on a peer or one delivery (`Net.step`). Next to a peer its `Host` records what the state
of the peer no longer shows: the bytes written and read, the messages transmitted, and the absolute
sequence numbers that a packet's 32-bit numbers stand for.
-/

namespace Minnow
open Prog

inductive Side
  | a
  | b
deriving Repr, DecidableEq

def Side.other : Side → Side
  | .a => .b
  | .b => .a

/-- A message on the wire, with the absolute sequence numbers of its first byte and of its `ackno`. -/
structure Packet where
  msg : TCPMessage
  seqAt : Nat
  ackAt : Nat
deriving Repr, DecidableEq

structure Host where
  peer : TCPPeer
  written : Bytes := []
  read : Bytes := []
  sent : List TCPSenderMessage := []
  cleared : List (TCPSenderMessage × Nat) := []
  ackAt : Nat := 0
  wire : List Packet := []
deriving Repr, DecidableEq

namespace Host

/-- Messages put on the wire one after the other, the first of them at `seqAt`. -/
def stamp (ackAt : Nat) : Nat → List TCPMessage → List Packet
  | _, [] => []
  | seqAt, msg :: msgs => ⟨msg, seqAt, ackAt⟩ :: stamp ackAt (seqAt + msg.sender.sequenceLength) msgs

def write (h : Host) (data : Bytes) : Host :=
  { h with
    peer := { h.peer with
      sender := { h.peer.sender with input := h.peer.sender.input.push data } }
    written := h.written ++ h.peer.sender.input.taken data }

def close (h : Host) : Host :=
  { h with peer := { h.peer with sender := { h.peer.sender with input := h.peer.sender.input.close } } }

/-- The application reads no more than there is. -/
def readBytes (h : Host) (len : Nat) : Option Host :=
  let stream := h.peer.receiver.inbound
  if len ≤ stream.bytesBuffered then
    (stream.pop len).map fun output =>
      { h with
        peer := { h.peer with
          receiver := { h.peer.receiver with
            reassembler := { h.peer.receiver.reassembler with output } } }
        read := h.read ++ stream.queued.take len }
  else none

/-- `none`: the call does not come back. -/
def push (h : Host) : Option Host :=
  h.peer.push.map fun (peer, out) =>
    { h with
      peer
      sent := h.sent ++ out.map (·.sender)
      wire := h.wire ++ stamp h.ackAt (TCPSender.span h.sent) out }

def tick (h : Host) (ms : Nat) : Host :=
  let (peer, out) := h.peer.tick ms
  let seqAt := TCPSender.span h.sent - h.peer.sender.bytesInQueue
  { h with peer, wire := h.wire ++ stamp h.ackAt seqAt out }

/-- What the absolute number behind `cur_seq` becomes: it starts over with a SYN, and otherwise moves
as `cur_seq` does. -/
def ackAfter (h : Host) (m : TCPSenderMessage) (peer : TCPPeer) : Nat :=
  if !h.peer.active then h.ackAt
  else if m.SYN then (peer.receiver.curSeq.rawValue - m.seqno.rawValue).toNat
  else h.ackAt + (peer.receiver.curSeq.rawValue - h.peer.receiver.curSeq.rawValue).toNat

/-- What a delivery leaves behind. -/
def received (h : Host) (pkt : Packet) (peer : TCPPeer) (out : List TCPMessage) : Host :=
  let sender := h.peer.sender
  let gone := sender.msgQueue.take (sender.msgQueue.length - peer.sender.msgQueue.length)
  let next := (pkt.msg.receiver.ackno.map (·.unwrap sender.isn sender.input.bytesPushed)).getD 0
  let ackAt := h.ackAfter pkt.msg.sender peer
  { h with
    peer
    cleared := h.cleared ++ gone.map fun m => (m, next)
    ackAt
    wire := h.wire ++ stamp ackAt (TCPSender.span h.sent) out }

/-- An exception goes to the caller and leaves the peer as it then is. `none`: undefined behaviour. -/
def receive (h : Host) (pkt : Packet) : Option Host :=
  match h.peer.receive pkt.msg with
  | .ok (peer, out) => some (h.received pkt peer out)
  | .throws _ (peer, out) => some (h.received pkt peer out)
  | .undefined _ => none

end Host

inductive Action
  | write (x : Side) (data : Bytes)
  | close (x : Side)
  | read (x : Side) (len : Nat)
  | push (x : Side)
  | tick (x : Side) (ms : Nat)
  /-- Packet number `i` of those the other side has transmitted reaches `x`. -/
  | deliver (x : Side) (i : Nat)

abbrev Net := Side → Host

namespace Net

def start (cfg : Side → TCPConfig) : Net := fun x => { peer := .ofConfig (cfg x) }

def set (s : Net) (x : Side) (h : Host) : Net := fun y => if y = x then h else s y

/-- `none`: the action is not possible, or does not come back. -/
def step (s : Net) : Action → Option Net
  | .write x data => some (s.set x ((s x).write data))
  | .close x => some (s.set x (s x).close)
  | .read x len => ((s x).readBytes len).map (s.set x)
  | .push x => (s x).push.map (s.set x)
  | .tick x ms => some (s.set x ((s x).tick ms))
  | .deliver x i => (s x.other).wire[i]?.bind fun pkt => ((s x).receive pkt).map (s.set x)

variable (Ok : Host → Packet → Prop) [∀ h pkt, Decidable (Ok h pkt)]

def allows (s : Net) : Action → Bool
  | .deliver x i => (s x.other).wire[i]?.all fun pkt => decide (Ok (s x) pkt)
  | _ => true

/-- The actions one after the other, as far as `Ok` admits them. -/
def runs (s : Net) : List Action → Option Net
  | [] => some s
  | act :: acts => if s.allows Ok act then (s.step act).bind fun s' => s'.runs acts else none

end Net

/-- The states that two fresh peers and the network can reach. `Ok` says which packets may be
delivered to a host in which state. -/
inductive NetRun (cfg : Side → TCPConfig) (Ok : Host → Packet → Prop) : Net → Prop
  | start : NetRun cfg Ok (.start cfg)
  | step {s s' : Net} (act : Action) (h : NetRun cfg Ok s)
      (hok : ∀ x i, act = .deliver x i → ∀ pkt ∈ (s x.other).wire[i]?, Ok (s x) pkt)
      (hs : s.step act = some s') : NetRun cfg Ok s'

variable {cfg : Side → TCPConfig} {Ok Ok' : Host → Packet → Prop} {s s' : Net}

theorem NetRun.runs [∀ h pkt, Decidable (Ok h pkt)] {acts : List Action} (h : NetRun cfg Ok s)
    (hs : s.runs Ok acts = some s') : NetRun cfg Ok s' := by
  induction acts generalizing s with
  | nil => cases hs; exact h
  | cons act acts ih =>
    rw [Net.runs] at hs
    split at hs
    next hok =>
      obtain ⟨t, ht, hs⟩ := Option.bind_eq_some_iff.1 hs
      refine ih (h.step act ?_ ht) hs
      rintro x i rfl pkt hpkt
      rw [Net.allows, Option.mem_def.1 hpkt] at hok
      exact of_decide_eq_true hok
    next => cases hs

/-- A run that a list of actions makes. -/
theorem NetRun.exists_of_runs [∀ h pkt, Decidable (Ok h pkt)] {P : Net → Prop} [DecidablePred P]
    (acts : List Action) (hs : ((Net.start cfg).runs Ok acts).any (fun s => decide (P s)) = true) :
    ∃ s, NetRun cfg Ok s ∧ P s := by
  obtain ⟨s, hrun, hP⟩ := (Option.any_eq_true _ _).1 hs
  exact ⟨s, NetRun.start.runs hrun, of_decide_eq_true hP⟩

theorem NetRun.mono (hle : ∀ h pkt, Ok h pkt → Ok' h pkt)
    (h : NetRun cfg Ok s) : NetRun cfg Ok' s := by
  induction h with
  | start => exact .start
  | step act _ hok hs ih =>
    exact ih.step act (fun x i ha pkt hp => hle _ _ (hok x i ha pkt hp)) hs

end Minnow
