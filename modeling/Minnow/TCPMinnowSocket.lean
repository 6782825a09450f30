import Minnow.EventLoop
import Minnow.TCPOverIP
import Minnow.TCPPeer

/-!
# The socket (`tcp_minnow_socket_impl.hh`)

A thread works for a peer. Three rules of an event loop hand it the messages that a datagram adapter
reads, give it the bytes that the owner of the socket writes, and write the bytes it has received back
to the owner; what the peer transmits goes to the adapter. Next to the state stand the messages that
went through the adapter, in `received` and `transmitted`.
-/

namespace Minnow
open Prog

/-- The two ends of the socket pair: the thread's and the owner's. -/
inductive SocketFd
  | threadData
  | owner
deriving Repr, DecidableEq

/-- What the socket asks of its adapter, which makes its own system calls. -/
class TCPDatagramAdapter (A κ : Type) (α : outParam Type) where
  fd : A → FDWrapper
  read : Act (A × κ) (Option TCPMessage)
  write : TCPMessage → Act (A × κ) Unit
  setConfig : FdAdapterConfig α → A → A
  setListening : Bool → A → A
  tick : Nat → A → A

/-- An adapter that lets every call through, and whose descriptor has been read from after a read. -/
structure TCPDatagramAdapter.Obliging (A κ : Type) {α : Type} [TCPDatagramAdapter A κ α] : Prop where
  read (a : A) (k : κ) : ∃ seg a' k', TCPDatagramAdapter.read (a, k) = .ok seg (a', k') ∧
    (fd κ a').readCount = (fd κ a).readCount + 1
  write (msg : TCPMessage) (a : A) (k : κ) : ∃ a' k',
    TCPDatagramAdapter.write msg (a, k) = .ok () (a', k') ∧
      (fd κ a').readCount = (fd κ a).readCount

/-- A message, and the peer that received it as it was before. -/
structure Receipt where
  peer : TCPPeer
  msg : TCPMessage
deriving Repr, DecidableEq

structure TCPMinnowSocket (A κ : Type) where
  process : Process SocketFd κ
  datagramAdapter : A
  tcp : Option TCPPeer := none
  inboundShutdown : Bool := false
  outboundShutdown : Bool := false
  received : List Receipt := []
  transmitted : List TCPMessage := []

def TCPPeer.hasAckno (p : TCPPeer) : Bool := p.receiver.send.ackno.isSome

namespace TCPMinnowSocket

def TCP_TICK_MS : Int := 10

variable {A κ α β : Type}

def onAdapter (call : Act (A × κ) β) : Act (TCPMinnowSocket A κ) β :=
  Act.zoom (fun w => (w.datagramAdapter, w.process.kernel))
    (fun t w => { w with datagramAdapter := t.1, process := { w.process with kernel := t.2 } }) call

def onProcess (call : Act (Process SocketFd κ) β) : Act (TCPMinnowSocket A κ) β :=
  Act.zoom process (fun process w => { w with process }) call

/-- The peer, which a socket without one does not have. -/
def peer : Act (TCPMinnowSocket A κ) TCPPeer := do
  match (← get).tcp with
  | some p => return p
  | none => throw (.undef .noValue)

def setPeer (p : TCPPeer) : Act (TCPMinnowSocket A κ) Unit := modify fun w => { w with tcp := some p }

def setOutbound (f : ByteStream → ByteStream) (w : TCPMinnowSocket A κ) : TCPMinnowSocket A κ :=
  { w with tcp := w.tcp.map fun p => { p with sender := { p.sender with input := f p.sender.input } } }

def setInbound (f : ByteStream → ByteStream) (w : TCPMinnowSocket A κ) : TCPMinnowSocket A κ :=
  { w with tcp := w.tcp.map fun p => { p with
      receiver := { p.receiver with
        reassembler := { p.receiver.reassembler with output := f p.receiver.inbound } } } }

section Peer
variable [TCPDatagramAdapter A κ α]

/-- The transmit function that the calls of the peer are given, on all that they transmit. -/
def transmit : List TCPMessage → Act (TCPMinnowSocket A κ) Unit
  | [] => return
  | x :: xs => do
    modify fun w => { w with transmitted := w.transmitted ++ [x] }
    onAdapter (TCPDatagramAdapter.write x)
    transmit xs

def pushPeer : Act (TCPMinnowSocket A κ) Unit := do
  match (← peer).push with
  | some (p, out) =>
    setPeer p
    transmit out
  | none => throw .hang

def receivePeer (seg : TCPMessage) : Act (TCPMinnowSocket A κ) Unit := do
  let p ← peer
  modify fun w => { w with received := w.received ++ [⟨p, seg⟩] }
  match p.receive seg with
  | .ok (p, out) =>
    setPeer p
    transmit out
  | .throws e (p, out) =>
    setPeer p
    transmit out
    throw (.exn e)
  | .undefined u => throw (.undef u)

/-! ### Rule 1: from the network to the peer -/

def receiveCallback : Act (TCPMinnowSocket A κ) Unit := do
  match ← onAdapter TCPDatagramAdapter.read with
  | some seg => receivePeer seg
  | none => return

def receiveInterest (w : TCPMinnowSocket A κ) : Bool := w.tcp.any TCPPeer.active

/-! ### Rule 2: from the owner to the outbound stream -/

variable [Kernel κ]

def closeOutbound : Act (TCPMinnowSocket A κ) Unit :=
  modify fun w => { w.setOutbound ByteStream.close with outboundShutdown := true }

def pushCallback : Act (TCPMinnowSocket A κ) Unit := do
  let data := List.replicate (← peer).sender.input.availableCapacity 0
  let data ← onProcess (FileDescriptor.read .threadData data)
  modify (setOutbound (·.push data))
  if ((← get).process.fds .threadData).eof then
    closeOutbound
  pushPeer

def pushInterest (w : TCPMinnowSocket A κ) : Bool :=
  w.tcp.any fun p => p.active && !w.outboundShutdown && decide (p.sender.input.availableCapacity > 0)

/-! ### Rule 3: from the inbound stream to the owner -/

def readCallback : Act (TCPMinnowSocket A κ) Unit := do
  let inbound := (← peer).receiver.inbound
  if inbound.bytesBuffered ≠ 0 then
    let bytesWritten ← onProcess (FileDescriptor.write .threadData [inbound.peek])
    match inbound.pop bytesWritten with
    | some inbound => modify (setInbound fun _ => inbound)
    | none => throw (.undef .emptyFront)
  let inbound := (← peer).receiver.inbound
  if inbound.isFinished || inbound.hasError then
    onProcess (FileDescriptor.shutdown .threadData false true)
    modify fun w => { w with inboundShutdown := true }

def readInterest (w : TCPMinnowSocket A κ) : Bool :=
  w.tcp.any fun p => decide (p.receiver.inbound.bytesBuffered ≠ 0) ||
    ((p.receiver.inbound.isFinished || p.receiver.inbound.hasError) && !w.inboundShutdown)

/-! ### The loop -/

instance : Poller (TCPMinnowSocket A κ) where
  poll pollfds timeoutMs w :=
    let (answer, kernel) := Kernel.poll pollfds timeoutMs w.process.kernel
    (answer, { w with process := { w.process with kernel } })
  getsockopt fd w :=
    let (answer, kernel) := Kernel.getsockopt fd w.process.kernel
    (answer, { w with process := { w.process with kernel } })

/-- No handle is kept. -/
instance : Flags (TCPMinnowSocket A κ) := ⟨fun _ _ => false⟩

def addRules (l : EventLoop (TCPMinnowSocket A κ)) : Option (EventLoop (TCPMinnowSocket A κ)) := do
  let (_, l) ← l.addNamedFdRule "receive TCP segment from the network"
    (TCPDatagramAdapter.fd κ ·.datagramAdapter) .In receiveCallback receiveInterest (return) (return)
  let (_, l) ← l.addNamedFdRule "push bytes to TCPPeer" (·.process.fds .threadData) .In
    pushCallback pushInterest closeOutbound (modify (setOutbound ByteStream.setError))
  let (_, l) ← l.addNamedFdRule "read bytes from inbound stream" (·.process.fds .threadData) .Out
    readCallback readInterest (return) (modify (setInbound ByteStream.setError))
  return l

def onSocket (call : Act (TCPMinnowSocket A κ) β) :
    Act (EventLoop (TCPMinnowSocket A κ) × TCPMinnowSocket A κ) β :=
  Act.zoom Prod.snd (fun w s => (s.1, w)) call

def initializeTCP (config : TCPConfig) :
    Act (EventLoop (TCPMinnowSocket A κ) × TCPMinnowSocket A κ) Unit := do
  onSocket (setPeer (.ofConfig config))
  let (l, w) ← get
  match addRules l with
  | some l => set (l, w)
  | none => throw (.exn .runtimeError)

/-- The end of a pass of the loop, after `elapsed` milliseconds. -/
def tickPeer (elapsed : Nat) : Act (TCPMinnowSocket A κ) Unit := do
  match (← get).tcp with
  | none => throw (.exn .runtimeError)
  | some p =>
    if p.active then
      let (p, out) := p.tick elapsed
      setPeer p
      transmit out
      modify fun w => { w with
        datagramAdapter := TCPDatagramAdapter.tick κ elapsed w.datagramAdapter }

/-- A pass of the loop in `_tcp_loop`, and whether there may be another one. What `_abort` is after the
wait and the time that has gone by are given from outside. -/
def tcpPass (abort : Bool) (elapsed : Nat) :
    Act (EventLoop (TCPMinnowSocket A κ) × TCPMinnowSocket A κ) Bool := do
  let ret ← EventLoop.waitNextEvent TCP_TICK_MS
  if ret = .Exit || abort then return false
  onSocket (tickPeer elapsed)
  return true

/-- `_tcp_loop`, if it comes to an end. -/
inductive TcpLoop (condition : TCPMinnowSocket A κ → Bool) :
    EventLoop (TCPMinnowSocket A κ) × TCPMinnowSocket A κ →
    EventLoop (TCPMinnowSocket A κ) × TCPMinnowSocket A κ → Prop
  | done {s} (hc : condition s.2 = false) : TcpLoop condition s s
  | leave {s s'} {abort : Bool} {elapsed : Nat} (hc : condition s.2 = true)
      (hp : tcpPass abort elapsed s = .ok false s') : TcpLoop condition s s'
  | pass {s t s'} {abort : Bool} {elapsed : Nat} (hc : condition s.2 = true)
      (hp : tcpPass abort elapsed s = .ok true t) (h : TcpLoop condition t s') :
      TcpLoop condition s s'

/-- What `connect` waits to change. -/
def connecting (w : TCPMinnowSocket A κ) : Bool :=
  w.tcp.any fun p => decide (p.sender.sequenceNumbersInFlight = 1)

/-- What `connect` does with a peer that has just been made. -/
def connectPeer (config : FdAdapterConfig α) : Act (TCPMinnowSocket A κ) Unit := do
  modify fun w => { w with
    datagramAdapter := TCPDatagramAdapter.setConfig κ config w.datagramAdapter }
  pushPeer
  if !connecting (← get) then
    throw (.exn .runtimeError)

/-- `connect` up to its loop. -/
def startConnect (cfg : TCPConfig) (config : FdAdapterConfig α) :
    Act (EventLoop (TCPMinnowSocket A κ) × TCPMinnowSocket A κ) Unit := do
  if (← get).2.tcp.isSome then
    throw (.exn .runtimeError)
  initializeTCP cfg
  onSocket (connectPeer config)

/-- What `listen_and_accept` waits to change. -/
def accepting (w : TCPMinnowSocket A κ) : Bool :=
  w.tcp.any fun p => !p.hasAckno || decide (p.sender.sequenceNumbersInFlight ≠ 0)

/-- `listen_and_accept` up to its loop. -/
def startListen (cfg : TCPConfig) (config : FdAdapterConfig α) :
    Act (EventLoop (TCPMinnowSocket A κ) × TCPMinnowSocket A κ) Unit := do
  if (← get).2.tcp.isSome then
    throw (.exn .runtimeError)
  initializeTCP cfg
  onSocket (modify fun w => { w with
    datagramAdapter := TCPDatagramAdapter.setListening κ true
      (TCPDatagramAdapter.setConfig κ config w.datagramAdapter) })

/-- The end of `_tcp_main`, after its loop. -/
def endMain : Act (TCPMinnowSocket A κ) Unit := do
  onProcess (FileDescriptor.shutdown .owner true true)
  modify fun w => { w with tcp := none }

/-- What the thread that runs the socket has done whenever a loop is about to wait: first in `connect`
or `listen_and_accept`, and then in `_tcp_main`, with the same rules. -/
inductive Run (cfg : TCPConfig) (w₀ : TCPMinnowSocket A κ) :
    EventLoop (TCPMinnowSocket A κ) × TCPMinnowSocket A κ → Prop
  | connect {s} (config : FdAdapterConfig α) (h : startConnect cfg config ({}, w₀) = .ok () s) :
      Run cfg w₀ s
  | listen {s} (config : FdAdapterConfig α) (h : startListen cfg config ({}, w₀) = .ok () s) :
      Run cfg w₀ s
  | pass {s s'} {abort more : Bool} {elapsed : Nat} (h : Run cfg w₀ s)
      (hp : tcpPass abort elapsed s = .ok more s') : Run cfg w₀ s'

end Peer

end TCPMinnowSocket

end Minnow
