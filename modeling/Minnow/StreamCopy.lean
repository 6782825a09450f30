import Minnow.EventLoop

/-!
# Copying both ways (`bidirectional_stream_copy.cc`)

Four rules of an event loop move bytes from the standard input through one byte stream into a socket,
and from the socket through another into the standard output.
-/

namespace Minnow
open Prog

/-- The two streams. -/
inductive Flow
  | outbound
  | inbound
deriving Repr, DecidableEq

inductive CopyFd
  | input
  | output
  | socket
deriving Repr, DecidableEq

def Flow.source : Flow → CopyFd
  | .outbound => .input
  | .inbound => .socket

def Flow.sink : Flow → CopyFd
  | .outbound => .socket
  | .inbound => .output

/-- What the closures of the rules capture. Next to it stands, in `found`, what `poll` has found so
far. -/
structure StreamCopy (κ : Type) where
  process : Process CopyFd κ
  stream : Flow → ByteStream := fun _ => { capacity := 1048576 }
  isShutdown : Flow → Bool := fun _ => false
  found : List Revents := []

namespace StreamCopy
variable {κ : Type} [Kernel κ]

def withKernel {α : Type} (w : StreamCopy κ) (call : κ → α × κ) : α × StreamCopy κ :=
  let (answer, kernel) := call w.process.kernel
  (answer, { w with process := { w.process with kernel } })

instance : Poller (StreamCopy κ) where
  poll pollfds timeoutMs w :=
    let (answer, w) := w.withKernel (Kernel.poll pollfds timeoutMs)
    (answer, { w with found := w.found ++ answer.found pollfds.length })
  getsockopt fd w := w.withKernel (Kernel.getsockopt fd)

/-- No handle is kept. -/
instance : Flags (StreamCopy κ) := ⟨fun _ _ => false⟩

def onProcess {α : Type} (call : Act (Process CopyFd κ) α) : Act (StreamCopy κ) α :=
  Act.zoom process (fun process w => { w with process }) call

def setStream (w : StreamCopy κ) (f : Flow) (s : ByteStream) : StreamCopy κ :=
  { w with stream := fun g => if g = f then s else w.stream g }

/-- The descriptors do not block. -/
def start (process : Process CopyFd κ) : StreamCopy κ where
  process := { process with fds := fun d => { process.fds d with nonBlocking := true } }

/-- One of the streams has an error. -/
def anyError (w : StreamCopy κ) : Bool := (w.stream .outbound).hasError || (w.stream .inbound).hasError

/-! ### Rules 1 and 3: from a source into its stream -/

def readCallback (f : Flow) : Act (StreamCopy κ) Unit := do
  let data := List.replicate ((← get).stream f).availableCapacity 0
  let data ← onProcess (FileDescriptor.read f.source data)
  modify fun w => w.setStream f ((w.stream f).push data)
  if ((← get).process.fds f.source).eof then
    modify fun w => w.setStream f (w.stream f).close

def readInterest (f : Flow) (w : StreamCopy κ) : Bool :=
  !w.anyError && decide ((w.stream f).availableCapacity > 0) && !(w.stream f).isClosed

/-! ### Rules 2 and 4: from a stream into its sink -/

/-- How a sink is told that no more will come. -/
def finishSink : Flow → Act (Process CopyFd κ) Unit
  | .outbound => FileDescriptor.shutdown .socket false true
  | .inbound => FileDescriptor.close .output

def writeCallback (f : Flow) : Act (StreamCopy κ) Unit := do
  let s := (← get).stream f
  if s.bytesBuffered ≠ 0 then
    let n ← onProcess (FileDescriptor.write f.sink [s.peek])
    match s.pop n with
    | some s => modify fun w => w.setStream f s
    | none => throw (.undef .emptyFront)
  if ((← get).stream f).isFinished then
    onProcess (finishSink f)
    modify fun w => { w with isShutdown := fun g => if g = f then true else w.isShutdown g }

def writeInterest (f : Flow) (w : StreamCopy κ) : Bool :=
  decide ((w.stream f).bytesBuffered ≠ 0) || ((w.stream f).isFinished && !w.isShutdown f)

/-! ### The loop -/

/-- All four rules close their stream when they are cancelled. -/
def closeStream (f : Flow) : Act (StreamCopy κ) Unit :=
  modify fun w => w.setStream f (w.stream f).close

def setErrors : Act (StreamCopy κ) Unit :=
  modify fun w => { w with stream := fun f => (w.stream f).setError }

def eventLoop : Option (EventLoop (StreamCopy κ)) := do
  let l : EventLoop (StreamCopy κ) := {}
  let (_, l) ← l.addNamedFdRule "read from stdin into outbound byte stream"
    (·.process.fds .input) .In (readCallback .outbound) (readInterest .outbound)
    (closeStream .outbound) setErrors
  let (_, l) ← l.addNamedFdRule "read from outbound byte stream into socket"
    (·.process.fds .socket) .Out (writeCallback .outbound) (writeInterest .outbound)
    (closeStream .outbound) setErrors
  let (_, l) ← l.addNamedFdRule "read from socket into inbound byte stream"
    (·.process.fds .socket) .In (readCallback .inbound) (readInterest .inbound)
    (closeStream .inbound) setErrors
  let (_, l) ← l.addNamedFdRule "read from inbound byte stream into stdout"
    (·.process.fds .output) .Out (writeCallback .inbound) (writeInterest .inbound)
    (closeStream .inbound) setErrors
  return l

/-- The loop and its state whenever the program is about to wait. -/
inductive Run (process : Process CopyFd κ) : EventLoop (StreamCopy κ) × StreamCopy κ → Prop
  | start {l : EventLoop (StreamCopy κ)} (h : eventLoop = some l) : Run process (l, start process)
  | wait {s s' : EventLoop (StreamCopy κ) × StreamCopy κ} {result : EventLoop.Result}
      (h : Run process s) (hw : EventLoop.waitNextEvent (-1) s = .ok result s')
      (hr : result ≠ .Exit) : Run process s'

/-! ### The rules by themselves -/

/-- The first rule of a stream reads, the second one writes. -/
inductive CopyRule
  | read (f : Flow)
  | write (f : Flow)
deriving Repr, DecidableEq

def CopyRule.flow : CopyRule → Flow
  | .read f => f
  | .write f => f

def CopyRule.id : CopyRule → Nat
  | .read .outbound => 0
  | .write .outbound => 1
  | .read .inbound => 2
  | .write .inbound => 3

def rule (k : CopyRule) : FDRule (StreamCopy κ) where
  id := k.id
  categoryId := k.id
  interest := match k with
    | .read f => readInterest f
    | .write f => writeInterest f
  callback := match k with
    | .read f => readCallback f
    | .write f => writeCallback f
  fd := match k with
    | .read f => fun w => w.process.fds f.source
    | .write f => fun w => w.process.fds f.sink
  direction := match k with
    | .read _ => .In
    | .write _ => .Out
  cancel := closeStream k.flow
  error := setErrors

def rules : List CopyRule :=
  [.read .outbound, .write .outbound, .read .inbound, .write .inbound]

theorem eventLoop_eq : ∃ names : List String, eventLoop (κ := κ) =
    some { ruleCategories := names, fdRules := rules.map rule, allocated := 4 } := ⟨_, rfl⟩

end StreamCopy

end Minnow
