import Minnow.ByteStream
import Minnow.Lib.Act

/-!
# File descriptors (`file_descriptor.cc`)

What a system call answers is up to the kernel, of which nothing is assumed (`Kernel`). A process
keeps a log of its calls with their answers. Reading into several buffers gives the bytes that the
kernel gave, cut where the buffers end (`wp_readBuffers`).
-/

namespace Minnow
open Prog

/-- The answer to a system call: a result, `EAGAIN` or `EINPROGRESS`, or another error. -/
inductive SysResult (α : Type)
  | ok (a : α)
  | again
  | failed
deriving Repr, DecidableEq

inductive Direction
  | In
  | Out
deriving Repr, DecidableEq

/-- `events` is the direction that is asked for, if one is. -/
structure PollFd where
  fd : Nat
  events : Option Direction
deriving Repr, DecidableEq

structure Revents where
  pollIn : Bool := false
  pollOut : Bool := false
  err : Bool := false
  hup : Bool := false
  nval : Bool := false
deriving Repr, DecidableEq

/-- The answer of `poll`: an error, none of the descriptors, or what each of them has. -/
inductive PollAnswer
  | failed
  | timedOut
  | ready (revents : Nat → Revents)

/-- What was found for the first `n` descriptors. -/
def PollAnswer.found (n : Nat) : PollAnswer → List Revents
  | .ready revents => (List.range n).map revents
  | _ => []

/-- The answer of `getsockopt` for the pending error of a socket. -/
inductive SockOpt
  | notSocket
  | failed
  | badLength
  | pending (errno : Nat)
deriving Repr, DecidableEq

/-- A kernel in state `κ`: the system calls that the program makes. A read gives bytes, and is told
how many are wanted. -/
class Kernel (κ : Type) where
  read : Nat → Nat → κ → SysResult Bytes × κ
  readv : Nat → List Nat → κ → SysResult Bytes × κ
  writev : Nat → List Bytes → κ → SysResult Nat × κ
  close : Nat → κ → SysResult Unit × κ
  shutdown : Nat → Bool → Bool → κ → SysResult Unit × κ
  poll : List PollFd → Int → κ → PollAnswer × κ
  getsockopt : Nat → κ → SockOpt × κ

/-- A kernel that lets every call through: what `poll` finds ready can be read and written, and only
as much as was asked for. -/
structure Kernel.Obliging (κ : Type) [Kernel κ] : Prop where
  read (fd size : Nat) (k : κ) : ∃ data k', Kernel.read fd size k = (.ok data, k') ∧ data.length ≤ size
  writev (fd : Nat) (buffers : List Bytes) (k : κ) : ∃ n k', Kernel.writev fd buffers k = (.ok n, k') ∧
    n ≤ buffers.flatten.length ∧ (buffers.flatten ≠ [] → n ≠ 0)
  close (fd : Nat) (k : κ) : ∃ k', Kernel.close fd k = (.ok (), k')
  shutdown (fd : Nat) (rd wr : Bool) (k : κ) : ∃ k', Kernel.shutdown fd rd wr k = (.ok (), k')
  poll (pollfds : List PollFd) (timeoutMs : Int) (k : κ) : (Kernel.poll pollfds timeoutMs k).1 ≠ .failed
  getsockopt (fd : Nat) (k : κ) : (Kernel.getsockopt fd k).1 ≠ .failed ∧
    (Kernel.getsockopt fd k).1 ≠ .badLength

/-- What the duplicates of a descriptor share. -/
structure FDWrapper where
  fd : Nat
  eof : Bool := false
  closed : Bool := false
  nonBlocking : Bool := false
  readCount : UInt32 := 0
  writeCount : UInt32 := 0
deriving Repr, DecidableEq

/-- However often a count has wrapped around, one call more shows, and so do two. -/
theorem FDWrapper.count_ne {m n : UInt32} (h : n = m + 1) : m ≠ n := by grind

theorem FDWrapper.count_ne_two {m n : UInt32} (h : n = m + 1 + 1) : m ≠ n := by grind

/-- A call on the descriptor `d` with its answer. -/
inductive SysCall (φ : Type)
  | read (d : φ) (size : Nat) (answer : SysResult Bytes)
  | writev (d : φ) (buffers : List Bytes) (answer : SysResult Nat)
  | close (d : φ) (answer : SysResult Unit)
  | shutdown (d : φ) (rd wr : Bool) (answer : SysResult Unit)
deriving Repr, DecidableEq

namespace SysCall
variable {φ : Type} [DecidableEq φ]

/-- What was read from `d`. -/
def bytesRead (d : φ) (log : List (SysCall φ)) : Bytes :=
  log.flatMap fun
    | .read e _ (.ok data) => if e = d then data else []
    | _ => []

/-- What was written to `d`. -/
def bytesWritten (d : φ) (log : List (SysCall φ)) : Bytes :=
  log.flatMap fun
    | .writev e buffers (.ok n) => if e = d then buffers.flatten.take n else []
    | _ => []

theorem bytesRead_append (d : φ) (log log' : List (SysCall φ)) :
    bytesRead d (log ++ log') = bytesRead d log ++ bytesRead d log' := List.flatMap_append

theorem bytesWritten_append (d : φ) (log log' : List (SysCall φ)) :
    bytesWritten d (log ++ log') = bytesWritten d log ++ bytesWritten d log' := List.flatMap_append

end SysCall

/-- A process with the descriptors `φ`. -/
structure Process (φ κ : Type) where
  kernel : κ
  fds : φ → FDWrapper
  log : List (SysCall φ) := []

namespace Process
variable {φ κ : Type} [DecidableEq φ] [Kernel κ]

def setFd (p : Process φ κ) (d : φ) (f : FDWrapper → FDWrapper) : Process φ κ :=
  { p with fds := fun e => if e = d then f (p.fds e) else p.fds e }

/-- One system call on `d`, which is entered in the log. -/
def sysCall {α : Type} (d : φ) (call : Nat → κ → SysResult α × κ)
    (entry : SysResult α → SysCall φ) : Act (Process φ κ) (SysResult α) := do
  let p ← get
  let (answer, kernel) := call (p.fds d).fd p.kernel
  set { p with kernel, log := p.log ++ [entry answer] }
  return answer

end Process

namespace FileDescriptor
open Process

variable {φ κ : Type} [DecidableEq φ] [Kernel κ]

def kReadBufferSize : Nat := 16384

def registerRead (d : φ) : Act (Process φ κ) Unit :=
  modify fun p => p.setFd d fun f => { f with readCount := f.readCount + 1 }

def registerWrite (d : φ) : Act (Process φ κ) Unit :=
  modify fun p => p.setFd d fun f => { f with writeCount := f.writeCount + 1 }

/-- The result of a call, `zero` for a descriptor that does not block and would have to. -/
def checkSystemCall {α : Type} (d : φ) (zero : α) (answer : SysResult α) : Act (Process φ κ) α := do
  match answer with
  | .ok a => return a
  | .again => if ((← get).fds d).nonBlocking then return zero else throw (.exn .runtimeError)
  | .failed => throw (.exn .runtimeError)

/-- An empty string is made `kReadBufferSize` long before `read`. -/
def readSize (buffer : Bytes) : Nat := if buffer.isEmpty then kReadBufferSize else buffer.length

/-- `read` from the system call on, into a string of `size` bytes: the string it becomes. -/
def readSized (d : φ) (size : Nat) : Act (Process φ κ) Bytes := do
  match ← sysCall d (Kernel.read · size) (.read d size) with
  | .failed => throw (.exn .runtimeError)
  | .again => if ((← get).fds d).nonBlocking then return [] else throw (.exn .runtimeError)
  | .ok data =>
    registerRead d
    if data.isEmpty then
      modify fun p => p.setFd d fun f => { f with eof := true }
    if data.length > size then
      throw (.exn .runtimeError)
    return data

/-- `read` into one string. -/
def read (d : φ) (buffer : Bytes) : Act (Process φ κ) Bytes := readSized d (readSize buffer)

/-- The bytes that `readv` puts at the front of the buffers. -/
def scatter : List Bytes → Bytes → List Bytes
  | [], _ => []
  | buf :: bufs, data =>
    (data.take buf.length ++ buf.drop data.length) :: scatter bufs (data.drop buf.length)

/-- The loop that cuts off what has not been read. -/
def trim : List Bytes → Nat → List Bytes
  | [], _ => []
  | buf :: bufs, remainingSize =>
    if remainingSize ≥ buf.length then buf :: trim bufs (remainingSize - buf.length)
    else buf.take remainingSize :: trim bufs 0

/-- `read` into several strings: what they become. The last one is made `kReadBufferSize` long. -/
def readBuffers (d : φ) (buffers : List Bytes) : Act (Process φ κ) (List Bytes) := do
  if buffers.isEmpty then return []
  let buffers := buffers.dropLast ++ [List.replicate kReadBufferSize 0]
  let totalSize := buffers.flatten.length
  match ← sysCall d (Kernel.readv · (buffers.map List.length)) (.read d totalSize) with
  | .failed => throw (.exn .runtimeError)
  | .again => if ((← get).fds d).nonBlocking then return [] else throw (.exn .runtimeError)
  | .ok data =>
    registerRead d
    if data.length > totalSize then
      throw (.exn .runtimeError)
    return trim (scatter buffers data) data.length

/-- The number of bytes that have been written. -/
def write (d : φ) (buffers : List Bytes) : Act (Process φ κ) Nat := do
  let totalSize := buffers.flatten.length
  let answer ← sysCall d (Kernel.writev · buffers) (.writev d buffers)
  let bytesWritten ← checkSystemCall d 0 answer
  registerWrite d
  if bytesWritten = 0 ∧ totalSize ≠ 0 then
    throw (.exn .runtimeError)
  if bytesWritten > totalSize then
    throw (.exn .runtimeError)
  return bytesWritten

def close (d : φ) : Act (Process φ κ) Unit := do
  let answer ← sysCall d Kernel.close (.close d)
  checkSystemCall d () answer
  modify fun p => p.setFd d fun f => { f with eof := true, closed := true }

/-- `Socket::shutdown` of the read side, the write side or both. -/
def shutdown (d : φ) (rd wr : Bool) : Act (Process φ κ) Unit := do
  let answer ← sysCall d (Kernel.shutdown · rd wr) (.shutdown d rd wr)
  checkSystemCall d () answer
  if rd then registerRead d
  if wr then registerWrite d

end FileDescriptor


/-! ### What the calls do -/

namespace Process
variable {φ κ : Type} {p : Process φ κ} {d e : φ}

/-- The process after a system call. -/
def called (p : Process φ κ) (kernel : κ) (entry : SysCall φ) : Process φ κ :=
  { p with kernel, log := p.log ++ [entry] }

@[simp] theorem fds_called (p : Process φ κ) (k : κ) (entry : SysCall φ) :
    (p.called k entry).fds = p.fds := rfl

theorem wp_sysCall {α : Type} (call : Nat → κ → SysResult α × κ) (entry : SysResult α → SysCall φ)
    {Q : SysResult α → Process φ κ → Prop} {E : Fault → Process φ κ → Prop} :
    (sysCall d call entry).wp Q E p ↔
      Q (call (p.fds d).fd p.kernel).1
        (p.called (call (p.fds d).fd p.kernel).2 (entry (call (p.fds d).fd p.kernel).1)) := Iff.rfl

variable [DecidableEq φ]

@[simp] theorem fds_setFd (p : Process φ κ) (d e : φ) (f : FDWrapper → FDWrapper) :
    (p.setFd d f).fds e = if e = d then f (p.fds e) else p.fds e := rfl

theorem setFd_setFd (p : Process φ κ) (d : φ) (f g : FDWrapper → FDWrapper) :
    (p.setFd d f).setFd d g = p.setFd d fun w => g (f w) := by
  unfold setFd
  congr 1
  funext e
  dsimp only
  split <;> rfl

end Process

namespace FileDescriptor
open Process

variable {φ κ : Type} {p : Process φ κ} {d : φ} {buffer : Bytes} {buffers : List Bytes}
  {E : Fault → Process φ κ → Prop}

theorem wp_checkSystemCall {α : Type} {zero : α} {answer : SysResult α}
    {Q : α → Process φ κ → Prop} :
    (checkSystemCall d zero answer).wp Q E p ↔
      match answer with
      | .ok a => Q a p
      | .again => if (p.fds d).nonBlocking then Q zero p else E (.exn .runtimeError) p
      | .failed => E (.exn .runtimeError) p := by
  unfold checkSystemCall
  cases answer
  · rfl
  · simp only [Act.wp_bind, Act.wp_get, Act.wp_ite, Act.wp_pure, Act.wp_throw]
  · rfl

variable [DecidableEq φ] [Kernel κ]

/-- The descriptor has been read from, and has given `data`. -/
def noteRead (p : Process φ κ) (d : φ) (data : Bytes) : Process φ κ :=
  p.setFd d fun f => { f with readCount := f.readCount + 1, eof := f.eof || data.isEmpty }

theorem wp_read {Q : Bytes → Process φ κ → Prop} : (read d buffer).wp Q E p ↔
    let n := readSize buffer
    match Kernel.read (p.fds d).fd n p.kernel with
    | (.ok data, k) =>
      let p' := noteRead (p.called k (.read d n (.ok data))) d data
      if n < data.length then E (.exn .runtimeError) p' else Q data p'
    | (.again, k) =>
      let p' := p.called k (.read d n .again)
      if (p.fds d).nonBlocking then Q [] p' else E (.exn .runtimeError) p'
    | (.failed, k) => E (.exn .runtimeError) (p.called k (.read d n .failed)) := by
  unfold read readSized
  rw [Act.wp_bind, wp_sysCall]
  dsimp only
  generalize Kernel.read (p.fds d).fd (readSize buffer) p.kernel = r
  obtain ⟨a, k⟩ := r
  cases a with
  | ok data =>
    simp only [registerRead, Act.wp_bind, Act.wp_modify, Act.wp_ite, Act.wp_throw, Act.wp_pure]
    have hnote : ∀ q : Process φ κ, noteRead q d data =
        if data.isEmpty then (q.setFd d fun f => { f with readCount := f.readCount + 1 }).setFd d
          fun f => { f with eof := true }
        else q.setFd d fun f => { f with readCount := f.readCount + 1 } := by
      intro q
      unfold noteRead
      cases data.isEmpty <;> simp [setFd_setFd]
    rw [hnote]
    split <;> rfl
  | again => rw [Act.wp_bind, Act.wp_get, Act.wp_ite]; rfl
  | failed => rfl

/-! ### Reading into several buffers -/

/-- The data, cut where the buffers end. -/
def cut : List Bytes → Bytes → List Bytes
  | [], _ => []
  | buf :: bufs, data => data.take buf.length :: cut bufs (data.drop buf.length)

theorem trim_scatter (buffers : List Bytes) (data : Bytes) :
    trim (scatter buffers data) data.length = cut buffers data := by
  induction buffers generalizing data with
  | nil => rfl
  | cons buf bufs ih =>
    have hlen : (data.take buf.length ++ buf.drop data.length).length = buf.length := by
      rw [List.length_append, List.length_take, List.length_drop]
      omega
    rw [scatter, trim, cut, hlen]
    split
    next hge =>
      have hdrop : buf.drop data.length = [] := List.drop_eq_nil_of_le hge
      rw [hdrop, List.append_nil, ← ih, List.length_drop]
    next hlt =>
      -- the data ends in this buffer
      have htake : data.take buf.length = data := List.take_of_length_le (by omega)
      have hdrop : data.drop buf.length = [] := List.drop_eq_nil_of_le (by omega)
      rw [htake, List.take_left, hdrop, ← ih]
      rfl

theorem wp_readBuffers (hne : buffers ≠ []) {Q : List Bytes → Process φ κ → Prop} :
    (readBuffers d buffers).wp Q E p ↔
    let views := buffers.dropLast ++ [List.replicate kReadBufferSize 0]
    let n := views.flatten.length
    match Kernel.readv (p.fds d).fd (views.map List.length) p.kernel with
    | (.ok data, k) =>
      let p' := (p.called k (.read d n (.ok data))).setFd d fun f =>
        { f with readCount := f.readCount + 1 }
      if n < data.length then E (.exn .runtimeError) p' else Q (cut views data) p'
    | (.again, k) =>
      let p' := p.called k (.read d n .again)
      if (p.fds d).nonBlocking then Q [] p' else E (.exn .runtimeError) p'
    | (.failed, k) => E (.exn .runtimeError) (p.called k (.read d n .failed)) := by
  unfold readBuffers
  rw [if_neg (by simpa using hne), Act.wp_bind, wp_sysCall]
  dsimp only
  generalize buffers.dropLast ++ [List.replicate kReadBufferSize 0] = views
  generalize Kernel.readv (p.fds d).fd (views.map List.length) p.kernel = r
  obtain ⟨a, k⟩ := r
  cases a with
  | ok data =>
    simp only [registerRead, Act.wp_bind, Act.wp_modify, Act.wp_ite, Act.wp_throw, Act.wp_pure,
      trim_scatter]
  | again => rw [Act.wp_bind, Act.wp_get, Act.wp_ite]; rfl
  | failed => rfl

/-- The descriptor has been written to. -/
def noteWrite (p : Process φ κ) (d : φ) : Process φ κ :=
  p.setFd d fun f => { f with writeCount := f.writeCount + 1 }

theorem wp_write {Q : Nat → Process φ κ → Prop} : (write d buffers).wp Q E p ↔
    match Kernel.writev (p.fds d).fd buffers p.kernel with
    | (.ok n, k) =>
      let p' := noteWrite (p.called k (.writev d buffers (.ok n))) d
      if n = 0 ∧ buffers.flatten.length ≠ 0 then E (.exn .runtimeError) p'
      else if buffers.flatten.length < n then E (.exn .runtimeError) p' else Q n p'
    | (.again, k) =>
      let p' := p.called k (.writev d buffers .again)
      if (p.fds d).nonBlocking then
        if buffers.flatten.length ≠ 0 then E (.exn .runtimeError) (noteWrite p' d)
        else Q 0 (noteWrite p' d)
      else E (.exn .runtimeError) p'
    | (.failed, k) => E (.exn .runtimeError) (p.called k (.writev d buffers .failed)) := by
  unfold write registerWrite
  simp only [Act.wp_bind, wp_sysCall, wp_checkSystemCall]
  generalize Kernel.writev (p.fds d).fd buffers p.kernel = r
  obtain ⟨a, k⟩ := r
  cases a <;> simp [noteWrite]

/-- The descriptor has been closed. -/
def noteClose (p : Process φ κ) (d : φ) : Process φ κ :=
  p.setFd d fun f => { f with eof := true, closed := true }

theorem wp_close {Q : Unit → Process φ κ → Prop} : (close d).wp Q E p ↔
    match Kernel.close (p.fds d).fd p.kernel with
    | (.ok _, k) => Q () (noteClose (p.called k (.close d (.ok ()))) d)
    | (.again, k) =>
      let p' := p.called k (.close d .again)
      if (p.fds d).nonBlocking then Q () (noteClose p' d) else E (.exn .runtimeError) p'
    | (.failed, k) => E (.exn .runtimeError) (p.called k (.close d .failed)) := by
  unfold close
  simp only [Act.wp_bind, wp_sysCall, wp_checkSystemCall]
  generalize Kernel.close (p.fds d).fd p.kernel = r
  obtain ⟨a, k⟩ := r
  cases a <;> simp [noteClose]

theorem wp_shutdown {rd wr : Bool} {Q : Unit → Process φ κ → Prop} :
    (shutdown d rd wr).wp Q E p ↔
    let done (p : Process φ κ) :=
      let p := if rd then p.setFd d fun f => { f with readCount := f.readCount + 1 } else p
      if wr then noteWrite p d else p
    match Kernel.shutdown (p.fds d).fd rd wr p.kernel with
    | (.ok _, k) => Q () (done (p.called k (.shutdown d rd wr (.ok ()))))
    | (.again, k) =>
      let p' := p.called k (.shutdown d rd wr .again)
      if (p.fds d).nonBlocking then Q () (done p') else E (.exn .runtimeError) p'
    | (.failed, k) => E (.exn .runtimeError) (p.called k (.shutdown d rd wr .failed)) := by
  unfold shutdown registerRead registerWrite
  simp only [Act.wp_bind, wp_sysCall, wp_checkSystemCall]
  generalize Kernel.shutdown (p.fds d).fd rd wr p.kernel = r
  obtain ⟨a, k⟩ := r
  cases a <;> cases rd <;> cases wr <;> simp [noteWrite]

end FileDescriptor

/-- A kernel that follows a script: its process reads `input` and then the end, or `datagrams` where it
reads into several buffers, and it finds ready what `ready` says. -/
structure Scripted where
  input : List Bytes
  ready : List Nat
  datagrams : List Bytes := []

instance : Kernel Scripted where
  read _ _ k := (.ok (k.input.headD []), { k with input := k.input.tail })
  readv _ _ k := (.ok (k.datagrams.headD []), { k with datagrams := k.datagrams.tail })
  writev _ buffers k := (.ok buffers.flatten.length, k)
  close _ k := (.ok (), k)
  shutdown _ _ _ k := (.ok (), k)
  poll _ _ k :=
    let found := k.ready.headD 0
    (.ready fun i => { pollIn := i == found, pollOut := i == found }, { k with ready := k.ready.tail })
  getsockopt _ k := (.notSocket, k)

end Minnow
