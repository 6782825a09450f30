import Minnow.SocketRun

/-!
# What a socket does

Whatever the kernel, the adapter and the messages it reads do, the socket drives its peer as a host
would (`run_host`), and when the loop is left the owner has got what has arrived (`run_exit`). If they
let every call through, a pass of the loop only fails by its peer (`pass_fault`).
-/

namespace Minnow
open Prog ByteStream TCPSender

namespace TCPMinnowSocket
open SysCall

/-! ### The host behind a socket -/

section Hosted
variable {A κ : Type} {w : TCPMinnowSocket A κ} {cfg : TCPConfig} {cs : List Call} {g : Host}
  {p : TCPPeer}

/-- A host who starts with a new peer has made the calls `cs`, and is what the socket shows: he has
written what was read from the owner, has read what was written to the owner, has received the messages
of the adapter and has on the wire those that were given to the adapter. The socket's peer is his, up to
errors that the socket has set itself. -/
structure Hosted (cfg : TCPConfig) (cs : List Call) (g : Host) (p : TCPPeer) (w : TCPMinnowSocket A κ) :
    Prop where
  makes : Host.Makes { peer := .ofConfig cfg } cs g
  run : ∃ b, HostRun cfg TCPPeer.MayCall g b
  received : Host.receipts { peer := .ofConfig cfg } cs = w.received
  written : g.written = bytesRead .threadData w.process.log
  read : g.read = bytesWritten .threadData w.process.log
  transmitted : g.wire.map (·.msg) = w.transmitted
  tcp : w.tcp = some p
  same : p = g.peer ∨ p.anyErrors = true
  upTo : faultless p = faultless g.peer

theorem Works.hosted (hw : Works g p w) (hm : Host.Makes { peer := .ofConfig cfg } cs g)
    (hr : w.received = Host.receipts { peer := .ofConfig cfg } cs) : Hosted cfg cs g p w :=
  ⟨hm, HostRun.start.makes hm, hr.symm, hw.written.symm, hw.read.symm, hw.transmitted.symm, hw.tcp,
    hw.same, hw.upTo⟩

end Hosted

variable {A κ α : Type} [TCPDatagramAdapter A κ α] [Kernel κ] {w w' : TCPMinnowSocket A κ}
  {cfg : TCPConfig} {s s' : EventLoop (TCPMinnowSocket A κ) × TCPMinnowSocket A κ}

theorem Setting.hosted {done : List (FDRule (TCPMinnowSocket A κ) × Bool)}
    {l : EventLoop (TCPMinnowSocket A κ)} (h : Setting cfg { peer := .ofConfig cfg } [] done l w) :
    ∃ cs g p, Hosted cfg cs g p w ∧ Works g p w := by
  obtain ⟨cs, g, p, hm, hw, hr⟩ := h.drives.works
  exact ⟨cs, g, p, hw.hosted hm hr, hw⟩

/-! ### The loops one after the other -/

/-- `connect` and `listen_and_accept` leave the socket as it is when `_tcp_main` waits, and so does
`_tcp_main` itself. -/
theorem TcpLoop.run {condition : TCPMinnowSocket A κ → Bool} (hl : TcpLoop condition s s')
    (h : Run cfg w s) : Run cfg w s' := by
  induction hl with
  | done => exact h
  | leave _ hp => exact h.pass hp
  | pass _ hp _ ih => exact ih (h.pass hp)

/-- When `listen_and_accept` has got what it waits for, another side has opened the connection. -/
theorem accepted_syn (hf : Fresh w) (hsend : cfg.sendCapacity < 2 ^ 64)
    (hrecv : cfg.recvCapacity < 2 ^ 64) (h : Run cfg w s) (hl : TcpLoop accepting s s')
    (hc : accepting s'.2 = false) : ∃ p, s'.2.tcp = some p ∧ p.sender.sequenceNumbersInFlight = 0 ∧
      ∃ r ∈ s'.2.received, r.msg.sender.SYN = true := by
  obtain ⟨cs, g, p, hh, -⟩ := ((hl.run h).setting hf hsend hrecv).hosted
  unfold accepting at hc
  rw [hh.tcp, Option.any_some, Bool.or_eq_false_iff, Bool.not_eq_false', decide_eq_false_iff_not,
    not_not] at hc
  obtain ⟨hackno, h0⟩ := hc
  have hseen : p.receiver.seenSyn = true := by
    unfold TCPPeer.hasAckno TCPReceiver.send at hackno
    cases hs : p.receiver.seenSyn with
    | true => rfl
    | false => simp [hs] at hackno
  have hsame : (faultless p).receiver.seenSyn = (faultless g.peer).receiver.seenSyn := by rw [hh.upTo]
  rcases hh.makes.seenSyn (hsame.symm.trans hseen) with hnew | hr
  · cases hnew
  · rw [hh.received] at hr
    exact ⟨p, hh.tcp, h0, hr⟩

/-- The end of `_tcp_main` leaves no peer, and the owner's descriptor shut down. -/
theorem wp_endMain : Returns endMain (fun _ w' => w'.tcp = none ∧ w'.transmitted = w.transmitted ∧
    w'.received = w.received ∧ ∃ answer,
      w'.process.log = w.process.log ++ [.shutdown .owner true true answer]) w := by
  unfold Returns endMain onProcess
  rw [Act.wp_bind, Act.wp_zoom, FileDescriptor.wp_shutdown]
  generalize Kernel.shutdown (w.process.fds .owner).fd true true w.process.kernel = r
  obtain ⟨answer, k⟩ := r
  cases answer with
  | ok => exact ⟨rfl, rfl, rfl, _, rfl⟩
  | again =>
    dsimp only
    split
    · exact ⟨rfl, rfl, rfl, _, rfl⟩
    · trivial
  | failed => trivial

/-- When the thread has ended, what the owner has written and has been given is what the host has. -/
theorem main_end (hf : Fresh w) (hsend : cfg.sendCapacity < 2 ^ 64) (hrecv : cfg.recvCapacity < 2 ^ 64)
    (h : Run cfg w s) {condition : TCPMinnowSocket A κ → Bool} (hl : TcpLoop condition s s')
    (he : endMain s'.2 = .ok () w') : w'.tcp = none ∧ ∃ cs g p, Hosted cfg cs g p s'.2 ∧
      bytesRead .threadData w'.process.log = g.written ∧
      bytesWritten .threadData w'.process.log = g.read ∧ w'.transmitted = g.wire.map (·.msg) ∧
      ∃ answer, .shutdown .owner true true answer ∈ w'.process.log := by
  obtain ⟨cs, g, p, hh, -⟩ := ((hl.run h).setting hf hsend hrecv).hosted
  have hend := wp_endMain (w := s'.2)
  unfold Returns Act.wp at hend
  rw [he] at hend
  obtain ⟨htcp, htr, -, answer, hlog⟩ := hend
  refine ⟨htcp, cs, g, p, hh, ?_, ?_, htr.trans hh.transmitted.symm, answer, ?_⟩
  · rw [hlog, bytesRead_append, hh.written]
    exact List.append_nil _
  · rw [hlog, bytesWritten_append, hh.read]
    exact List.append_nil _
  · rw [hlog]
    exact List.mem_append_right _ (List.mem_singleton_self _)

/-- The only message that a peer transmits first. -/
def synMessage (cfg : TCPConfig) : TCPSenderMessage := { seqno := cfg.isn, SYN := true }

/-- The peer after it. -/
def synSent (cfg : TCPConfig) : TCPPeer :=
  { TCPPeer.ofConfig cfg with
    sender := { (TCPPeer.ofConfig cfg).sender with
      synSent := true, msgQueue := [synMessage cfg], bytesInQueue := 1 } }

theorem push_ofConfig (cfg : TCPConfig) : (TCPPeer.ofConfig cfg).push =
    some (synSent cfg, [(TCPPeer.ofConfig cfg).segment (synMessage cfg)]) := by
  simp [TCPPeer.push, TCPSender.push, TCPPeer.ofConfig, loop, pushBody, pushStart, fill, fillBody,
    pushEnd, inFlightWith, sequenceNumbersInFlight, isFinished, bytesBuffered, hasError, bytesPopped,
    TCPSenderMessage.sequenceLength, synMessage, synSent, TCPPeer.sendAll, TCPPeer.segment]

/-- If the adapter writes it, `connect` gets to its loop with a SYN transmitted and nothing else. -/
theorem startConnect_sends {config : FdAdapterConfig α} {a : A} {k : κ} (htcp : w.tcp = none)
    (hwrite : TCPDatagramAdapter.write ((TCPPeer.ofConfig cfg).segment (synMessage cfg))
      (TCPDatagramAdapter.setConfig κ config w.datagramAdapter, w.process.kernel) = .ok () (a, k)) :
    startConnect cfg config ({}, w) = .ok () (socketLoop, { w with
      tcp := some (synSent cfg)
      transmitted := w.transmitted ++ [(TCPPeer.ofConfig cfg).segment (synMessage cfg)]
      }.setWorld a k) := by
  refine Act.eq_ok_of_wp ?_
  unfold startConnect
  rw [Act.wp_bind, Act.wp_get]
  dsimp only
  rw [htcp, Act.wp_ite, if_neg (by simp), Act.wp_bind, wp_initializeTCP]
  unfold onSocket connectPeer pushPeer peer
  simp only [Act.wp_zoom, Act.wp_bind, Act.wp_modify, Act.wp_get, Act.wp_pure, push_ofConfig]
  unfold setPeer transmit transmit onAdapter
  simp only [Act.wp_zoom, Act.wp_bind, Act.wp_modify, Act.wp_pure, Act.wp_ite]
  unfold Act.wp Act.Ends
  rw [hwrite]
  exact ⟨trivial, rfl⟩

/-! ### A run -/

/-- An adapter that reads `messages`. -/
structure Inbox where
  messages : List TCPMessage
  fd : FDWrapper := { fd := 3 }

instance : TCPDatagramAdapter Inbox Scripted (UInt32 × UInt16) where
  fd a := a.fd
  read := do
    let (a, k) ← get
    set (Inbox.mk a.messages.tail { a.fd with readCount := a.fd.readCount + 1 }, k)
    return a.messages.head?
  write _ := return
  setConfig _ a := a
  setListening _ a := a
  tick _ a := a

def anywhere : FdAdapterConfig (UInt32 × UInt16) := ⟨(0, 0), (0, 0)⟩

/-- Passes with what has gone by in each of them, if none fails and none is the last one. -/
def passes : List Nat → EventLoop (TCPMinnowSocket A κ) × TCPMinnowSocket A κ →
    Option (EventLoop (TCPMinnowSocket A κ) × TCPMinnowSocket A κ)
  | [], s => some s
  | elapsed :: rest, s => ((tcpPass false elapsed).returned s).bind fun r =>
      if r.1 then passes rest r.2 else none

theorem Run.passes {times : List Nat} (h : Run cfg w s)
    (hs : TCPMinnowSocket.passes times s = some s') : Run cfg w s' := by
  induction times generalizing s with
  | nil =>
    cases hs
    exact h
  | cons elapsed rest ih =>
    obtain ⟨⟨more, t⟩, ht, hs⟩ := Option.bind_eq_some_iff.1 hs
    exact ih (h.pass (Act.of_returned ht)) (Option.ite_none_right_eq_some.1 hs).2

def visitConfig : TCPConfig := ⟨10, 4, 4, ⟨7⟩⟩

/-- A socket that connects. Its owner writes two bytes, of which the other side has to be told twice, is
given one and closes his end; the other side has closed before. -/
def visit : TCPMinnowSocket Inbox Scripted where
  process := {
    kernel := { input := [[1, 2]], ready := [0, 1, 7, 0, 0, 2, 1, 0] }
    fds := fun _ => { fd := 4 } }
  datagramAdapter := {
    messages := [
      { sender := { seqno := ⟨100⟩, SYN := true }
        receiver := { ackno := some ⟨8⟩, windowSize := 4 } },
      { sender := { seqno := ⟨101⟩, payload := [9], FIN := true }
        receiver := { ackno := some ⟨10⟩, windowSize := 4 } },
      { sender := { seqno := ⟨103⟩ }, receiver := { ackno := some ⟨10⟩, windowSize := 4 } },
      { sender := { seqno := ⟨103⟩ }, receiver := { ackno := some ⟨11⟩, windowSize := 4 } }] }

theorem visit_fresh : Fresh visit := ⟨rfl, rfl, rfl, rfl⟩

abbrev Visit := EventLoop (TCPMinnowSocket Inbox Scripted) × TCPMinnowSocket Inbox Scripted

def visited (times : List Nat) : Option Visit :=
  ((startConnect visitConfig anywhere).returned ({}, visit)).bind fun r => passes times r.2

theorem exists_visited (times : List Nat) (good : Visit → Bool)
    (h : (visited times).any good = true) : ∃ s, Run visitConfig visit s ∧ good s = true := by
  obtain ⟨s, hs, hgood⟩ := (Option.any_eq_true _ _).1 h
  obtain ⟨⟨⟨⟩, t⟩, ht, hs⟩ := Option.bind_eq_some_iff.1 hs
  exact ⟨s, (Run.connect anywhere (Act.of_returned ht)).passes hs, hgood⟩

/-! ### What a socket has done -/

/-- Whenever the socket waits, a host is behind it, and the owner has not been told of the end before he
had all there will be, or the inbound stream had an error. -/
theorem run_host (hf : Fresh w) (hsend : cfg.sendCapacity < 2 ^ 64) (hrecv : cfg.recvCapacity < 2 ^ 64)
    (h : Run cfg w s) : ∃ cs g p, Hosted cfg cs g p s.2 ∧
      ((∃ c ∈ s.2.process.log, tellsEnd c = true) → p.receiver.inbound.Over) := by
  obtain ⟨cs, g, p, hh, hw⟩ := (h.setting hf hsend hrecv).hosted
  exact ⟨cs, g, p, hh, hw.ended⟩

theorem run_host_visit : ∃ (s : Visit) (cs : List Call) (g : Host) (p : TCPPeer),
    Hosted visitConfig cs g p s.2 ∧ g.written = [1, 2] ∧ g.read = [9] ∧ p.receiver.inbound.Over := by
  obtain ⟨s, hrun, hs⟩ := exists_visited [0, 0, 10, 0, 0, 0] (fun s => decide
    (bytesRead .threadData s.2.process.log = [1, 2] ∧
      bytesWritten .threadData s.2.process.log = [9] ∧ ∃ c ∈ s.2.process.log, tellsEnd c = true))
    (by decide +kernel)
  obtain ⟨hwritten, hread, htold⟩ := of_decide_eq_true hs
  obtain ⟨cs, g, p, hh, hover⟩ := run_host visit_fresh (by decide) (by decide) hrun
  exact ⟨s, cs, g, p, hh, hh.written.trans hwritten, hh.read.trans hread, hover htold⟩

/-- Whatever arrives, and however the calls are scheduled, a segment that the socket gives to its
adapter, be it new or transmitted again, is a segment of the stream that the owner has written. -/
theorem run_segments (hf : Fresh w) (hsend : cfg.sendCapacity < 2 ^ 64)
    (hrecv : cfg.recvCapacity < 2 ^ 64) (h : Run cfg w s) : ∀ m ∈ s.2.transmitted,
      0 < m.sender.sequenceLength →
        ∃ a, m.sender.WellFormed cfg.isn (bytesRead .threadData s.2.process.log) a := by
  obtain ⟨cs, g, p, hm, hw, -⟩ := (h.setting hf hsend hrecv).drives.works
  have hi := (hostInv_start hsend).makes hsend hm
  intro m hmem hlen
  rw [hw.transmitted] at hmem
  obtain ⟨pkt, hpkt, rfl⟩ := List.mem_map.1 hmem
  rw [hw.written]
  exact ⟨pkt.seqAt, ((hi.inv hsend).placed _ _ (hi.wire pkt hpkt hlen)).wellFormed⟩

/-- The bytes go out twice. -/
theorem run_segments_visit : ∃ s : Visit,
    (s.2.transmitted.filter fun m => decide (m.sender.payload = [1, 2])).length = 2 ∧
      ∀ m ∈ s.2.transmitted, 0 < m.sender.sequenceLength →
        ∃ a, m.sender.WellFormed ⟨7⟩ (bytesRead .threadData s.2.process.log) a := by
  obtain ⟨s, hrun, hs⟩ := exists_visited [0, 0, 10] (fun s => decide
    ((s.2.transmitted.filter fun m => decide (m.sender.payload = [1, 2])).length = 2))
    (by decide +kernel)
  exact ⟨s, of_decide_eq_true hs, run_segments visit_fresh (by decide) (by decide) hrun⟩

/-- When the loop is left with the rules that serve the adapter and the owner still there, the owner
has got all that the peer has received. If there is no error either, all that he wrote has been
transmitted, none of it is in flight, and he has been told of the end. -/
theorem run_exit (hf : Fresh w) (hsend : cfg.sendCapacity < 2 ^ 64) (hrecv : cfg.recvCapacity < 2 ^ 64)
    (h : Run cfg w s) (hw : EventLoop.waitNextEvent TCP_TICK_MS s = .ok .Exit s')
    (hreceive : rule .receive ∈ s'.1.fdRules) (hread : rule .read ∈ s'.1.fdRules) :
    ∃ cs g p, Hosted cfg cs g p s'.2 ∧ p.active = false ∧ p.receiver.inbound.queued = [] ∧
      (p.anyErrors = true ∨ (p = g.peer ∧ p.receiver.inbound.isClosed = true ∧
        g.sent.Sublist (s'.2.transmitted.map (·.sender)) ∧
        payloads g.sent = bytesRead .threadData s'.2.process.log ∧
        p.sender.sequenceNumbersInFlight = 0 ∧
        ∃ c ∈ s'.2.process.log, tellsEnd c = true)) := by
  have hexit := (keeps hsend).wp_wait TCP_TICK_MS (h.setting hf hsend hrecv)
  rw [Act.wp, hw] at hexit
  have hset : Setting cfg _ _ (s'.1.fdRules.map fun r => (r, false)) s'.1 s'.2 := hexit
  obtain ⟨cs, g, p, hh, hworks⟩ := hset.hosted
  have hinactive : p.active = false :=
    hset.idle .receive (List.mem_map.2 ⟨_, hreceive, rfl⟩) p hh.tcp
  obtain ⟨hbuf, hover⟩ := hset.idle .read (List.mem_map.2 ⟨_, hread, rfl⟩) p hh.tcp
  have hqueued : p.receiver.inbound.queued = [] := by
    rw [ByteStream.bytesBuffered, hworks.inbound.buffered] at hbuf
    exact List.length_eq_zero_iff.1 hbuf
  refine ⟨cs, g, p, hh, hinactive, hqueued, ?_⟩
  cases he : p.anyErrors with
  | true => exact .inl rfl
  | false =>
    obtain rfl : p = g.peer := hh.same.resolve_right (by simp [he])
    obtain ⟨h0, hdone, hclosed, -⟩ := TCPPeer.active_eq_false hinactive he
    have hinv := ((hostInv_start hsend).makes hsend hh.makes).inv hsend
    have hempty := hinv.ready.stream.bytesInDeck_of_isFinished hdone
    rw [hinv.ready.stream.buffered] at hempty
    have hacc := hinv.accepted
    rw [List.length_eq_zero_iff.1 hempty, List.append_nil, payloads_segments] at hacc
    have hnew : Host.Wired { peer := .ofConfig cfg } := List.nil_sublist _
    have hwired := hnew.makes hh.makes
    refine .inr ⟨rfl, hclosed, ?_, hacc.symm.trans hh.written, h0, hworks.told (hover (.inl ?_))⟩
    · rw [← hh.transmitted, List.map_map]
      exact hwired
    · exact (isFinished_iff_queued hworks.inbound).2 ⟨hclosed, hqueued⟩

theorem Setting.mem_of_id {c : TCPConfig} {g : Host} {msgs : List Receipt}
    {done : List (FDRule (TCPMinnowSocket A κ) × Bool)} {l : EventLoop (TCPMinnowSocket A κ)}
    (h : Setting c g msgs done l w) {k : SocketRule} (hid : k.id ∈ l.fdRules.map (·.id)) :
    rule k ∈ l.fdRules := by
  obtain ⟨ks, hks, -⟩ := h.left
  rw [hks, List.map_map] at hid
  obtain ⟨k', hk', heq⟩ := List.mem_map.1 hid
  obtain rfl : k' = k := by cases k' <;> cases k <;> first | rfl | cases heq
  rw [hks]
  exact List.mem_map_of_mem hk'

theorem tcpPass_exit {abort : Bool} {elapsed : Nat}
    (hw : EventLoop.waitNextEvent TCP_TICK_MS s = .ok .Exit s') :
    tcpPass abort elapsed s = .ok false s' := by
  refine Act.eq_ok_of_wp ?_
  unfold tcpPass
  rw [Act.wp_bind]
  refine Act.wp_of_ok hw ?_
  simp

/-- Both sides are through, and there was no error. -/
theorem run_exit_visit : ∃ (s : Visit) (cs : List Call) (g : Host) (p : TCPPeer),
    Hosted visitConfig cs g p s.2 ∧ p.anyErrors = false ∧ p.active = false ∧
      p.receiver.inbound.queued = [] ∧ g.read = [9] ∧ payloads g.sent = [1, 2] ∧
      p.sender.sequenceNumbersInFlight = 0 := by
  obtain ⟨s, hrun, hs⟩ := exists_visited [0, 0, 10, 0, 0, 0, 0, 0]
    (fun s => ((EventLoop.waitNextEvent TCP_TICK_MS).returned s).any
      fun r : EventLoop.Result × Visit => decide (r.1 = .Exit ∧
        SocketRule.receive.id ∈ r.2.1.fdRules.map (·.id) ∧
        SocketRule.read.id ∈ r.2.1.fdRules.map (·.id) ∧
        bytesRead .threadData r.2.2.process.log = [1, 2] ∧
        bytesWritten .threadData r.2.2.process.log = [9] ∧ r.2.2.tcp.all (!·.anyErrors) = true))
    (by decide +kernel)
  obtain ⟨⟨result, s'⟩, hw, hs⟩ := (Option.any_eq_true _ _).1 hs
  obtain ⟨hresult, hreceive, hread, hwritten, hgiven, hclean⟩ := of_decide_eq_true hs
  have hw : EventLoop.waitNextEvent TCP_TICK_MS s = .ok .Exit s' := by
    rw [Act.of_returned hw, show result = .Exit from hresult]
  have hpass : tcpPass false 0 s = .ok false s' := tcpPass_exit hw
  have hset := (hrun.pass hpass).setting visit_fresh (by decide) (by decide)
  obtain ⟨cs, g, p, hh, hstop, hq, hend⟩ := run_exit visit_fresh (by decide) (by decide) hrun hw
    (hset.mem_of_id hreceive) (hset.mem_of_id hread)
  rw [hh.tcp, Option.all_some, Bool.not_eq_true'] at hclean
  obtain ⟨-, -, -, hsent, h0, -⟩ := hend.resolve_left (by simp [hclean])
  exact ⟨s', cs, g, p, hh, hclean, hstop, hq, hh.read.trans hgiven, hsent.trans hwritten, h0⟩

/-! ### Faults -/

/-- The peer of the host behind the socket has failed: it could not receive the message that was read
last, or it did not come back from `push`, for an owner who has closed his side without writing, when
no window had been advertised and nothing had gone out. -/
inductive PeerFails (cfg : TCPConfig) (w : TCPMinnowSocket A κ) : Fault → Prop
  | receive {cs : List Call} {g : Host} {msg : TCPMessage} {e : Fault}
      (makes : Host.Makes { peer := .ofConfig cfg } cs g) (run : ∃ b, HostRun cfg TCPPeer.MayCall g b)
      (fault : (g.peer.receive msg).fault = some e)
      (received : w.received = Host.receipts { peer := .ofConfig cfg } cs ++ [⟨g.peer, msg⟩]) :
      PeerFails cfg w e
  | push {cs : List Call} {g : Host} (hosted : Hosted cfg cs g g.peer w) (push : g.peer.push = none)
      (window : g.peer.sender.curWinSize = 0) (closed : g.peer.sender.input.isClosed = true)
      (unwritten : bytesRead .threadData w.process.log = [])
      (unsent : ∀ m ∈ w.transmitted, m.sender.sequenceLength = 0) : PeerFails cfg w .hang

theorem Run.peerFails (hf : Fresh w) (hsend : cfg.sendCapacity < 2 ^ 64)
    (hrecv : cfg.recvCapacity < 2 ^ 64) (hk : Kernel.Obliging κ)
    (ha : TCPDatagramAdapter.Obliging A κ) (h : Run cfg w s) {abort : Bool} {elapsed : Nat}
    {e : Fault} (hp : tcpPass abort elapsed s = .error e s') : PeerFails cfg s'.2 e := by
  have hpass : (tcpPass abort elapsed).wp _ _ s := (h.setting hf hsend hrecv).wp_pass hsend
  unfold Act.wp at hpass
  rw [hp] at hpass
  obtain ⟨cs, g, hm, hfault⟩ := hpass hk ha
  rcases hfault with ⟨rfl, hnone, hw, hr⟩ | ⟨msg, hmsg, hrec⟩
  · have hi := (hostInv_start hsend).makes hsend hm
    obtain ⟨hz, hclosed, hwritten, hwire⟩ := hi.of_push_none hsend hnone
    refine .push (hw.hosted hm hr) hnone hz hclosed (hw.written.trans hwritten) fun m hmem => ?_
    rw [hw.transmitted] at hmem
    obtain ⟨pkt, hpkt, rfl⟩ := List.mem_map.1 hmem
    exact hwire pkt hpkt
  · exact .receive hm (HostRun.start.makes hm) hmsg hrec

/-- If the kernel and the adapter let every call through, only the peer makes a pass fail. In
particular no rule is ever taken for a busy wait. -/
theorem pass_fault (hf : Fresh w) (hsend : cfg.sendCapacity < 2 ^ 64)
    (hrecv : cfg.recvCapacity < 2 ^ 64) (hk : Kernel.Obliging κ)
    (ha : TCPDatagramAdapter.Obliging A κ) (h : Run cfg w s) {abort : Bool} {elapsed : Nat}
    {e : Fault} (hp : tcpPass abort elapsed s = .error e s') : PeerFails cfg s'.2 e :=
  h.peerFails hf hsend hrecv hk ha hp

/-- A kernel that lets every call through, without any data. -/
structure Idler where

instance : Kernel Idler where
  read _ _ k := (.ok [], k)
  readv _ _ k := (.ok [], k)
  writev _ buffers k := (.ok buffers.flatten.length, k)
  close _ k := (.ok (), k)
  shutdown _ _ _ k := (.ok (), k)
  poll _ _ k := (.ready fun _ => { pollIn := true, pollOut := true }, k)
  getsockopt _ k := (.notSocket, k)

theorem idler_obliging : Kernel.Obliging Idler where
  read _ _ k := ⟨[], k, rfl, Nat.zero_le _⟩
  writev _ _ k := ⟨_, k, rfl, Nat.le_refl _, mt List.length_eq_zero_iff.1⟩
  close _ k := ⟨k, rfl⟩
  shutdown _ _ _ k := ⟨k, rfl⟩
  poll _ _ _ := nofun
  getsockopt _ _ := ⟨nofun, nofun⟩

/-- An adapter that reads nothing but messages without an acknowledgment. -/
structure Mute where
  fd : FDWrapper := { fd := 3 }

instance : TCPDatagramAdapter Mute Idler (UInt32 × UInt16) where
  fd a := a.fd
  read := do
    modify fun s => (⟨{ s.1.fd with readCount := s.1.fd.readCount + 1 }⟩, s.2)
    return some { sender := {}, receiver := {} }
  write _ := return
  setConfig _ a := a
  setListening _ a := a
  tick _ a := a

/-- The SYN is in flight, and what is received has no acknowledgment to compare it with. -/
theorem pass_fault_mute : ∃ s' : EventLoop (TCPMinnowSocket Mute Idler) × TCPMinnowSocket Mute Idler,
    s'.2.received.length = 1 ∧ PeerFails ⟨10, 4, 4, ⟨7⟩⟩ s'.2 (.undef .noValue) := by
  let w : TCPMinnowSocket Mute Idler := {
    process := { kernel := {}, fds := fun _ => { fd := 4 } }
    datagramAdapter := {} }
  have hstart : startConnect ⟨10, 4, 4, ⟨7⟩⟩ anywhere ({}, w) = .ok () _ :=
    startConnect_sends rfl rfl
  have hobliging : TCPDatagramAdapter.Obliging Mute Idler :=
    ⟨fun _ _ => ⟨_, _, _, rfl, rfl⟩, fun _ _ _ => ⟨_, _, rfl, rfl⟩⟩
  exact ⟨_, rfl, pass_fault ⟨rfl, rfl, rfl, rfl⟩ (by decide) (by decide) idler_obliging hobliging
    (Run.connect anywhere hstart) (show tcpPass false 0 _ = .error (.undef .noValue) _ from rfl)⟩

end TCPMinnowSocket

end Minnow
