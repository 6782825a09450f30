import Minnow.PeerShutdown
import Minnow.TCPMinnowSocket

/-!
# The host that a socket works for

What the callbacks of a socket do to its peer are calls of a host (`Host.Makes`), who has written what
was read from the owner, has read what was written to him, and has on the wire what was transmitted
(`Records`).
-/

namespace Minnow
open Prog TCPSender TCPReceiver ByteStream

variable {g g' h h' : Host} {c : TCPConfig} {cl : Call} {cs cs' : List Call} {b : Bool}

/-! ### Calls one after the other -/

/-- A peer with an error is not asked to transmit anything by itself, and an exception ends all. -/
def TCPPeer.MayCall (p : TCPPeer) : Call → Prop
  | .push => p.anyErrors = false
  | .tick _ => p.anyErrors = false
  | .receive msg => ∃ x, p.receive msg = .ok x
  | _ => True

/-- The calls `cs` have been made. -/
def Host.Makes (h : Host) : List Call → Host → Prop
  | [], h' => h' = h
  | cl :: cs, h' => ∃ h₁ b, h.peer.MayCall cl ∧ h.call cl = some (h₁, b) ∧ h₁.Makes cs h'

theorem Host.Makes.append (hm : g.Makes cs h) (hm' : h.Makes cs' h') : g.Makes (cs ++ cs') h' := by
  induction cs generalizing g with
  | nil => cases hm; exact hm'
  | cons cl cs ih =>
    obtain ⟨g₁, b, hok, hc, hm⟩ := hm
    exact ⟨g₁, b, hok, hc, ih hm⟩

theorem Host.makes_single (hok : g.peer.MayCall cl) (hc : g.call cl = some (h, b)) :
    g.Makes [cl] h := ⟨h, b, hok, hc, rfl⟩

theorem HostRun.makes (hr : HostRun c TCPPeer.MayCall g b) (hm : g.Makes cs h) :
    ∃ b', HostRun c TCPPeer.MayCall h b' := by
  induction cs generalizing g b with
  | nil => cases hm; exact ⟨b, hr⟩
  | cons cl cs ih =>
    obtain ⟨g₁, b₁, hok, hc, hm⟩ := hm
    exact ih (hr.call cl hok hc) hm

theorem HostInv.makes (hi : HostInv c g) (hcap : c.sendCapacity < 2 ^ 64) (hm : g.Makes cs h) :
    HostInv c h := by
  induction cs generalizing g with
  | nil => cases hm; exact hi
  | cons cl cs ih =>
    obtain ⟨g₁, b, -, hc, hm⟩ := hm
    exact ih (hi.call hcap hc) hm

def Host.receipt (h : Host) : Call → List Receipt
  | .receive msg => [⟨h.peer, msg⟩]
  | _ => []

/-- What the calls `cs` receive. -/
def Host.receipts (h : Host) : List Call → List Receipt
  | [] => []
  | cl :: cs => h.receipt cl ++ (h.call cl).elim [] fun (h', _) => h'.receipts cs

theorem Host.receipts_single (hc : g.call cl = some (h, b)) : g.receipts [cl] = g.receipt cl := by
  rw [receipts, hc]
  exact List.append_nil _

theorem Host.Makes.receipts (hm : g.Makes cs h) (cs' : List Call) :
    g.receipts (cs ++ cs') = g.receipts cs ++ h.receipts cs' := by
  induction cs generalizing g with
  | nil => cases hm; rfl
  | cons cl cs ih =>
    obtain ⟨g₁, b, -, hc, hm⟩ := hm
    rw [List.cons_append, Host.receipts, Host.receipts, hc, List.append_assoc]
    exact congrArg _ (ih hm)

theorem Host.msg_stamp (n q : Nat) (out : List TCPMessage) : (stamp n q out).map (·.msg) = out := by
  induction out generalizing q with
  | nil => rfl
  | cons msg out ih => exact congrArg _ (ih _)

/-- What has been pushed is on the wire, in that order. -/
def Host.Wired (h : Host) : Prop := h.sent.Sublist (h.wire.map (·.msg.sender))

theorem Host.Wired.call (hw : g.Wired) (hc : g.call cl = some (h, b)) : h.Wired := by
  have hmore : ∀ (p : TCPPeer) (ms : List TCPSenderMessage) (n q : Nat) (out : List TCPMessage),
      ms.Sublist (out.map (·.sender)) →
        Wired { g with peer := p, sent := g.sent ++ ms, wire := g.wire ++ stamp n q out } := by
    intro p ms n q out hout
    show (g.sent ++ ms).Sublist _
    rw [← msg_stamp n q out, List.map_map] at hout
    rw [List.map_append]
    exact List.Sublist.append hw hout
  cases cl with
  | write data => cases hc; exact hw
  | close => cases hc; exact hw
  | read len =>
    obtain ⟨g₁, hread, heq⟩ := Option.map_eq_some_iff.1 hc
    cases heq
    obtain ⟨o, -, -, rfl⟩ := Host.readBytes_eq hread
    exact hw
  | push =>
    obtain ⟨g₁, hpush, heq⟩ := Option.map_eq_some_iff.1 hc
    cases heq
    obtain ⟨sd, ms, -, rfl⟩ := Host.push_eq hpush
    refine hmore _ ms _ _ _ ?_
    rw [TCPPeer.sender_segments]
  | tick ms =>
    cases hc
    have h := hmore (g.peer.tick ms).1 [] g.ackAt (span g.sent - g.peer.sender.bytesInQueue)
      (g.peer.tick ms).2 (List.nil_sublist _)
    rwa [List.append_nil] at h
  | receive msg =>
    obtain ⟨p, out, -, rfl⟩ := Host.receive_leaves (Host.receive_of_call hc)
    have h := hmore p [] (g.ackAfter msg.sender p) (span g.sent) out (List.nil_sublist _)
    rw [List.append_nil] at h
    exact h

theorem Host.Wired.makes (hw : g.Wired) (hm : g.Makes cs h) : h.Wired := by
  induction cs generalizing g with
  | nil => cases hm; exact hw
  | cons cl cs ih =>
    obtain ⟨g₁, b, -, hc, hm⟩ := hm
    exact ih (hw.call hc) hm

theorem TCPReceiver.seenSyn_of_receive {t t' : TCPReceiver} {m : TCPSenderMessage}
    (hl : (t.receive m).Leaves t') (h : t'.seenSyn = true) : m.SYN = true ∨ t.seenSyn = true := by
  rcases receive_cases hl with ⟨-, hseen, rfl⟩ | ⟨hor, -⟩
  · split at h <;> exact .inr h
  · exact hor

theorem Host.seenSyn_of_call (hc : g.call cl = some (h, b)) (hs : h.peer.receiver.seenSyn = true) :
    g.peer.receiver.seenSyn = true ∨ ∃ r ∈ g.receipt cl, r.msg.sender.SYN = true := by
  cases cl with
  | write data => cases hc; exact .inl hs
  | close => cases hc; exact .inl hs
  | read len =>
    obtain ⟨g₁, hread, heq⟩ := Option.map_eq_some_iff.1 hc
    cases heq
    obtain ⟨o, -, -, rfl⟩ := Host.readBytes_eq hread
    exact .inl hs
  | push =>
    obtain ⟨g₁, hpush, heq⟩ := Option.map_eq_some_iff.1 hc
    cases heq
    obtain ⟨sd, ms, -, rfl⟩ := Host.push_eq hpush
    exact .inl hs
  | tick ms => cases hc; exact .inl hs
  | receive msg =>
    obtain ⟨p, out, hr, rfl⟩ := Host.receive_leaves (Host.receive_of_call hc)
    rcases TCPPeer.receive_cases hr with ⟨-, rfl, -⟩ | ⟨-, hrec, -⟩
    · exact .inl hs
    · exact (TCPReceiver.seenSyn_of_receive hrec hs).symm.imp_right fun hsyn =>
        ⟨_, List.mem_singleton_self _, hsyn⟩

/-- A peer that has seen a SYN has received one. -/
theorem Host.Makes.seenSyn (hm : g.Makes cs h) (hseen : h.peer.receiver.seenSyn = true) :
    g.peer.receiver.seenSyn = true ∨ ∃ r ∈ g.receipts cs, r.msg.sender.SYN = true := by
  induction cs generalizing g with
  | nil => cases hm; exact .inl hseen
  | cons cl cs ih =>
    obtain ⟨g₁, b, -, hc, hm⟩ := hm
    have hlater : ∀ r ∈ g₁.receipts cs, r ∈ g.receipts (cl :: cs) := by
      intro r hr
      rw [Host.receipts, hc]
      exact List.mem_append_right _ hr
    rcases ih hm with h₁ | ⟨r, hr, hsyn⟩
    · refine (Host.seenSyn_of_call hc h₁).imp_right fun hr => ?_
      obtain ⟨r, hr, hsyn⟩ := hr
      exact ⟨r, List.mem_append_left _ hr, hsyn⟩
    · exact .inr ⟨r, hlater r hr, hsyn⟩

/-! ### The streams of a host -/

/-- The stream has been given to its reader, or has an error. -/
def ByteStream.Over (s : ByteStream) : Prop := s.isFinished = true ∨ s.hasError = true

theorem ByteStream.isFinished_iff_queued {s : ByteStream} (hw : s.Wf) :
    s.isFinished = true ↔ s.isClosed = true ∧ s.queued = [] := by
  rw [isFinished, Bool.and_eq_true, List.isEmpty_iff, hw.deck_eq_nil_iff, hw.buffered,
    List.length_eq_zero_iff]

theorem TCPPeer.anyErrors_of_active {p : TCPPeer} (h : p.active = true) : p.anyErrors = false := by
  rw [Bool.eq_false_iff]
  intro he
  unfold TCPPeer.active at h
  rw [TCPPeer.anyErrors] at he
  simp [he] at h

/-- The stream without its error. -/
def ByteStream.faultless (s : ByteStream) : ByteStream := { s with error := false }

theorem ByteStream.loop_faultless (len fuel : Nat) (s : ByteStream) (n : Nat) :
    loop (popBody len) fuel (s.faultless, n) =
      (loop (popBody len) fuel (s, n)).map (Option.map faultless) := by
  induction fuel generalizing s n with
  | zero => rfl
  | succ fuel ih =>
    rw [loop, loop, popBody, popBody]
    by_cases hn : n = len
    · simp only [if_pos hn, Option.map_some]
    simp only [if_neg hn]
    have hdeck : s.faultless.deck = s.deck := rfl
    rw [hdeck]
    cases s.deck with
    | nil => rfl
    | cons curStr rest =>
      by_cases hlen : curStr.length ≤ len - n
      · simp only [if_pos hlen]
        rw [← ih]
        rfl
      · simp only [if_neg hlen]
        rw [← ih]
        rfl

theorem ByteStream.pop_faultless (s : ByteStream) (len : Nat) :
    s.faultless.pop len = (s.pop len).map faultless := by
  unfold pop
  have hdeck : s.faultless.deck = s.deck := rfl
  rw [hdeck]
  by_cases hnil : s.deck = []
  · rw [if_pos hnil, if_pos hnil]
    rfl
  · rw [if_neg hnil, if_neg hnil, loop_faultless]
    cases loop (popBody len) (s.deck.length + 2) (s, 0) <;> rfl

/-- What a receipt does to the inbound stream. -/
theorem TCPReceiver.receive_over {t t' : TCPReceiver} {m : TCPSenderMessage}
    (hl : (t.receive m).Leaves t') (hw : t.inbound.Wf) (ho : t.inbound.Over) : t'.inbound.Over := by
  rcases ho with hf | he
  · have hw' := (receive_stream hl).1 hw
    rw [isFinished_iff_queued hw] at hf
    rw [ByteStream.Over, isFinished_iff_queued hw']
    rcases receive_cases hl with ⟨-, -, rfl⟩ | ⟨-, hr⟩
    · left
      split <;> exact hf
    · obtain ⟨r', hins, heq⟩ := hr.leaves
      have hk := kept_noted t m
      have hends := Reassembler.ends_insert hins
      have hc' : (t.noted m).reassembler.output.isClosed = true := (noted_pushed t m).2.2.trans hf.1
      rw [inbound, heq]
      exact .inl ⟨(hends.of_closed hc').1,
        (hends.queued_of_closed hc').trans ((hk.pushed hf.1).2.trans hf.2)⟩
  · exact .inr (receive_hasError hl (.inl he))

/-- What calls other than `close` keep of the two streams. -/
structure Host.Keeps (g h : Host) : Prop where
  outbound : h.peer.sender.input.isClosed = g.peer.sender.input.isClosed
  inbound : g.peer.receiver.inbound.Wf → h.peer.receiver.inbound.Wf
  ended : g.peer.receiver.inbound.Wf → g.peer.receiver.inbound.Over → h.peer.receiver.inbound.Over

theorem TCPSender.Sends.isClosed {s s' : TCPSender} {ms : List TCPSenderMessage}
    (hs : Sends s ms s') : s'.input.isClosed = s.input.isClosed := by
  induction hs with
  | nil => rfl
  | snoc _ ht ih => exact ht.popped.isClosed.trans ih

theorem HostInv.keeps_push (hi : HostInv c g) (hcap : c.sendCapacity < 2 ^ 64)
    (hp : g.push = some h) : g.Keeps h := by
  obtain ⟨sd, ms, hpush, rfl⟩ := Host.push_eq hp
  exact ⟨((hi.inv hcap).ready.push_sends hpush).isClosed, id, fun _ => id⟩

theorem Host.keeps_tick (g : Host) (ms : Nat) : g.Keeps (g.tick ms) := by
  obtain ⟨t, n, heq⟩ := tick_eq g.peer.sender ms
  refine ⟨?_, id, fun _ => id⟩
  show (g.peer.sender.tick ms).1.input.isClosed = _
  rw [heq]

theorem HostInv.keeps_receive (hi : HostInv c g) (hcap : c.sendCapacity < 2 ^ 64) {msg : TCPMessage}
    {p : TCPPeer} {out : List TCPMessage} (hr : (g.peer.receive msg).Leaves (p, out)) (pkt : Packet) :
    g.Keeps (g.received pkt p out) := by
  rcases TCPPeer.receive_cases hr with ⟨-, rfl, -⟩ | ⟨-, hrec, hsnd, -⟩
  · exact ⟨rfl, id, fun _ => id⟩
  · refine ⟨?_, (receive_stream hrec).1, TCPReceiver.receive_over hrec⟩
    show p.sender.input.isClosed = _
    rcases hsnd with heq | hsnd
    · rw [heq]
    · rw [((hi.inv hcap).receive_same hsnd).2]
      split <;> rfl

/-- `push` does not come back for a host who has closed without writing before a window is known. -/
theorem HostInv.of_push_none (hi : HostInv c g) (hcap : c.sendCapacity < 2 ^ 64)
    (hp : g.peer.push = none) : g.peer.sender.curWinSize = 0 ∧
      g.peer.sender.input.isClosed = true ∧ g.written = [] ∧
      ∀ pkt ∈ g.wire, pkt.msg.sender.sequenceLength = 0 := by
  have hinv := hi.inv hcap
  obtain ⟨hz, hS, hdone⟩ : g.peer.sender.curWinSize = 0 ∧ g.peer.sender.synSent = false ∧
      g.peer.sender.input.isFinished = true := by
    by_contra hgo
    obtain ⟨r, hr⟩ := hinv.ready.push_isSome fun hz hS =>
      Bool.eq_false_iff.2 fun hdone => hgo ⟨hz, hS, hdone⟩
    rw [TCPPeer.push, hr] at hp
    cases hp
  have hsegs := hinv.unsent hS
  have hfin := (isFinished_iff_queued hinv.ready.stream).1 hdone
  refine ⟨hz, hfin.1, ?_, fun pkt hpkt => ?_⟩
  · rw [hinv.accepted, hsegs, hfin.2]
    rfl
  · by_contra hlen
    have hsent := hi.wire pkt hpkt (Nat.pos_of_ne_zero hlen)
    rw [hsegs] at hsent
    exact not_at_nil hsent

/-! ### A socket and its host -/

namespace TCPMinnowSocket
open SysCall

variable {A κ α β : Type} {w w' : TCPMinnowSocket A κ} {p : TCPPeer}

/-- The owner is told that no more will come. -/
def tellsEnd : SysCall SocketFd → Bool
  | .shutdown .threadData _ true _ => true
  | _ => false

/-- The peer with another inbound stream. -/
def withInbound (p : TCPPeer) (s : ByteStream) : TCPPeer :=
  { p with receiver := { p.receiver with reassembler := { p.receiver.reassembler with output := s } } }

/-- The peer without the errors of its streams. -/
def faultless (p : TCPPeer) : TCPPeer :=
  withInbound { p with sender := { p.sender with input := p.sender.input.faultless } }
    p.receiver.inbound.faultless

/-- The host `h` has made what the socket shows of its past, and `p` is his peer, up to errors that the
socket has set itself: after them there are no more calls but `close` and `read`. -/
structure Works (h : Host) (p : TCPPeer) (w : TCPMinnowSocket A κ) : Prop where
  tcp : w.tcp = some p
  same : p = h.peer ∨ p.anyErrors = true
  written : bytesRead .threadData w.process.log = h.written
  read : bytesWritten .threadData w.process.log = h.read
  transmitted : w.transmitted = h.wire.map (·.msg)
  host : h.peer.receiver.inbound.Wf
  inbound : p.receiver.inbound.Wf
  upTo : faultless p = faultless h.peer
  outbound : h.peer.sender.input.isClosed = true → w.outboundShutdown = true
  told : w.inboundShutdown = true → ∃ c ∈ w.process.log, tellsEnd c = true
  ended : (∃ c ∈ w.process.log, tellsEnd c = true) → p.receiver.inbound.Over

/-- The adapter and the kernel have got on. -/
def setWorld (w : TCPMinnowSocket A κ) (a : A) (k : κ) : TCPMinnowSocket A κ :=
  { w with datagramAdapter := a, process := { w.process with kernel := k } }

theorem Works.queued (hw : Works g p w) :
    p.receiver.inbound.queued = g.peer.receiver.inbound.queued := by
  have hsame : (faultless p).receiver.inbound.queued = (faultless g.peer).receiver.inbound.queued := by
    rw [hw.upTo]
  exact hsame

theorem Works.setWorld (h : Works g p w) (a : A) (k : κ) : Works g p (w.setWorld a k) :=
  ⟨h.tcp, h.same, h.written, h.read, h.transmitted, h.host, h.inbound, h.upTo, h.outbound, h.told,
    h.ended⟩

/-- What a callback does are calls of the host. -/
def Serves (g : Host) (w w' : TCPMinnowSocket A κ) : Prop :=
  ∃ cs h p, g.Makes cs h ∧ Works h p w' ∧ w'.received = w.received ++ g.receipts cs

theorem Serves.refl (h : Works g p w) : Serves g w w :=
  ⟨[], g, p, rfl, h, (List.append_nil _).symm⟩

/-- The calls `push`, `tick` and `receive` of a peer without errors. -/
theorem Works.call (hw : Works g g.peer w) (hok : g.peer.MayCall cl)
    (hc : g.call cl = some (h, b)) (hk : g.Keeps h)
    (hcl : h.written = g.written ∧ h.read = g.read) {out : List TCPMessage} {n q : Nat}
    (hwire : h.wire = g.wire ++ Host.stamp n q out)
    (hlog : w'.process.log = w.process.log) (hsh : w'.outboundShutdown = w.outboundShutdown)
    (hin : w'.inboundShutdown = w.inboundShutdown) (htcp : w'.tcp = some h.peer)
    (htr : w'.transmitted = w.transmitted ++ out)
    (hrec : w'.received = w.received ++ g.receipt cl) : Serves g w w' := by
  refine ⟨[cl], h, h.peer, Host.makes_single hok hc, ⟨htcp, .inl rfl, ?_, ?_, ?_, hk.inbound hw.host,
    hk.inbound hw.host, rfl, ?_, ?_, ?_⟩, by rw [hrec, Host.receipts_single hc]⟩
  · rw [hlog, hcl.1]; exact hw.written
  · rw [hlog, hcl.2]; exact hw.read
  · rw [htr, hwire, List.map_append, Host.msg_stamp, hw.transmitted]
  · rw [hk.outbound, hsh]; exact hw.outbound
  · rw [hlog, hin]; exact hw.told
  · rw [hlog]
    exact fun he => hk.ended hw.host (hw.ended he)

theorem Serves.after {w₁ : TCPMinnowSocket A κ} (hm : g.Makes cs h)
    (hr : w₁.received = w.received ++ g.receipts cs) (hs : Serves h w₁ w') : Serves g w w' := by
  obtain ⟨cs', h', p, hm', hw, hr'⟩ := hs
  exact ⟨cs ++ cs', h', p, hm.append hm', hw, by rw [hr', hr, hm.receipts, List.append_assoc]⟩

/-- What was read from the owner has been written to the stream. -/
theorem Works.write (hw : Works g g.peer w) (hopen : w.outboundShutdown = false) {n : Nat}
    {answer : SysResult Bytes} {data : Bytes} {process : Process SocketFd κ}
    (hlog : process.log = w.process.log ++ [.read .threadData n answer])
    (hdata : bytesRead SocketFd.threadData [.read .threadData n answer] = data)
    (hroom : data.length ≤ g.peer.sender.input.availableCapacity) :
    Works (g.write data) (g.write data).peer ({ w with process }.setOutbound (·.push data)) := by
  have hclosed : g.peer.sender.input.isClosed = false := by
    rw [Bool.eq_false_iff]
    intro hc
    rw [hw.outbound hc] at hopen
    cases hopen
  have htaken : g.peer.sender.input.taken data = data := by
    rw [taken, hclosed, if_neg Bool.false_ne_true, List.take_of_length_le hroom]
  have hend : ∀ e ∈ process.log, tellsEnd e = true → e ∈ w.process.log := by
    intro e he ht
    rw [hlog, List.mem_append, List.mem_singleton] at he
    rcases he with he | rfl
    · exact he
    · cases ht
  refine ⟨congrArg (Option.map _) hw.tcp, .inl rfl, ?_, ?_, hw.transmitted, hw.host, hw.inbound, rfl,
    fun hc => ?_, fun hs => ?_, ?_⟩
  · show bytesRead _ process.log = g.written ++ _
    rw [hlog, bytesRead_append, hdata, hw.written, htaken]
  · show bytesWritten _ process.log = g.read
    rw [hlog, bytesWritten_append, hw.read]
    exact List.append_nil _
  · have hc : (g.peer.sender.input.push data).isClosed = true := hc
    rw [(push_pushed _ _).isClosed, hclosed] at hc
    cases hc
  · obtain ⟨e, he, ht⟩ := hw.told hs
    refine ⟨e, ?_, ht⟩
    show e ∈ process.log
    rw [hlog]
    exact List.mem_append_left _ he
  · rintro ⟨e, he, ht⟩
    exact hw.ended ⟨e, hend e he ht, ht⟩

/-- Closing the outbound stream. -/
theorem Works.close (hw : Works g p w) :
    Works g.close { p with sender := { p.sender with input := p.sender.input.close } }
      { w.setOutbound ByteStream.close with outboundShutdown := true } := by
  have hclose : ∀ q : TCPPeer, faultless { q with
      sender := { q.sender with input := q.sender.input.close } } =
        { faultless q with sender := { (faultless q).sender with
          input := (faultless q).sender.input.close } } := fun _ => rfl
  refine ⟨congrArg (Option.map _) hw.tcp, ?_, hw.written, hw.read, hw.transmitted, hw.host, hw.inbound,
    ?_, fun _ => rfl, hw.told, hw.ended⟩
  · rcases hw.same with rfl | he
    · exact .inl rfl
    · exact .inr he
  · rw [hclose, hw.upTo]
    rfl

/-- Some of the front chunk of the inbound stream has been written to the owner. -/
theorem Works.read_some (hw : Works g p w) {n : Nat} {s : ByteStream} {process : Process SocketFd κ}
    (hlog : process.log = w.process.log ++ [.writev .threadData [p.receiver.inbound.peek] (.ok n)])
    (hn : n ≤ p.receiver.inbound.peek.length) (hpop : p.receiver.inbound.pop n = some s) :
    ∃ h, g.Makes [.read n] h ∧ g.receipts [.read n] = [] ∧
      Works h (withInbound p s) ({ w with process }.setInbound fun _ => s) := by
  have hpre := p.receiver.inbound.peek_prefix_queued
  have hle : n ≤ p.receiver.inbound.bytesBuffered := by
    rw [bytesBuffered, hw.inbound.buffered]
    exact Nat.le_trans hn hpre.length_le
  have hp := hw.inbound.popped hle hpop
  have hle' : n ≤ g.peer.receiver.inbound.bytesBuffered := by
    rw [bytesBuffered, hw.host.buffered, ← hw.queued, ← hw.inbound.buffered]
    exact hle
  obtain ⟨o, ho, hp'⟩ := pop_spec hw.host hle'
  have hread : g.readBytes n = some { g with
      peer := withInbound g.peer o
      read := g.read ++ g.peer.receiver.inbound.queued.take n } := by
    unfold Host.readBytes
    dsimp only
    rw [if_pos hle', ho]
    rfl
  have hwritten : bytesWritten SocketFd.threadData
      [.writev .threadData [p.receiver.inbound.peek] (.ok n)] = p.receiver.inbound.queued.take n := by
    have htake := List.prefix_iff_eq_take.1 ((List.take_prefix n _).trans hpre)
    rw [List.length_take_of_le hn] at htake
    rw [← htake]
    simp [bytesWritten]
  have hend : ∀ e ∈ process.log, tellsEnd e = true → e ∈ w.process.log := by
    intro e he ht
    rw [hlog, List.mem_append, List.mem_singleton] at he
    rcases he with he | rfl
    · exact he
    · cases ht
  have hc : g.call (.read n) = some (_, false) := congrArg (Option.map (·, false)) hread
  refine ⟨_, Host.makes_single trivial hc, Host.receipts_single hc, congrArg (Option.map _) hw.tcp,
    ?_, ?_, ?_, hw.transmitted, hp'.wf, hp.wf, ?_, hw.outbound, fun hs => ?_, fun ⟨e, he, ht⟩ => ?_⟩
  · rcases hw.same with rfl | he
    · rw [hpop] at ho
      obtain rfl := Option.some.inj ho
      exact .inl rfl
    · rw [TCPPeer.anyErrors, Bool.or_eq_true] at he
      refine .inr ?_
      rw [TCPPeer.anyErrors, Bool.or_eq_true]
      exact he.imp_left fun he => hp.error.trans he
  · show bytesRead _ process.log = g.written
    rw [hlog, bytesRead_append, hw.written]
    exact List.append_nil _
  · show bytesWritten _ process.log = g.read ++ _
    rw [hlog, bytesWritten_append, hwritten, hw.read, hw.queued]
  · -- the two pops differ only in the errors
    have hsame : (faultless p).receiver.inbound = (faultless g.peer).receiver.inbound := by
      rw [hw.upTo]
    have hsame : p.receiver.inbound.faultless = g.peer.receiver.inbound.faultless := hsame
    have hs := pop_faultless p.receiver.inbound n
    rw [hsame, pop_faultless, ho, hpop] at hs
    have hs : o.faultless = s.faultless := Option.some.inj hs
    show withInbound (faultless p) s.faultless = withInbound (faultless g.peer) o.faultless
    rw [hw.upTo, hs]
  · obtain ⟨e, he, ht⟩ := hw.told hs
    refine ⟨e, ?_, ht⟩
    show e ∈ process.log
    rw [hlog]
    exact List.mem_append_left _ he
  · rcases hw.ended ⟨e, hend e he ht, ht⟩ with hf | he
    · rw [isFinished_iff_queued hw.inbound] at hf
      refine .inl ((isFinished_iff_queued hp.wf).2 ⟨hp.isClosed.trans hf.1, ?_⟩)
      show s.queued = []
      rw [hp.queued, hf.2, List.drop_nil]
    · exact .inr (hp.error.trans he)

/-- The owner has been told of the end. -/
theorem Works.tell (hw : Works g p w) (hover : p.receiver.inbound.Over) {answer : SysResult Unit}
    {process : Process SocketFd κ}
    (hlog : process.log = w.process.log ++ [.shutdown .threadData false true answer]) :
    Works g p { w with process, inboundShutdown := true } := by
  refine ⟨hw.tcp, hw.same, ?_, ?_, hw.transmitted, hw.host, hw.inbound, hw.upTo, hw.outbound,
    fun _ => ⟨.shutdown .threadData false true answer, ?_, rfl⟩, fun _ => hover⟩
  · show bytesRead _ process.log = _
    rw [hlog, bytesRead_append, hw.written]
    exact List.append_nil _
  · show bytesWritten _ process.log = _
    rw [hlog, bytesWritten_append, hw.read]
    exact List.append_nil _
  · show _ ∈ process.log
    rw [hlog]
    simp

/-! ### The callbacks -/

/-- Nothing is said of a call that fails. -/
abbrev Returns {σ : Type} (a : Act σ β) (Q : β → σ → Prop) (s : σ) : Prop :=
  a.wp Q (fun _ _ => True) s

section Peer
variable {E : Fault → TCPMinnowSocket A κ → Prop}

theorem wp_peer {Q : TCPPeer → TCPMinnowSocket A κ → Prop} (hp : w.tcp = some p) (h : Q p w) :
    peer.wp Q E w := by
  unfold peer
  rw [Act.wp_bind, Act.wp_get, hp]
  exact h

variable [TCPDatagramAdapter A κ α]

/-- The adapter has read. -/
theorem wp_adapterRead {Q : Option TCPMessage → TCPMinnowSocket A κ → Prop}
    (h : ∀ seg a k, (TCPDatagramAdapter.Obliging A κ →
      (TCPDatagramAdapter.fd κ a).readCount =
        (TCPDatagramAdapter.fd κ w.datagramAdapter).readCount + 1) → Q seg (w.setWorld a k))
    (hE : ¬ TCPDatagramAdapter.Obliging A κ → ∀ e w', E e w') :
    (onAdapter TCPDatagramAdapter.read).wp Q E w := by
  unfold onAdapter
  rw [Act.wp_zoom]
  unfold Act.wp Act.Ends
  by_cases ho : TCPDatagramAdapter.Obliging A κ
  · obtain ⟨seg, a, k, heq, hcount⟩ := ho.read w.datagramAdapter w.process.kernel
    rw [heq]
    exact h seg a k fun _ => hcount
  · split
    · exact h _ _ _ fun ho' => absurd ho' ho
    · exact hE ho _ _

theorem wp_transmit {Q : Unit → TCPMinnowSocket A κ → Prop} {out : List TCPMessage}
    (h : ∀ a k, (TCPDatagramAdapter.Obliging A κ →
      (TCPDatagramAdapter.fd κ a).readCount =
        (TCPDatagramAdapter.fd κ w.datagramAdapter).readCount) →
          Q () ({ w with transmitted := w.transmitted ++ out }.setWorld a k))
    (hE : ¬ TCPDatagramAdapter.Obliging A κ → ∀ e w', E e w') : (transmit out).wp Q E w := by
  induction out generalizing w with
  | nil =>
    have := h w.datagramAdapter w.process.kernel fun _ => rfl
    rwa [List.append_nil] at this
  | cons x xs ih =>
    have hrest : ∀ a k, (TCPDatagramAdapter.Obliging A κ →
        (TCPDatagramAdapter.fd κ a).readCount =
          (TCPDatagramAdapter.fd κ w.datagramAdapter).readCount) →
        (transmit xs).wp Q E ({ w with transmitted := w.transmitted ++ [x] }.setWorld a k) := by
      intro a k hcount
      refine ih fun a' k' hcount' => ?_
      have := h a' k' fun ho => (hcount' ho).trans (hcount ho)
      rwa [List.append_cons] at this
    unfold transmit onAdapter
    rw [Act.wp_bind, Act.wp_modify, Act.wp_bind, Act.wp_zoom]
    unfold Act.wp Act.Ends
    by_cases ho : TCPDatagramAdapter.Obliging A κ
    · obtain ⟨a, k, heq, hcount⟩ := ho.write x w.datagramAdapter w.process.kernel
      dsimp only
      rw [heq]
      exact hrest a k fun _ => hcount
    · split
      · exact hrest _ _ fun ho' => absurd ho' ho
      · exact hE ho _ _

end Peer

variable [TCPDatagramAdapter A κ α] [Kernel κ]

/-- If the kernel and the adapter let every call through, it is the peer that fails: after some calls
of the host, who had received `msgs` at first, it does not come back from `push` or cannot receive a
message. -/
def Blames (g : Host) (msgs : List Receipt) (e : Fault) (w : TCPMinnowSocket A κ) : Prop :=
  Kernel.Obliging κ → TCPDatagramAdapter.Obliging A κ → ∃ cs h, g.Makes cs h ∧
    ((e = .hang ∧ h.peer.push = none ∧ Works h h.peer w ∧ w.received = msgs ++ g.receipts cs) ∨
      ∃ seg, (h.peer.receive seg).fault = some e ∧
        w.received = msgs ++ g.receipts cs ++ [⟨h.peer, seg⟩])

theorem Blames.after {msgs msgs' : List Receipt} {e : Fault} (hm : g.Makes cs h)
    (hr : msgs' = msgs ++ g.receipts cs) (hb : Blames h msgs' e w) : Blames g msgs e w := by
  intro hk ha
  obtain ⟨cs', h', hm', hb⟩ := hb hk ha
  refine ⟨cs ++ cs', h', hm.append hm', ?_⟩
  rw [hm.receipts, ← List.append_assoc, ← hr]
  exact hb

theorem wp_receivePeer (hi : HostInv c g) (hcap : c.sendCapacity < 2 ^ 64) (hw : Works g g.peer w)
    (seg : TCPMessage) : (receivePeer seg).wp (fun _ w' => Serves g w w' ∧
      (TCPDatagramAdapter.Obliging A κ → (TCPDatagramAdapter.fd κ w'.datagramAdapter).readCount =
        (TCPDatagramAdapter.fd κ w.datagramAdapter).readCount)) (Blames g w.received) w := by
  have hblame : ∀ {e a k p' out}, (g.peer.receive seg).fault = some e → Blames g w.received e
      (setWorld { w with received := w.received ++ [⟨g.peer, seg⟩], tcp := p', transmitted := out }
        a k) := fun hf _ _ =>
    ⟨[], g, rfl, .inr ⟨seg, hf, congrArg (· ++ _) (List.append_nil _).symm⟩⟩
  unfold receivePeer
  rw [Act.wp_bind]
  refine wp_peer hw.tcp ?_
  rw [Act.wp_bind, Act.wp_modify]
  cases hr : g.peer.receive seg with
  | undefined u => exact hblame (congrArg Outcome.fault hr)
  | throws e x =>
    unfold setPeer
    rw [Act.wp_bind, Act.wp_modify, Act.wp_bind]
    exact wp_transmit (fun _ _ _ => hblame (congrArg Outcome.fault hr))
      fun ho _ _ _ ha => absurd ha ho
  | ok x =>
    obtain ⟨p, out⟩ := x
    unfold setPeer
    rw [Act.wp_bind, Act.wp_modify]
    refine wp_transmit (fun a k hcount => ⟨?_, hcount⟩) fun ho _ _ _ ha => absurd ha ho
    have hc : g.call (.receive seg) = some (g.received ⟨seg, 0, 0⟩ p out, true) := by
      rw [Host.call, hr]
    have hok : g.peer.MayCall (.receive seg) := ⟨_, hr⟩
    exact hw.call hok hc (hi.keeps_receive hcap (.inl hr) _) ⟨rfl, rfl⟩ rfl rfl rfl rfl rfl rfl rfl

theorem wp_pushPeer (hi : HostInv c g) (hcap : c.sendCapacity < 2 ^ 64) (hw : Works g g.peer w)
    (he : g.peer.anyErrors = false) : pushPeer.wp
      (fun _ w' => Serves g w w' ∧ w'.process.fds = w.process.fds) (Blames g w.received) w := by
  unfold pushPeer
  rw [Act.wp_bind]
  refine wp_peer hw.tcp ?_
  cases hp : g.peer.push with
  | none => exact fun _ _ => ⟨[], g, rfl, .inl ⟨rfl, hp, hw, (List.append_nil _).symm⟩⟩
  | some x =>
    obtain ⟨p, out⟩ := x
    unfold setPeer
    rw [Act.wp_bind, Act.wp_modify]
    refine wp_transmit (fun a k _ => ⟨?_, rfl⟩) fun ho _ _ _ ha => absurd ha ho
    have hpush : g.push = some _ := congrArg (Option.map _) hp
    have hc : g.call .push = some (_, true) := congrArg (Option.map (·, true)) hpush
    have hok : g.peer.MayCall .push := he
    exact hw.call hok hc (hi.keeps_push hcap hpush) ⟨rfl, rfl⟩ rfl rfl rfl rfl rfl rfl
      (List.append_nil _).symm

theorem wp_tickPeer (hw : Works g p w) (elapsed : Nat) :
    (tickPeer elapsed).wp (fun _ w' => Serves g w w') (Blames g w.received) w := by
  unfold tickPeer
  rw [Act.wp_bind, Act.wp_get, hw.tcp]
  dsimp only
  rw [Act.wp_ite]
  split
  next hactive =>
    have he := TCPPeer.anyErrors_of_active hactive
    obtain rfl : p = g.peer := hw.same.resolve_right (by simp [he])
    unfold setPeer
    rw [Act.wp_bind, Act.wp_modify, Act.wp_bind]
    refine wp_transmit (fun a k _ => ?_) fun ho _ _ _ ha => absurd ha ho
    have hok : g.peer.MayCall (.tick elapsed) := he
    exact hw.call hok rfl (g.keeps_tick elapsed) ⟨rfl, rfl⟩ rfl rfl rfl rfl rfl rfl
      (List.append_nil _).symm
  next => exact .refl hw

theorem wp_pushCallback (hi : HostInv c g) (hcap : c.sendCapacity < 2 ^ 64) (hw : Works g g.peer w)
    (hopen : w.outboundShutdown = false) (he : g.peer.anyErrors = false)
    (hroom : 0 < g.peer.sender.input.availableCapacity) : pushCallback.wp
      (fun _ w' => Serves g w w' ∧ (Kernel.Obliging κ →
        (w'.process.fds .threadData).readCount = (w.process.fds .threadData).readCount + 1))
      (Blames g w.received) w := by
  have hsize : FileDescriptor.readSize
      (List.replicate g.peer.sender.input.availableCapacity (0 : Byte)) =
      g.peer.sender.input.availableCapacity := by
    unfold FileDescriptor.readSize
    rw [List.length_replicate, if_neg]
    simp
    omega
  -- after the read: the bytes are written, the stream may be closed, and the peer pushes
  have hpush : ∀ (n : Nat) (answer : SysResult Bytes) (data : Bytes) (process : Process SocketFd κ),
      process.log = w.process.log ++ [.read .threadData n answer] →
      bytesRead SocketFd.threadData [.read .threadData n answer] = data →
      data.length ≤ g.peer.sender.input.availableCapacity →
      Act.wp (do
        modify (setOutbound (·.push data))
        if ((← get).process.fds .threadData).eof then
          closeOutbound
        pushPeer) (fun _ w' => Serves g w w' ∧ w'.process.fds = process.fds)
        (Blames g w.received) { w with process } := by
    intro n answer data process hlog hdata hlen
    have hw₁ := hw.write hopen hlog hdata hlen
    have hi₁ := hi.write data
    have hm : g.Makes [.write data] (g.write data) := Host.makes_single trivial rfl
    have he₁ : (g.write data).peer.anyErrors = false := by
      rw [TCPPeer.anyErrors] at he ⊢
      rw [← he]
      exact congrArg (_ || ·) (push_pushed g.peer.sender.input data).error
    rw [Act.wp_bind, Act.wp_modify, Act.wp_bind, Act.wp_get, Act.wp_ite]
    split
    next heof =>
      have hmc : (g.write data).Makes [.close] (g.write data).close :=
        Host.makes_single trivial rfl
      have hnone : w.received = w.received ++ g.receipts ([.write data] ++ [.close]) :=
        (List.append_nil _).symm
      unfold closeOutbound
      rw [Act.wp_bind, Act.wp_modify]
      refine Act.wp_mono (wp_pushPeer hi₁.close hcap hw₁.close he₁) (fun _ w' hs => ?_)
        fun _ _ hb => hb.after (hm.append hmc) hnone
      exact ⟨hs.1.after (hm.append hmc) hnone, hs.2⟩
    next =>
      have hnone : w.received = w.received ++ g.receipts [.write data] := (List.append_nil _).symm
      refine Act.wp_mono (wp_pushPeer hi₁ hcap hw₁ he₁) (fun _ w' hs => ?_)
        fun _ _ hb => hb.after hm hnone
      exact ⟨hs.1.after hm hnone, hs.2⟩
  unfold pushCallback onProcess
  rw [Act.wp_bind]
  refine wp_peer hw.tcp ?_
  rw [Act.wp_bind, Act.wp_zoom, FileDescriptor.wp_read, hsize]
  dsimp only
  have hobl : Kernel.Obliging κ → ∃ data k, Kernel.read (w.process.fds .threadData).fd
      g.peer.sender.input.availableCapacity w.process.kernel = (.ok data, k) ∧
      data.length ≤ g.peer.sender.input.availableCapacity := fun hk => hk.read ..
  generalize Kernel.read (w.process.fds .threadData).fd g.peer.sender.input.availableCapacity
    w.process.kernel = r at hobl ⊢
  obtain ⟨answer, k⟩ := r
  cases answer with
  | failed =>
    intro hk
    obtain ⟨data, k, heq, -⟩ := hobl hk
    cases heq
  | again =>
    have hnever : ¬ Kernel.Obliging κ := fun hk => by
      obtain ⟨data, k, heq, -⟩ := hobl hk
      cases heq
    dsimp only
    split
    · refine Act.wp_mono (hpush _ _ [] _ rfl rfl (Nat.zero_le _)) (fun _ w' hs => ?_)
        fun _ _ hb => hb
      exact ⟨hs.1, fun hk => absurd hk hnever⟩
    · exact fun hk => absurd hk hnever
  | ok data =>
    dsimp only
    split
    next hlong =>
      intro hk
      obtain ⟨data, k, heq, hle⟩ := hobl hk
      cases heq
      exact absurd hlong (Nat.not_lt.2 hle)
    next hlong =>
      refine Act.wp_mono (hpush _ _ data _ rfl (by simp [bytesRead]) (Nat.not_lt.1 hlong))
        (fun _ w' hs => ?_) fun _ _ hb => hb
      refine ⟨hs.1, fun _ => ?_⟩
      rw [hs.2]
      rfl

/-- The second half of `readCallback`. -/
def finishInbound : Act (TCPMinnowSocket A κ) Unit := do
  let inbound := (← peer).receiver.inbound
  if inbound.isFinished || inbound.hasError then
    onProcess (FileDescriptor.shutdown .threadData false true)
    modify fun w => { w with inboundShutdown := true }

theorem wp_finishInbound (hw : Works g p w) : finishInbound.wp
    (fun _ w' => Serves g w w' ∧ ((w'.process.fds .threadData).writeCount =
      (w.process.fds .threadData).writeCount + 1 ∨
        (w' = w ∧ (p.receiver.inbound.isFinished || p.receiver.inbound.hasError) = false)))
    (Blames g w.received) w := by
  have htell : p.receiver.inbound.Over → ∀ (k : κ) (answer : SysResult Unit), Serves g w { w with
      process := FileDescriptor.noteWrite
        (w.process.called k (.shutdown .threadData false true answer)) .threadData
      inboundShutdown := true } := fun hover k answer =>
    ⟨[], g, p, rfl, hw.tell hover rfl, (List.append_nil _).symm⟩
  unfold finishInbound onProcess
  rw [Act.wp_bind]
  refine wp_peer hw.tcp ?_
  dsimp only
  rw [Act.wp_ite]
  split
  next hover =>
    rw [Bool.or_eq_true] at hover
    rw [Act.wp_bind, Act.wp_zoom, FileDescriptor.wp_shutdown]
    have hobl : Kernel.Obliging κ → ∃ k, Kernel.shutdown (w.process.fds .threadData).fd false true
        w.process.kernel = (.ok (), k) := fun hk => hk.shutdown ..
    generalize Kernel.shutdown (w.process.fds .threadData).fd false true w.process.kernel = r
      at hobl ⊢
    obtain ⟨answer, k⟩ := r
    have hnever : answer ≠ .ok () → ¬ Kernel.Obliging κ := fun hne hk => by
      obtain ⟨k, heq⟩ := hobl hk
      exact hne (congrArg Prod.fst heq)
    cases answer with
    | ok => exact ⟨htell hover k _, .inl rfl⟩
    | again =>
      dsimp only
      split
      · exact ⟨htell hover k _, .inl rfl⟩
      · exact fun hk => absurd hk (hnever nofun)
    | failed => exact fun hk => absurd hk (hnever nofun)
  next hover => exact ⟨.refl hw, .inr ⟨rfl, Bool.not_eq_true _ ▸ hover⟩⟩

/-- Something has been written, or there is nothing to write. -/
theorem wp_readCallback (hw : Works g p w) : readCallback.wp
    (fun _ w' => Serves g w w' ∧ ((w.process.fds .threadData).writeCount ≠
      (w'.process.fds .threadData).writeCount ∨ readInterest w' = false))
    (Blames g w.received) w := by
  unfold readCallback onProcess
  rw [Act.wp_bind]
  refine wp_peer hw.tcp ?_
  dsimp only
  rw [Act.wp_ite]
  split
  next hbuf =>
    rw [Act.wp_bind, Act.wp_zoom, FileDescriptor.wp_write]
    have hobl : Kernel.Obliging κ → ∃ n k, Kernel.writev (w.process.fds .threadData).fd
        [p.receiver.inbound.peek] w.process.kernel = (.ok n, k) ∧
        n ≤ [p.receiver.inbound.peek].flatten.length ∧
        ([p.receiver.inbound.peek].flatten ≠ [] → n ≠ 0) := fun hk => hk.writev ..
    generalize Kernel.writev (w.process.fds .threadData).fd [p.receiver.inbound.peek]
      w.process.kernel = r at hobl ⊢
    obtain ⟨answer, k⟩ := r
    rw [List.flatten_singleton] at hobl ⊢
    have hne : p.receiver.inbound.peek ≠ [] :=
      (peek_ne_nil_iff hw.inbound).2 (Nat.pos_of_ne_zero hbuf)
    cases answer with
    | failed =>
      intro hk
      obtain ⟨n, k, heq, -⟩ := hobl hk
      cases heq
    | again =>
      have hnever : ¬ Kernel.Obliging κ := fun hk => by
        obtain ⟨n, k, heq, -⟩ := hobl hk
        cases heq
      dsimp only
      split
      · rw [if_pos (by simpa using hne)]
        exact fun hk => absurd hk hnever
      · exact fun hk => absurd hk hnever
    | ok n =>
      dsimp only
      split
      next hzero =>
        intro hk
        obtain ⟨n, k, heq, -, hpos⟩ := hobl hk
        cases heq
        exact absurd hzero.1 (hpos hne)
      split
      next hlong =>
        intro hk
        obtain ⟨n, k, heq, hle, -⟩ := hobl hk
        cases heq
        exact absurd hlong (Nat.not_lt.2 hle)
      next hlong =>
        have hn : n ≤ p.receiver.inbound.peek.length := Nat.not_lt.1 hlong
        have hle : n ≤ p.receiver.inbound.bytesBuffered := by
          rw [bytesBuffered, hw.inbound.buffered]
          exact Nat.le_trans hn p.receiver.inbound.peek_prefix_queued.length_le
        obtain ⟨s, hpop, -⟩ := pop_spec hw.inbound hle
        rw [hpop]
        have hlog : (FileDescriptor.noteWrite (w.process.called k
            (.writev .threadData [p.receiver.inbound.peek] (.ok n))) .threadData).log =
            w.process.log ++ [.writev .threadData [p.receiver.inbound.peek] (.ok n)] := rfl
        obtain ⟨h, hm, hnone, hw₁⟩ := hw.read_some hlog hn hpop
        have hrec : w.received = w.received ++ g.receipts [.read n] := by
          rw [hnone, List.append_nil]
        refine Act.wp_mono (wp_finishInbound hw₁) (fun _ w' hs => ?_)
          fun _ _ hb => hb.after hm hrec
        refine ⟨hs.1.after hm hrec, .inl ?_⟩
        rcases hs.2 with hcount | ⟨rfl, -⟩
        · exact FDWrapper.count_ne_two hcount
        · exact FDWrapper.count_ne rfl
  next hbuf =>
    refine Act.wp_mono (wp_finishInbound hw) (fun _ w' hs => ⟨hs.1, ?_⟩) fun _ _ hb => hb
    rcases hs.2 with hcount | ⟨rfl, hover⟩
    · exact .inl (FDWrapper.count_ne hcount)
    · refine .inr ?_
      unfold readInterest
      rw [hw.tcp, Option.any_some, hover, Bool.false_and, Bool.or_false, decide_eq_false_iff_not]
      exact hbuf

end TCPMinnowSocket

end Minnow
