import Minnow.NetDelivery
import Minnow.SocketHost
import Minnow.TCPSegment

/-!
# A host's calls as steps of a network

The calls that a socket makes of its peer are steps of the network that its host is part of
(`NetRun.makes`). A network that carries one flag for a reset delivers its messages as they are, since
both flags of a message are set or none (`Host.Agrees`).
-/

namespace Minnow
open Prog TCPSender TCPReceiver ByteStream

variable {g h : Host} {c : TCPConfig} {cl : Call} {cs : List Call} {b : Bool} {m : TCPMessage}

/-! ### The flags for a reset -/

/-- Both flags are set, or none. -/
def TCPMessage.Agrees (m : TCPMessage) : Prop := m.sender.RST = m.receiver.RST

theorem TCPMessage.Agrees.orRST (h : m.Agrees) : m.orRST = m := by
  obtain ⟨s, r⟩ := m
  have h : s.RST = r.RST := h
  have hs : (s.RST || r.RST) = s.RST := by rw [← h, Bool.or_self]
  have hr : (s.RST || r.RST) = r.RST := hs.trans h
  exact congrArg₂ TCPMessage.mk (congrArg (fun b => { s with RST := b }) hs)
    (congrArg (fun b => { r with RST := b }) hr)

/-- A host that has had no reset, or one on both streams. -/
structure Host.Agrees (h : Host) : Prop where
  stream : h.peer.receiver.inbound.Wf
  peer : h.peer.receiver.inbound.hasError = h.peer.sender.input.hasError
  queue : ∀ m ∈ h.peer.sender.msgQueue, m.RST = false
  wire : ∀ pkt ∈ h.wire, pkt.msg.Agrees

theorem Host.agrees_start (hrecv : c.recvCapacity < 2 ^ 64) : Host.Agrees { peer := .ofConfig c } :=
  ⟨wf_new hrecv, rfl, fun _ h => absurd h List.not_mem_nil, fun _ h => absurd h List.not_mem_nil⟩

theorem TCPSender.Sends.agrees {s s' : TCPSender} {ms : List TCPSenderMessage} (hs : Sends s ms s') :
    s'.input.hasError = s.input.hasError ∧ s'.msgQueue = s.msgQueue ++ ms ∧
      ∀ m ∈ ms, m.RST = s.input.hasError := by
  induction hs with
  | nil => exact ⟨rfl, (List.append_nil _).symm, fun _ h => absurd h List.not_mem_nil⟩
  | snoc _ ht ih =>
    obtain ⟨he, hq, hms⟩ := ih
    refine ⟨ht.popped.error.trans he, ?_, fun m hm => ?_⟩
    · rw [ht.state, hq, List.append_assoc]
    · rcases List.mem_append.1 hm with hm | hm
      · exact hms m hm
      · rw [List.mem_singleton.1 hm, ht.rst, he]

/-- What goes to the wire agrees if the peer has no error. -/
theorem Host.Agrees.stamp (hw : ∀ pkt ∈ g.wire, pkt.msg.Agrees) {out : List TCPMessage}
    (ho : ∀ m ∈ out, m.Agrees) (n q : Nat) : ∀ pkt ∈ g.wire ++ Host.stamp n q out, pkt.msg.Agrees := by
  intro pkt hpkt
  rcases List.mem_append.1 hpkt with hpkt | hpkt
  · exact hw pkt hpkt
  · have hmem := List.mem_map_of_mem (f := (·.msg)) hpkt
    rw [Host.msg_stamp] at hmem
    exact ho _ hmem

theorem TCPPeer.agrees_segment {p : TCPPeer} (h : p.receiver.inbound.hasError = false)
    {m : TCPSenderMessage} (hm : m.RST = false) : (p.segment m).Agrees := by
  show m.RST = p.receiver.send.RST
  unfold TCPReceiver.send
  dsimp only
  rw [hm]
  split <;> exact h.symm

theorem Host.Agrees.push (ha : g.Agrees) (hi : HostInv c g) (hcap : c.sendCapacity < 2 ^ 64)
    (he : g.peer.anyErrors = false) (hp : g.push = some h) : h.Agrees := by
  obtain ⟨hin, hout⟩ := Bool.or_eq_false_iff.1 he
  obtain ⟨sd, ms, hpush, rfl⟩ := Host.push_eq hp
  obtain ⟨hsame, hqueue, hrst⟩ := ((hi.inv hcap).ready.push_sends hpush).agrees
  have hrst : ∀ m ∈ ms, m.RST = false := fun m hm => (hrst m hm).trans hout
  refine ⟨ha.stream, ha.peer.trans hsame.symm, ?_, Host.Agrees.stamp ha.wire ?_ _ _⟩
  · intro m hm
    have hm : m ∈ sd.msgQueue := hm
    rw [hqueue, List.mem_append] at hm
    exact hm.elim (ha.queue m) (hrst m)
  · intro m hm
    obtain ⟨sm, hsm, rfl⟩ := List.mem_map.1 hm
    exact TCPPeer.agrees_segment hin (hrst sm hsm)

theorem Host.Agrees.tick (ha : g.Agrees) (he : g.peer.anyErrors = false) (ms : Nat) :
    (g.tick ms).Agrees := by
  obtain ⟨hin, -⟩ := Bool.or_eq_false_iff.1 he
  obtain ⟨t, n, heq⟩ := tick_eq g.peer.sender ms
  have hsender : (g.tick ms).peer.sender = (g.peer.sender.tick ms).1 := rfl
  refine ⟨ha.stream, ?_, ?_, Host.Agrees.stamp ha.wire ?_ _ _⟩
  · rw [hsender, heq]
    exact ha.peer
  · rw [hsender, heq]
    exact ha.queue
  · intro m hm
    obtain ⟨sm, hsm, rfl⟩ : ∃ sm ∈ (g.peer.sender.tick ms).2, g.peer.segment sm = m :=
      List.mem_map.1 hm
    refine TCPPeer.agrees_segment hin (ha.queue sm ?_)
    rcases g.peer.sender.tick_out ms with h0 | ⟨front, rest, hq, h1⟩
    · rw [h0] at hsm
      cases hsm
    · rw [h1, List.mem_singleton] at hsm
      rw [hsm, hq]
      exact List.mem_cons_self ..

/-- A message whose flags agree makes an error in both streams or in none. -/
theorem Host.Agrees.receive (ha : g.Agrees) (hi : HostInv c g) (hcap : c.sendCapacity < 2 ^ 64)
    (hm : m.Agrees) {p : TCPPeer} {out : List TCPMessage} (hr : g.peer.receive m = .ok (p, out))
    (pkt : Packet) : (g.received pkt p out).Agrees := by
  have hstream := (hi.keeps_receive hcap (.inl hr) pkt).inbound ha.stream
  cases hact : g.peer.active with
  | false =>
    unfold TCPPeer.receive at hr
    rw [if_pos (by simp [hact])] at hr
    cases hr
    exact ⟨hstream, ha.peer, ha.queue,
      Host.Agrees.stamp ha.wire (fun _ h => absurd h List.not_mem_nil) _ _⟩
  | true =>
    obtain ⟨hin, hout⟩ := Bool.or_eq_false_iff.1 (TCPPeer.anyErrors_of_active hact)
    obtain ⟨hrec, hsnd, -⟩ := TCPPeer.receive_ok hact hr
    have hin' := receive_hasError_eq (.inl hrec)
    rw [hin, Bool.false_or] at hin'
    have hout' : p.sender.input.hasError = m.receiver.RST := by
      rw [((hi.inv hcap).receive_same hsnd).2]
      cases m.receiver.RST
      · exact hout
      · rfl
    obtain ⟨gone, hacks⟩ := receive_acks (hi.inv hcap).inFlight (hi.inv hcap).inFlight_lt hsnd
    refine ⟨hstream, hin'.trans (hm.trans hout'.symm), ?_, Host.Agrees.stamp ha.wire ?_ _ _⟩
    · intro q hq
      exact ha.queue q (hacks.queue ▸ List.mem_append_right _ hq)
    · intro q hq
      rcases TCPPeer.receive_cases (.inl hr) with ⟨h0, -⟩ | ⟨-, -, -, h0 | h1⟩
      · rw [hact] at h0
        cases h0
      · rw [h0] at hq
        cases hq
      · rw [h1, List.mem_singleton] at hq
        rw [hq]
        show p.sender.input.hasError = p.receiver.send.RST
        rw [hout', ← hm, ← hin']
        unfold TCPReceiver.send
        dsimp only
        split <;> rfl

theorem Host.Agrees.call (ha : g.Agrees) (hi : HostInv c g) (hcap : c.sendCapacity < 2 ^ 64)
    (hok : g.peer.MayCall cl) (hm : ∀ r ∈ g.receipt cl, r.msg.Agrees) (hc : g.call cl = some (h, b)) :
    h.Agrees := by
  cases cl with
  | write data =>
    cases hc
    exact ⟨ha.stream, ha.peer.trans (push_pushed _ _).error.symm, ha.queue, ha.wire⟩
  | close => cases hc; exact ⟨ha.stream, ha.peer, ha.queue, ha.wire⟩
  | read len =>
    obtain ⟨g₁, hr, heq⟩ := Option.map_eq_some_iff.1 hc
    cases heq
    obtain ⟨o, hlen, hpop, rfl⟩ := Host.readBytes_eq hr
    have hp := ha.stream.popped hlen hpop
    exact ⟨hp.wf, hp.error.trans ha.peer, ha.queue, ha.wire⟩
  | push =>
    obtain ⟨g₁, hp, heq⟩ := Option.map_eq_some_iff.1 hc
    cases heq
    exact ha.push hi hcap hok hp
  | tick ms => cases hc; exact ha.tick hok ms
  | receive msg =>
    obtain ⟨⟨p, out⟩, hr⟩ := hok
    rw [Host.call, hr] at hc
    cases hc
    exact ha.receive hi hcap (hm ⟨g.peer, msg⟩ (List.mem_singleton_self _)) hr _

theorem Host.Agrees.makes (ha : g.Agrees) (hi : HostInv c g) (hcap : c.sendCapacity < 2 ^ 64)
    (hm : g.Makes cs h) (hrec : ∀ r ∈ g.receipts cs, r.msg.Agrees) : h.Agrees := by
  induction cs generalizing g with
  | nil => cases hm; exact ha
  | cons cl cs ih =>
    obtain ⟨g₁, b, hok, hc, hm⟩ := hm
    rw [Host.receipts, hc] at hrec
    exact ih (ha.call hi hcap hok (fun r hr => hrec r (List.mem_append_left _ hr)) hc)
      (hi.call hcap hc) hm fun r hr => hrec r (List.mem_append_right _ hr)

/-! ### The calls of a host as steps of a network -/

variable {cfg : Side → TCPConfig} {Ok : Host → Packet → Prop} {N : Net} {x : Side}

theorem Net.set_eq (N : Net) (x : Side) : N.set x (N x) = N := by
  funext y
  rw [Net.set]
  split
  next hy => rw [hy]
  next => rfl

theorem Net.set_set (N : Net) (x : Side) (g h : Host) : (N.set x g).set x h = N.set x h := by
  funext y
  simp only [Net.set]
  split <;> rfl

/-- What `x` receives is on the wire of the other side, and may be delivered where it is received. -/
def Net.Brings (N : Net) (Ok : Host → Packet → Prop) (x : Side) (r : Receipt) : Prop :=
  ∃ pkt ∈ (N x.other).wire, pkt.msg = r.msg ∧ ∀ h : Host, h.peer = r.peer → Ok h pkt

theorem NetRun.call (hrun : NetRun cfg Ok N) (hc : (N x).call cl = some (h, b))
    (hr : ∀ r ∈ (N x).receipt cl, N.Brings Ok x r) : NetRun cfg Ok (N.set x h) := by
  have other : ∀ act : Action, (∀ y i, act ≠ .deliver y i) → N.step act = some (N.set x h) →
      NetRun cfg Ok (N.set x h) := fun act hact hs =>
    hrun.step act (fun y i heq => absurd heq (hact y i)) hs
  cases cl with
  | write data => cases hc; exact other (.write x data) (fun _ _ h => nomatch h) rfl
  | close => cases hc; exact other (.close x) (fun _ _ h => nomatch h) rfl
  | read len =>
    obtain ⟨g, hg, heq⟩ := Option.map_eq_some_iff.1 hc
    cases heq
    exact other (.read x len) (fun _ _ h => nomatch h) (congrArg (Option.map _) hg)
  | push =>
    obtain ⟨g, hg, heq⟩ := Option.map_eq_some_iff.1 hc
    cases heq
    exact other (.push x) (fun _ _ h => nomatch h) (congrArg (Option.map _) hg)
  | tick ms => cases hc; exact other (.tick x ms) (fun _ _ h => nomatch h) rfl
  | receive msg =>
    obtain ⟨pkt, hpkt, hmsg, hok⟩ := hr ⟨(N x).peer, msg⟩ (List.mem_singleton_self _)
    obtain ⟨i, hi⟩ := List.mem_iff_getElem?.1 hpkt
    have hmsg : pkt.msg = msg := hmsg
    refine hrun.step (.deliver x i) ?_ ?_
    · intro y j heq pkt' hpkt'
      cases heq
      rw [hi] at hpkt'
      cases hpkt'
      exact hok _ rfl
    · rw [Net.step, hi, Option.bind_some, Host.receive, hmsg]
      rw [Host.call] at hc
      cases hrec : (N x).peer.receive msg with
      | ok p => rw [hrec] at hc; cases hc; exact congrArg some (congrArg (N.set x) (hmsg ▸ rfl))
      | throws e p => rw [hrec] at hc; cases hc; exact congrArg some (congrArg (N.set x) (hmsg ▸ rfl))
      | undefined u => rw [hrec] at hc; cases hc

theorem NetRun.makes (hrun : NetRun cfg Ok N) (hm : (N x).Makes cs h)
    (hr : ∀ r ∈ (N x).receipts cs, N.Brings Ok x r) : NetRun cfg Ok (N.set x h) := by
  induction cs generalizing N with
  | nil =>
    obtain rfl : h = N x := hm
    rw [Net.set_eq]
    exact hrun
  | cons cl cs ih =>
    obtain ⟨g, b, -, hc, hm⟩ := hm
    rw [Host.receipts, hc] at hr
    have hrun' := hrun.call hc fun r hmem => hr r (List.mem_append_left _ hmem)
    have hbrings : ∀ r, N.Brings Ok x r → (N.set x g).Brings Ok x r := by
      intro r hr
      rw [Net.Brings, Net.set_other]
      exact hr
    have := ih hrun' (by rw [Net.set_self]; exact hm) fun r hmem => by
      rw [Net.set_self] at hmem
      exact hbrings r (hr r (List.mem_append_right _ hmem))
    rwa [Net.set_set] at this

end Minnow
