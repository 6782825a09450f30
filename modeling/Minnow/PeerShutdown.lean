import Minnow.NetDelivery
import Minnow.SenderFin

/-!
# When a peer may stop

`active` asks whether anything is in flight and whether the outbound stream is finished, not whether a
FIN was sent behind it. A stream that is finished while a full window keeps the FIN back is `FinDue`, and
the acknowledgment that empties the flight then ends the peer. In runs that go past no such point a peer
that stops without an error has been heard to the end (`shut_of_inactive`).
-/

namespace Minnow
open Prog TCPSender TCPReceiver ByteStream

inductive Call
  | write (data : Bytes)
  | close
  | read (len : Nat)
  | push
  | tick (ms : Nat)
  | receive (msg : TCPMessage)

/-- A call, and whether it is one of `push`, `tick` and `receive` that returns. `none`: the call is not
possible, or does not come back. -/
def Host.call (h : Host) : Call → Option (Host × Bool)
  | .write data => some (h.write data, false)
  | .close => some (h.close, false)
  | .read len => (h.readBytes len).map (·, false)
  | .push => h.push.map (·, true)
  | .tick ms => some (h.tick ms, true)
  | .receive msg =>
    match h.peer.receive msg with
    | .ok (peer, out) => some (h.received ⟨msg, 0, 0⟩ peer out, true)
    | .throws _ (peer, out) => some (h.received ⟨msg, 0, 0⟩ peer out, false)
    | .undefined _ => none

/-- The states that calls admitted by `Ok` can bring a fresh peer to, and whether the last one was a
`push`, `tick` or `receive` that returned. -/
inductive HostRun (cfg : TCPConfig) (Ok : TCPPeer → Call → Prop) : Host → Bool → Prop
  | start : HostRun cfg Ok { peer := .ofConfig cfg } false
  | call {h h' : Host} {b b' : Bool} (c : Call) (hr : HostRun cfg Ok h b) (hok : Ok h.peer c)
      (hc : h.call c = some (h', b')) : HostRun cfg Ok h' b'

/-- Calls one after the other, as far as `Ok` admits them. -/
def Host.calls (Ok : TCPPeer → Call → Prop) [∀ p c, Decidable (Ok p c)] (h : Host) (b : Bool) :
    List Call → Option (Host × Bool)
  | [] => some (h, b)
  | c :: cs => if Ok h.peer c then (h.call c).bind fun (h, b) => h.calls Ok b cs else none

namespace TCPPeer

/-- The first line of `active`. -/
def anyErrors (p : TCPPeer) : Bool := p.receiver.inbound.hasError || p.sender.input.hasError

/-- All that will ever be written has been transmitted, but no FIN behind it. -/
def FinDue (p : TCPPeer) : Prop :=
  p.sender.input.isFinished = true ∧ p.sender.finQueued = false

/-- The peer still lingers when another `ms` have gone by. -/
def Lingers (p : TCPPeer) (ms : Nat) : Prop :=
  p.lingerAfterStreamsFinish = true ∧
    p.cumulativeTime + ms < p.timeOfLastReceipt + 10 * p.cfg.rtTimeout.toNat

/-- With a FIN due, something other than the outbound stream keeps the peer active after the call, or an
error ends it. -/
def KeepsFin (p : TCPPeer) : Call → Prop
  | .tick ms => p.FinDue → p.anyErrors = true ∨ p.sender.sequenceNumbersInFlight ≠ 0 ∨
      p.receiver.inbound.isClosed = false ∨ p.Lingers ms
  | .receive msg => p.FinDue → p.anyErrors = true ∨ (p.active = true ∧
      (msg.sender.RST = true ∨ msg.receiver.RST = true ∨
        (p.lingerAfterStreamsFinish = true ∧ 0 < p.cfg.rtTimeout.toNat) ∨
        (p.sender.sequenceNumbersInFlight ≠ 0 ∧ ∀ ackno ∈ msg.receiver.ackno,
          ackno.unwrap p.sender.isn p.sender.input.bytesPushed ≠ p.sender.nextSeqno)))
  | _ => True

instance (p : TCPPeer) : Decidable p.FinDue := inferInstanceAs (Decidable (_ ∧ _))

instance (p : TCPPeer) (ms : Nat) : Decidable (p.Lingers ms) := inferInstanceAs (Decidable (_ ∧ _))

instance (p : TCPPeer) : ∀ c, Decidable (p.KeepsFin c)
  | .tick _ => inferInstanceAs (Decidable (_ → _))
  | .receive _ => inferInstanceAs (Decidable (_ → _))
  | .write _ => inferInstanceAs (Decidable True)
  | .close => inferInstanceAs (Decidable True)
  | .read _ => inferInstanceAs (Decidable True)
  | .push => inferInstanceAs (Decidable True)

end TCPPeer

/-- Both directions are over: the inbound stream has been closed, and all that was written has been
transmitted with a FIN behind it that has been acknowledged. -/
structure Host.Shut (h : Host) : Prop where
  inbound : h.peer.receiver.inbound.isClosed = true
  bytes : payloads h.sent = h.written
  fin : ∃ m ∈ h.sent, m.FIN = true
  acked : h.peer.sender.finReceived = true

variable {p p' : TCPPeer} {msg : TCPMessage} {out : List TCPMessage} {g g' : Host} {c : TCPConfig}
  {cl : Call} {b : Bool}

/-! ### One call -/

namespace TCPPeer

theorem active_eq_false (h : p.active = false) (he : p.anyErrors = false) :
    p.sender.sequenceNumbersInFlight = 0 ∧ p.sender.input.isFinished = true ∧
      p.receiver.inbound.isClosed = true ∧ ¬ p.Lingers 0 := by
  rw [anyErrors] at he
  unfold active at h
  dsimp only at h
  rw [he] at h
  simpa [Lingers, and_assoc] using h

theorem note_of_finished (msg : TCPMessage) (h : p.sender.input.isFinished = true) :
    (p.note msg).lingerAfterStreamsFinish = p.lingerAfterStreamsFinish ∧
      (p.note msg).cumulativeTime = p.cumulativeTime ∧
      (p.note msg).timeOfLastReceipt = p.cumulativeTime ∧ (p.note msg).cfg = p.cfg := by
  unfold note
  simp [h]

/-- A message that an active peer handles without an exception goes to both sides. -/
theorem receive_ok (ha : p.active = true) (h : p.receive msg = .ok (p', out)) :
    p.receiver.receive msg.sender = .ok p'.receiver ∧
      p.sender.receive msg.receiver = .ok p'.sender ∧ ∃ ns, p' = { p.note msg with
        receiver := p'.receiver, sender := p'.sender, needSend := ns } := by
  unfold TCPPeer.receive at h
  rw [if_neg (by simp [ha])] at h
  obtain ⟨hr, hs⟩ := p.note_eq msg
  dsimp only at h
  rw [← hr, ← hs]
  generalize p.note msg = q at h ⊢
  cases hrec : q.receiver.receive msg.sender with
  | undefined u => rw [hrec] at h; cases h
  | throws e t => rw [hrec] at h; cases h
  | ok t =>
    rw [hrec] at h
    simp only [Outcome.map, Outcome.bind] at h
    cases hsnd : q.sender.receive msg.receiver with
    | undefined u => rw [hsnd] at h; cases h
    | throws e t => rw [hsnd] at h; cases h
    | ok sd =>
      rw [hsnd] at h
      dsimp only at h
      split at h <;> cases h <;> exact ⟨rfl, rfl, _, rfl⟩

end TCPPeer

theorem Host.receive_of_call {msg : TCPMessage} (hc : g.call (.receive msg) = some (g', b)) :
    g.receive ⟨msg, 0, 0⟩ = some g' := by
  rw [Host.call] at hc
  unfold Host.receive
  split at hc
  next heq => cases hc; rw [heq]
  next heq => cases hc; rw [heq]
  next => cases hc

theorem HostInv.call (h : HostInv c g) (hcap : c.sendCapacity < 2 ^ 64)
    (hc : g.call cl = some (g', b)) : HostInv c g' := by
  cases cl with
  | write data => cases hc; exact h.write data
  | close => cases hc; exact h.close
  | read len =>
    obtain ⟨g₁, hr, heq⟩ := Option.map_eq_some_iff.1 hc
    cases heq
    exact h.read hr
  | push =>
    obtain ⟨g₁, hp, heq⟩ := Option.map_eq_some_iff.1 hc
    cases heq
    exact h.push hp
  | tick ms => cases hc; exact h.tick hcap ms
  | receive msg => exact h.receive (Host.receive_of_call hc)

theorem HostRun.inv {Ok : TCPPeer → Call → Prop} (hcap : c.sendCapacity < 2 ^ 64)
    (h : HostRun c Ok g b) : HostInv c g := by
  induction h with
  | start => exact ⟨.start, by simp⟩
  | call _ _ _ hc ih => exact ih.call hcap hc

/-- What a returned receipt leaves of the stream and the FIN. -/
theorem TCPSender.SenderInv.receive_same {s s' : TCPSender} {isn : Wrap32} {D : Bytes}
    {segs : List TCPSenderMessage} {msg : TCPReceiverMessage} (h : SenderInv isn D segs s)
    (hr : s.receive msg = .ok s') : s'.finQueued = s.finQueued ∧
      s'.input = if msg.RST then s.input.setError else s.input := by
  obtain ⟨gone, ha⟩ := receive_acks h.inFlight h.inFlight_lt hr
  rw [ha.state, noteWindow_eq]
  exact ⟨rfl, rfl⟩

/-- A receipt that keeps to `KeepsFin` does not end the peer with a FIN due. -/
theorem HostInv.receive_keeps (h : HostInv c g) (hcap : c.sendCapacity < 2 ^ 64)
    (hw : g.written.length < 2 ^ 63) (hok : g.peer.KeepsFin (.receive msg))
    (hr : g.peer.receive msg = .ok (p', out)) (hdue : p'.FinDue) (he : p'.anyErrors = false) :
    p'.active = true := by
  by_contra hstop
  have hstop := Bool.eq_false_iff.2 hstop
  cases ha : g.peer.active with
  | false =>
    have hsame : p' = g.peer := by
      unfold TCPPeer.receive at hr
      rw [if_pos (by simp [ha])] at hr
      cases hr
      rfl
    rw [hsame] at hdue he
    rcases hok hdue with h' | ⟨h', -⟩
    · rw [he] at h'; cases h'
    · rw [ha] at h'; cases h'
  | true =>
    obtain ⟨hrec, hsnd, ns, hp⟩ := TCPPeer.receive_ok ha hr
    have hi := h.inv hcap
    obtain ⟨hq, hinput⟩ := hi.receive_same hsnd
    obtain ⟨h0, hdone, hclosed, hlinger⟩ := p'.active_eq_false hstop he
    obtain ⟨he₁, he₂⟩ := Bool.or_eq_false_iff.1 he
    have hdone' : g.peer.sender.input.isFinished = true := by
      rw [hinput] at hdone
      split at hdone <;> exact hdone
    obtain ⟨hl, hcum, hlast, hcfg⟩ := TCPPeer.note_of_finished msg hdone'
    rcases hok ⟨hdone', hq ▸ hdue.2⟩ with h' | ⟨-, h' | h' | ⟨h₁, h₂⟩ | ⟨h₁, h₂⟩⟩
    · unfold TCPPeer.active at ha
      rw [TCPPeer.anyErrors] at h'
      simp [h'] at ha
    · rw [receive_hasError (.inl hrec) (.inr h')] at he₁; cases he₁
    · rw [hinput, h'] at he₂; cases he₂
    · refine hlinger ?_
      rw [hp]
      exact ⟨hl.trans h₁, by dsimp only; rw [hcum, hlast, hcfg]; omega⟩
    · obtain ⟨ackno, hack, hnext⟩ := hi.acked_all hw hdone' hsnd h₁ h0
      exact h₂ ackno hack hnext

/-- No call that keeps to `KeepsFin` ends the peer with a FIN due. -/
theorem HostInv.call_keeps (h : HostInv c g) (hcap : c.sendCapacity < 2 ^ 64)
    (hw : g'.written.length < 2 ^ 63) (hok : g.peer.KeepsFin cl) (hc : g.call cl = some (g', true))
    (hdue : g'.peer.FinDue) (he : g'.peer.anyErrors = false) : g'.peer.active = true := by
  cases cl with
  | write data => cases hc
  | close => cases hc
  | read len =>
    obtain ⟨g₁, -, heq⟩ := Option.map_eq_some_iff.1 hc
    cases heq
  | push =>
    obtain ⟨g₁, hp, heq⟩ := Option.map_eq_some_iff.1 hc
    cases heq
    obtain ⟨sd, ms, hpush, rfl⟩ := Host.push_eq hp
    by_contra hstop
    obtain ⟨h0, hdone, -⟩ := TCPPeer.active_eq_false (Bool.eq_false_iff.2 hstop) he
    have hq := (h.inv hcap).ready.push_finQueued hpush hdone h0
    exact absurd hdue.2 (by simp [hq])
  | tick ms =>
    cases hc
    obtain ⟨t, n, htick⟩ := tick_eq g.peer.sender ms
    have hsender : (g.tick ms).peer.sender = (g.peer.sender.tick ms).1 := rfl
    by_contra hstop
    obtain ⟨h0, -, hclosed, hlinger⟩ := TCPPeer.active_eq_false (Bool.eq_false_iff.2 hstop) he
    rw [TCPPeer.FinDue, hsender, htick] at hdue
    rw [hsender, htick] at h0
    rw [TCPPeer.anyErrors, hsender, htick] at he
    rcases hok hdue with h' | h' | h' | h'
    · exact absurd (h'.symm.trans he) (by simp)
    · exact h' h0
    · exact absurd (h'.symm.trans hclosed) (by simp)
    · exact hlinger ⟨h'.1, h'.2⟩
  | receive msg =>
    rw [Host.call] at hc
    split at hc
    next peer out heq =>
      cases hc
      exact h.receive_keeps hcap hw hok heq hdue he
    · cases hc
    · cases hc

/-! ### Whole runs -/

section Runs
variable {Ok : TCPPeer → Call → Prop} [∀ p c, Decidable (Ok p c)]

theorem HostRun.calls {cs : List Call} {b' : Bool} (h : HostRun c Ok g b)
    (hs : g.calls Ok b cs = some (g', b')) : HostRun c Ok g' b' := by
  induction cs generalizing g b with
  | nil => cases hs; exact h
  | cons cl cs ih =>
    rw [Host.calls] at hs
    split at hs
    next hok =>
      obtain ⟨⟨g₁, b₁⟩, hc, hs⟩ := Option.bind_eq_some_iff.1 hs
      exact ih (h.call cl hok hc) hs
    next => cases hs

/-- A run that a list of calls makes. -/
theorem HostRun.exists_of_calls {P : Host → Prop} [DecidablePred P] (cs : List Call)
    (hs : (Host.calls Ok { peer := .ofConfig c } false cs).any (fun p => p.2 && decide (P p.1)) =
      true) : ∃ g, HostRun c Ok g true ∧ P g := by
  obtain ⟨⟨g, b⟩, hrun, hP⟩ := (Option.any_eq_true _ _).1 hs
  obtain ⟨rfl, hP⟩ : b = true ∧ decide (P g) = true := Bool.and_eq_true _ _ ▸ hP
  exact ⟨g, HostRun.start.calls hrun, of_decide_eq_true hP⟩

end Runs

/-- Where no call ends the peer with a FIN due, a peer that stops without an error is through with both
directions. -/
theorem shut_of_inactive {cfg : TCPConfig} (hcap : cfg.sendCapacity < 2 ^ 64)
    (hw : g.written.length < 2 ^ 63) (h : HostRun cfg TCPPeer.KeepsFin g true)
    (he : g.peer.anyErrors = false) (hstop : g.peer.active = false) : g.Shut := by
  obtain ⟨h0, hdone, hclosed, -⟩ := TCPPeer.active_eq_false hstop he
  have hinv := h.inv hcap
  have hi := hinv.inv hcap
  have hq : g.peer.sender.finQueued = true := by
    cases h with
    | call cl hr hok hc =>
      by_contra hq
      have := (hr.inv hcap).call_keeps hcap hw hok hc ⟨hdone, Bool.eq_false_iff.2 hq⟩ he
      exact absurd (this.symm.trans hstop) (by simp)
  have hfin := hinv.run.finSent hcap hq
  refine ⟨hclosed, ?_, hfin.sent, hfin.acked hi.inFlight h0⟩
  have hempty := hi.ready.stream.bytesInDeck_of_isFinished hdone
  rw [hi.ready.stream.buffered] at hempty
  have hacc := hi.accepted
  rw [List.length_eq_zero_iff.1 hempty, List.append_nil, payloads_segments] at hacc
  exact hacc.symm

/-- The other side finishes first; a byte and the FIN then go out together and are acknowledged. -/
theorem shut_of_inactive_a : ∃ g, HostRun ⟨1000, 4, 4, ⟨7⟩⟩ TCPPeer.KeepsFin g true ∧
    g.peer.active = false ∧ g.written = [1] ∧ g.Shut := by
  have h : ∃ g, HostRun ⟨1000, 4, 4, ⟨7⟩⟩ TCPPeer.KeepsFin g true ∧ g.written = [1] ∧
      g.peer.anyErrors = false ∧ g.peer.active = false := HostRun.exists_of_calls
    [.push, .receive ⟨{ seqno := ⟨100⟩, SYN := true, FIN := true }, ⟨some ⟨8⟩, 5, false⟩⟩,
      .receive ⟨{ seqno := ⟨102⟩ }, ⟨some ⟨8⟩, 5, false⟩⟩, .write [1], .close, .push,
      .receive ⟨{ seqno := ⟨102⟩ }, ⟨some ⟨10⟩, 5, false⟩⟩] (by decide)
  obtain ⟨g, hrun, hw, he, hstop⟩ := h
  exact ⟨g, hrun, hstop, hw, shut_of_inactive (by decide) (by rw [hw]; decide) hrun he hstop⟩

/-- The other side finishes first, the byte fills the window, and the acknowledgment of it ends the
peer before the FIN has a place. -/
theorem shut_fails : ∃ g, HostRun ⟨1000, 4, 4, ⟨7⟩⟩ (fun _ _ => True) g true ∧
    g.peer.anyErrors = false ∧ g.peer.active = false ∧ ¬ g.Shut := by
  have h : ∃ g, HostRun ⟨1000, 4, 4, ⟨7⟩⟩ (fun _ _ => True) g true ∧ g.peer.anyErrors = false ∧
      g.peer.active = false ∧ ¬ ∃ m ∈ g.sent, m.FIN = true := HostRun.exists_of_calls
    [.push, .receive ⟨{ seqno := ⟨100⟩, SYN := true, FIN := true }, ⟨some ⟨8⟩, 1, false⟩⟩,
      .write [1], .push, .receive ⟨{ seqno := ⟨102⟩ }, ⟨some ⟨8⟩, 1, false⟩⟩, .close, .push,
      .receive ⟨{ seqno := ⟨102⟩ }, ⟨some ⟨9⟩, 5, false⟩⟩] (by decide)
  obtain ⟨g, hrun, he, hstop, hfin⟩ := h
  exact ⟨g, hrun, he, hstop, fun hs => hfin hs.fin⟩

end Minnow
