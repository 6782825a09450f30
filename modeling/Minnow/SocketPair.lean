import Minnow.SocketLife
import Minnow.SocketNet

/-!
# Two sockets

Two sockets whose adapters are connected by a network run as two peers do that a network connects
(`pair_refines`). As long as what arrives does no harm, each owner gets what the other one has written
(`pair_delivers`).
-/

namespace Minnow
open Prog TCPSender TCPReceiver ByteStream

namespace TCPMinnowSocket
open SysCall

variable {A κ α : Type} {c : TCPConfig} {cfg : Side → TCPConfig} {Ok : Host → Packet → Prop} {N : Net}
  {h : Host} {x : Side}

/-- Two sockets and their loops, each of them once it has been started. -/
abbrev Pair (A κ : Type) := Side → Option (EventLoop (TCPMinnowSocket A κ) × TCPMinnowSocket A κ)

namespace Pair

def received (P : Pair A κ) (x : Side) : List Receipt := (P x).elim [] (·.2.received)

def transmitted (P : Pair A κ) (x : Side) : List TCPMessage := (P x).elim [] (·.2.transmitted)

/-- What the owner at `x` has written. -/
def written (P : Pair A κ) (x : Side) : Bytes :=
  (P x).elim [] fun s => bytesRead .threadData s.2.process.log

/-- What the owner at `x` has been given. -/
def given (P : Pair A κ) (x : Side) : Bytes :=
  (P x).elim [] fun s => bytesWritten .threadData s.2.process.log

def set (P : Pair A κ) (x : Side) (s : EventLoop (TCPMinnowSocket A κ) × TCPMinnowSocket A κ) :
    Pair A κ := fun y => if y = x then some s else P y

end Pair

section Run
variable [TCPDatagramAdapter A κ α] [Kernel κ]

/-- What the thread that runs a socket does until the next wait. -/
inductive Next (cfg : TCPConfig) (w₀ : TCPMinnowSocket A κ) :
    Option (EventLoop (TCPMinnowSocket A κ) × TCPMinnowSocket A κ) →
    EventLoop (TCPMinnowSocket A κ) × TCPMinnowSocket A κ → Prop
  | connect {s} (config : FdAdapterConfig α) (h : startConnect cfg config ({}, w₀) = .ok () s) :
      Next cfg w₀ none s
  | listen {s} (config : FdAdapterConfig α) (h : startListen cfg config ({}, w₀) = .ok () s) :
      Next cfg w₀ none s
  | pass {s s'} {abort more : Bool} {elapsed : Nat} (hp : tcpPass abort elapsed s = .ok more s') :
      Next cfg w₀ (some s) s'

/-- The passes of the two sockets in any order. A message that one of them receives has been
transmitted by the other; the network may lose, repeat and reorder messages, and it carries one flag for
a reset. A pass receives before it transmits, so that passes that overlap in time have an order too.
`Ok` says what may arrive, with the stream of the other side and where it starts. -/
inductive PairRun (cfg : Side → TCPConfig) (w₀ : Side → TCPMinnowSocket A κ)
    (Ok : Wrap32 → Bytes → Receipt → Prop) : Pair A κ → Prop
  | start : PairRun cfg w₀ Ok fun _ => none
  | step {P s} (x : Side) (h : PairRun cfg w₀ Ok P) (hs : Next (cfg x) (w₀ x) (P x) s)
      (hnet : ∀ r ∈ s.2.received.drop (P.received x).length,
        (∃ m ∈ P.transmitted x.other, r.msg = m.orRST) ∧ Ok (cfg x.other).isn (P.written x.other) r) :
      PairRun cfg w₀ Ok (P.set x s)

theorem PairRun.mono {cfg : Side → TCPConfig} {w₀ : Side → TCPMinnowSocket A κ}
    {Ok Ok' : Wrap32 → Bytes → Receipt → Prop} {P : Pair A κ}
    (hle : ∀ isn D r, Ok isn D r → Ok' isn D r) (h : PairRun cfg w₀ Ok P) : PairRun cfg w₀ Ok' P := by
  induction h with
  | start => exact .start
  | step x _ hs hnet ih => exact ih.step x hs fun r hr => (hnet r hr).imp_right (hle _ _ _)

/-- What is done with a socket. -/
inductive Move (α : Type)
  | connect (x : Side) (config : FdAdapterConfig α)
  | listen (x : Side) (config : FdAdapterConfig α)
  | pass (x : Side)

def Move.side : Move α → Side
  | .connect x _ => x
  | .listen x _ => x
  | .pass x => x

def Move.next (cfg : TCPConfig) (w₀ : TCPMinnowSocket A κ) :
    Move α → Option (EventLoop (TCPMinnowSocket A κ) × TCPMinnowSocket A κ) →
      Option (EventLoop (TCPMinnowSocket A κ) × TCPMinnowSocket A κ)
  | .connect _ config, none =>
    match startConnect cfg config ({}, w₀) with
    | .ok _ s => some s
    | .error _ _ => none
  | .listen _ config, none =>
    match startListen cfg config ({}, w₀) with
    | .ok _ s => some s
    | .error _ _ => none
  | .pass _, some s =>
    match tcpPass false 0 s with
    | .ok _ s => some s
    | .error _ _ => none
  | _, _ => none

theorem Move.next_spec {cfg : TCPConfig} {w₀ : TCPMinnowSocket A κ} {move : Move α}
    {o : Option (EventLoop (TCPMinnowSocket A κ) × TCPMinnowSocket A κ)}
    {s : EventLoop (TCPMinnowSocket A κ) × TCPMinnowSocket A κ}
    (h : move.next cfg w₀ o = some s) : Next cfg w₀ o s := by
  unfold Move.next at h
  split at h
  · split at h <;> cases h
    exact .connect _ ‹_›
  · split at h <;> cases h
    exact .listen _ ‹_›
  · split at h <;> cases h
    exact .pass ‹_›
  · cases h

/-- The moves one after the other, as far as `Net` admits what a side has done. -/
def Pair.runs (cfg : Side → TCPConfig) (w₀ : Side → TCPMinnowSocket A κ)
    (Net : Pair A κ → Side → EventLoop (TCPMinnowSocket A κ) × TCPMinnowSocket A κ → Prop)
    [∀ P x s, Decidable (Net P x s)] (P : Pair A κ) : List (Move α) → Option (Pair A κ)
  | [] => some P
  | move :: moves =>
    let x := move.side
    match move.next (cfg x) (w₀ x) (P x) with
    | none => none
    | some s => if Net P x s then (P.set x s).runs cfg w₀ Net moves else none

section Runs
variable {cfg : Side → TCPConfig} {w₀ : Side → TCPMinnowSocket A κ}
  {Net : Pair A κ → Side → EventLoop (TCPMinnowSocket A κ) × TCPMinnowSocket A κ → Prop}
  [∀ P x s, Decidable (Net P x s)] {R : Pair A κ → Prop}

theorem Pair.of_runs
    (step : ∀ P x s, R P → Next (cfg x) (w₀ x) (P x) s → Net P x s → R (P.set x s))
    {P P' : Pair A κ} (h : R P) {moves : List (Move α)} (hs : P.runs cfg w₀ Net moves = some P') :
    R P' := by
  induction moves generalizing P with
  | nil => cases hs; exact h
  | cons move moves ih =>
    rw [Pair.runs] at hs
    split at hs
    · cases hs
    next s heq =>
      split at hs
      next hnet => exact ih (step P _ s h (Move.next_spec heq) hnet) hs
      next => cases hs

/-- A run that a list of moves makes. -/
theorem Pair.exists_of_runs {Q : Pair A κ → Prop} [DecidablePred Q] (start : R fun _ => none)
    (step : ∀ P x s, R P → Next (cfg x) (w₀ x) (P x) s → Net P x s → R (P.set x s))
    (moves : List (Move α))
    (hs : (Pair.runs cfg w₀ Net (fun _ => none) moves).any (fun P => decide (Q P)) = true) :
    ∃ P, R P ∧ Q P := by
  obtain ⟨P, hrun, hQ⟩ := (Option.any_eq_true _ _).1 hs
  exact ⟨P, Pair.of_runs step start hrun, of_decide_eq_true hQ⟩

end Runs

variable {s s' : EventLoop (TCPMinnowSocket A κ) × TCPMinnowSocket A κ} {w : TCPMinnowSocket A κ}

/-- A socket that is about to wait, with the host that it works for. -/
structure Attached (h : Host) (s : EventLoop (TCPMinnowSocket A κ) × TCPMinnowSocket A κ) : Prop where
  nonFd : s.1.nonFdRules = []
  left : ∃ ks : List SocketRule, s.1.fdRules = ks.map rule ∧ ks.Sublist socketRules
  works : ∃ p, Works h p s.2

theorem Attached.setting (ha : Attached h s) (hi : HostInv c h) :
    Setting c h s.2.received [] s.1 s.2 := by
  obtain ⟨p, hw⟩ := ha.works
  exact ⟨ha.nonFd, ha.left, ⟨hi, [], h, p, rfl, hw, (List.append_nil _).symm⟩,
    fun _ hk => absurd hk List.not_mem_nil, fun _ hk => absurd hk List.not_mem_nil⟩

theorem Next.setting {o : Option (EventLoop (TCPMinnowSocket A κ) × TCPMinnowSocket A κ)}
    (hn : Next c w o s') (hf : Fresh w) (hsend : c.sendCapacity < 2 ^ 64)
    (hrecv : c.recvCapacity < 2 ^ 64) (hi : HostInv c h) (hidle : o = none → h = { peer := .ofConfig c })
    (hatt : ∀ s, o = some s → Attached h s) : Setting c h (o.elim [] (·.2.received)) [] s'.1 s'.2 := by
  cases hn with
  | connect config hs =>
    rw [hidle rfl]
    exact (Run.connect config hs).setting hf hsend hrecv
  | listen config hs =>
    rw [hidle rfl]
    exact (Run.listen config hs).setting hf hsend hrecv
  | pass hp => exact ((hatt _ rfl).setting hi).pass hsend hp

/-- The network whose hosts the two sockets work for. -/
structure Linked (cfg : Side → TCPConfig) (Ok : Host → Packet → Prop) (P : Pair A κ) (N : Net) :
    Prop where
  run : NetRun cfg Ok N
  host : ∀ x, HostInv (cfg x) (N x)
  agrees : ∀ x, (N x).Agrees
  idle : ∀ x, P x = none → N x = { peer := .ofConfig (cfg x) }
  attached : ∀ x s, P x = some s → Attached (N x) s

variable {P : Pair A κ}

theorem Linked.same (hl : Linked cfg Ok P N) (x : Side) :
    P.transmitted x = (N x).wire.map (·.msg) ∧ P.written x = (N x).written ∧
      P.given x = (N x).read := by
  unfold Pair.transmitted Pair.written Pair.given
  cases hx : P x with
  | none => rw [hl.idle x hx]; exact ⟨rfl, rfl, rfl⟩
  | some s =>
    obtain ⟨p, hw⟩ := (hl.attached x s hx).works
    exact ⟨hw.transmitted, hw.written, hw.read⟩

/-- What may be received may be delivered. -/
def Admits (Ok : Wrap32 → Bytes → Receipt → Prop) (Ok' : Host → Packet → Prop) : Prop :=
  ∀ isn D r h pkt, Ok isn D r → h.peer = r.peer → pkt.msg = r.msg →
    (0 < pkt.msg.sender.sequenceLength → pkt.msg.sender.WellFormed isn D pkt.seqAt) → Ok' h pkt

variable {Ok' : Wrap32 → Bytes → Receipt → Prop}

theorem Linked.brings (hl : Linked cfg Ok P N) (hsend : ∀ x, (cfg x).sendCapacity < 2 ^ 64)
    (hadm : Admits Ok' Ok) {r : Receipt} (hr : ∃ m ∈ P.transmitted x.other, r.msg = m.orRST)
    (hok : Ok' (cfg x.other).isn (P.written x.other) r) : r.msg.Agrees ∧ N.Brings Ok x r := by
  obtain ⟨m, hm, hmsg⟩ := hr
  obtain ⟨htr, hwr, -⟩ := hl.same x.other
  rw [htr] at hm
  obtain ⟨pkt, hpkt, rfl⟩ := List.mem_map.1 hm
  have hagree := (hl.agrees x.other).wire pkt hpkt
  rw [hagree.orRST] at hmsg
  refine ⟨hmsg ▸ hagree, pkt, hpkt, hmsg.symm, fun h hh => ?_⟩
  refine hadm _ _ r h pkt hok hh hmsg.symm fun hlen => ?_
  rw [hwr]
  have hhost := hl.host x.other
  exact ((hhost.inv (hsend _)).placed _ _ (hhost.wire pkt hpkt hlen)).wellFormed

theorem Linked.step (hl : Linked cfg Ok P N) (hsend : ∀ x, (cfg x).sendCapacity < 2 ^ 64)
    (hadm : Admits Ok' Ok) (hset : Setting (cfg x) (N x) (P.received x) [] s'.1 s'.2)
    (hnet : ∀ r ∈ s'.2.received.drop (P.received x).length,
      (∃ m ∈ P.transmitted x.other, r.msg = m.orRST) ∧ Ok' (cfg x.other).isn (P.written x.other) r) :
    ∃ N', Linked cfg Ok (P.set x s') N' := by
  obtain ⟨hnon, hleft, ⟨hi, cs, h, p, hm, hw, hrec⟩, -⟩ := hset
  rw [hrec, List.drop_left] at hnet
  have hbrings := fun r hr => hl.brings hsend hadm (hnet r hr).1 (hnet r hr).2
  have hset : ∀ {Q : Side → Host → Prop}, Q x h → (∀ y, Q y (N y)) → ∀ y, Q y (N.set x h y) := by
    intro Q hx hall y
    unfold Net.set
    split
    next hy => rw [hy]; exact hx
    next => exact hall y
  refine ⟨N.set x h, hl.run.makes hm fun r hr => (hbrings r hr).2,
    hset (Q := fun y h => HostInv (cfg y) h) (hi.makes (hsend x) hm) hl.host,
    hset (Q := fun _ h => h.Agrees)
      ((hl.agrees x).makes hi (hsend x) hm fun r hr => (hbrings r hr).1) hl.agrees,
    fun y hy => ?_, fun y t hy => ?_⟩
  · unfold Pair.set at hy
    unfold Net.set
    split at hy
    · cases hy
    next hne => rw [if_neg hne]; exact hl.idle y hy
  · unfold Pair.set at hy
    unfold Net.set
    split at hy
    next heq =>
      cases hy
      rw [if_pos heq]
      exact ⟨hnon, hleft, p, hw⟩
    next hne => rw [if_neg hne]; exact hl.attached y t hy

theorem linked_of_run {w₀ : Side → TCPMinnowSocket A κ} (hf : ∀ x, Fresh (w₀ x))
    (hsend : ∀ x, (cfg x).sendCapacity < 2 ^ 64) (hrecv : ∀ x, (cfg x).recvCapacity < 2 ^ 64)
    (hadm : Admits Ok' Ok) (hrun : PairRun cfg w₀ Ok' P) : ∃ N, Linked cfg Ok P N := by
  induction hrun with
  | start =>
    exact ⟨.start cfg, .start, fun x => hostInv_start (hsend x), fun x => Host.agrees_start (hrecv x),
      fun _ _ => rfl, fun _ _ h => by cases h⟩
  | step x _ hs hnet ih =>
    obtain ⟨N, hl⟩ := ih
    exact hl.step hsend hadm
      (hs.setting (hf x) (hsend x) (hrecv x) (hl.host x) (hl.idle x) (hl.attached x)) hnet

/-- A message that is harmless where it is received, wherever in the stream of the other side it may
come from. -/
def Harmless (isn : Wrap32) (D : Bytes) (r : Receipt) : Prop :=
  r.peer.active = true → ∀ a, r.msg.sender.WellFormed isn D a →
    PayloadSafe r.peer.receiver a r.msg.sender ∧ FinSafe r.peer.receiver a r.msg.sender

theorem harmless_iff (isn : Wrap32) (D : Bytes) (r : Receipt) : Harmless isn D r ↔
    (r.peer.active = true → ∀ a < D.length + 2, r.msg.sender.WellFormed isn D a →
      PayloadSafe r.peer.receiver a r.msg.sender ∧ FinSafe r.peer.receiver a r.msg.sender) := by
  refine ⟨fun h ha a _ => h ha a, fun h ha a hw => ?_⟩
  by_cases hlt : a < D.length + 2
  · exact h ha a hlt hw
  · -- past the end there is nothing to send
    have hlen := hw.bytes.length_le
    have hS : r.msg.sender.SYN = false := Bool.eq_false_iff.2 fun hS => by
      have := hw.syn hS
      omega
    have hindex : r.msg.sender.index a = a - 1 := by
      rw [TCPSenderMessage.index, if_neg (by simp [hS])]
    rw [List.length_drop, hindex] at hlen
    refine ⟨fun hne => absurd (List.length_eq_zero_iff.1 (by omega)) hne, fun hF => ?_⟩
    have := hw.fin hF
    omega

instance (m : TCPSenderMessage) (isn : Wrap32) (D : Bytes) (a : Nat) :
    Decidable (m.WellFormed isn D a) :=
  decidable_of_iff (m.seqno = .wrap a isn ∧ (m.SYN = true → a = 0) ∧
      (m.payload ≠ [] ∨ m.FIN = true → m.SYN = true ∨ 0 < a) ∧ m.payload <+: D.drop (m.index a) ∧
      (m.FIN = true → m.index a + m.payload.length = D.length))
    ⟨fun ⟨h₁, h₂, h₃, h₄, h₅⟩ => ⟨h₁, h₂, h₃, h₄, h₅⟩, fun h => ⟨h.1, h.2, h.3, h.4, h.5⟩⟩

instance (isn : Wrap32) (D : Bytes) (r : Receipt) : Decidable (Harmless isn D r) :=
  decidable_of_iff _ (harmless_iff isn D r).symm

theorem admits_harmless : Admits Harmless DeliverSafe := by
  intro isn D r h pkt hok hpeer hmsg hwell hact
  rw [hpeer] at hact ⊢
  rw [hmsg] at hwell ⊢
  rcases Nat.eq_zero_or_pos r.msg.sender.sequenceLength with h0 | hpos
  · unfold TCPSenderMessage.sequenceLength at h0
    refine ⟨fun hne => absurd (List.length_eq_zero_iff.1 (by omega)) hne, fun hF => ?_⟩
    rw [hF, Bool.toNat_true] at h0
    omega
  · exact hok hact _ (hwell hpos)

end Run

/-! ### A run -/

def talkConfig : Side → TCPConfig
  | .a => ⟨10, 4, 4, ⟨7⟩⟩
  | .b => ⟨10, 4, 4, ⟨100⟩⟩

/-- The owner at `a` writes two bytes and closes his end. -/
def talk : Side → TCPMinnowSocket Inbox Scripted
  | .a => {
      process := { kernel := { input := [[1, 2]], ready := [0, 1, 1] }, fds := fun _ => { fd := 4 } }
      datagramAdapter := {
        messages := [{
          sender := { seqno := ⟨101⟩ }
          receiver := { ackno := some ⟨8⟩, windowSize := 4 } }] } }
  | .b => {
      process := { kernel := { input := [], ready := [0, 0, 2, 0, 2] }, fds := fun _ => { fd := 4 } }
      datagramAdapter := {
        messages := [
          { sender := { seqno := ⟨7⟩, SYN := true }, receiver := { windowSize := 4 } },
          { sender := { seqno := ⟨8⟩, payload := [1, 2] }, receiver := { windowSize := 4 } },
          { sender := { seqno := ⟨10⟩, FIN := true }, receiver := { windowSize := 4 } }] } }

theorem talk_fresh (x : Side) : Fresh (talk x) := by cases x <;> exact ⟨rfl, rfl, rfl, rfl⟩

theorem talk_config (x : Side) :
    (talkConfig x).sendCapacity < 2 ^ 64 ∧ (talkConfig x).recvCapacity < 2 ^ 64 := by
  cases x <;> decide

/-- The owner at `b` gets the two bytes and is told of the end. -/
theorem talk_run : ∃ P, PairRun talkConfig talk Harmless P ∧ (∀ x, (P.written x).length < 2 ^ 63) ∧
    P.given .b = [1, 2] ∧ ∃ s, P .b = some s ∧ (∃ e ∈ s.2.process.log, tellsEnd e = true) ∧
      ∀ p ∈ s.2.tcp, p.anyErrors = false := by
  have h : ∃ P, PairRun talkConfig talk Harmless P ∧ (P.written .a).length < 2 ^ 63 ∧
      (P.written .b).length < 2 ^ 63 ∧ P.given .b = [1, 2] ∧ (P .b).any (fun s =>
        decide (∃ e ∈ s.2.process.log, tellsEnd e = true) && s.2.tcp.all (!·.anyErrors)) = true :=
    Pair.exists_of_runs .start (fun _ x _ h hs hnet => h.step x hs hnet) [.connect .a anywhere,
      .listen .b anywhere, .pass .b, .pass .a, .pass .a, .pass .b, .pass .b, .pass .a, .pass .b,
      .pass .b]
      (by decide +kernel)
  obtain ⟨P, hrun, ha, hb, hgiven, hend⟩ := h
  obtain ⟨s, hs, hend⟩ := (Option.any_eq_true _ _).1 hend
  rw [Bool.and_eq_true, decide_eq_true_eq] at hend
  refine ⟨P, hrun, fun x => by cases x <;> assumption, hgiven, s, hs, hend.1, fun p hp => ?_⟩
  have := hend.2
  rw [Option.mem_def.1 hp, Option.all_some, Bool.not_eq_true'] at this
  exact this

/-! ### What two sockets do -/

variable [TCPDatagramAdapter A κ α] [Kernel κ] {P : Pair A κ} {w₀ : Side → TCPMinnowSocket A κ}
  {s : EventLoop (TCPMinnowSocket A κ) × TCPMinnowSocket A κ}

theorem PairRun.delivers (hf : ∀ x, Fresh (w₀ x)) (hsend : ∀ x, (cfg x).sendCapacity < 2 ^ 64)
    (hrecv : ∀ x, (cfg x).recvCapacity < 2 ^ 64) (hrun : PairRun cfg w₀ Harmless P)
    (hD : ∀ x, (P.written x).length < 2 ^ 63) {x : Side} (hx : P x = some s) :
    P.given x <+: P.written x.other ∧
      ((∃ e ∈ s.2.process.log, tellsEnd e = true) → (∀ p ∈ s.2.tcp, p.anyErrors = false) →
        P.given x = P.written x.other ∧
          ∃ t, P x.other = some t ∧ t.2.outboundShutdown = true) := by
  obtain ⟨N, hl⟩ := linked_of_run hf hsend hrecv admits_harmless hrun
  have hi := hl.run.inv hsend hrecv fun y => (hl.same y).2.1 ▸ hD y
  have hlink := hi.link x
  rw [(hl.same x).2.2, (hl.same x.other).2.1]
  refine ⟨(List.prefix_append _ _).trans hlink.delivers.le_stream, fun htold hclean => ?_⟩
  obtain ⟨p, hw⟩ := (hl.attached x s hx).works
  have he := hclean p hw.tcp
  obtain rfl : p = (N x).peer := hw.same.resolve_right (by simp [he])
  have hover := (hw.ended htold).resolve_right (by simp [(Bool.or_eq_false_iff.1 he).1])
  obtain ⟨hclosed, hqueued⟩ := (isFinished_iff_queued hw.inbound).1 hover
  obtain ⟨hlast, hall, -⟩ := hlink.delivers.closed hclosed
  rw [hqueued, List.append_nil] at hall
  refine ⟨hall, ?_⟩
  -- the other side has queued a FIN, which it does not before its stream is closed
  have hready := ((hi.host x.other).inv (hsend _)).ready
  have hshut := ((isFinished_iff hready.stream).1 (hready.finished (hlink.last hlast)).1).1
  cases ht : P x.other with
  | none =>
    rw [hl.idle _ ht] at hshut
    cases hshut
  | some t =>
    obtain ⟨q, hq⟩ := (hl.attached _ t ht).works
    exact ⟨t, rfl, hq.outbound hshut⟩

/-- Two sockets that a network connects run as two peers do: each is a host of the network, who has
written what was read from his owner, has read what was written to the owner, and has on the wire what
was transmitted. -/
theorem pair_refines (hf : ∀ x, Fresh (w₀ x)) (hsend : ∀ x, (cfg x).sendCapacity < 2 ^ 64)
    (hrecv : ∀ x, (cfg x).recvCapacity < 2 ^ 64) (hrun : PairRun cfg w₀ (fun _ _ _ => True) P) :
    ∃ N, NetRun cfg (fun _ _ => True) N ∧ ∀ x, P.transmitted x = (N x).wire.map (·.msg) ∧
      P.written x = (N x).written ∧ P.given x = (N x).read ∧
      ∀ s, P x = some s → ∃ p, s.2.tcp = some p ∧ (p = (N x).peer ∨ p.anyErrors = true) := by
  obtain ⟨N, hl⟩ := linked_of_run hf hsend hrecv (fun _ _ _ _ _ _ _ _ _ => trivial) hrun
  refine ⟨N, hl.run, fun x => ?_⟩
  obtain ⟨htr, hwr, hgiven⟩ := hl.same x
  refine ⟨htr, hwr, hgiven, fun s hx => ?_⟩
  obtain ⟨p, hw⟩ := (hl.attached x s hx).works
  exact ⟨p, hw.tcp, hw.same⟩

theorem pair_refines_talk : ∃ N, NetRun talkConfig (fun _ _ => True) N ∧ (N .b).read = [1, 2] := by
  obtain ⟨P, hrun, -, hgiven, -⟩ := talk_run
  obtain ⟨N, hnet, hN⟩ := pair_refines talk_fresh (fun x => (talk_config x).1)
    (fun x => (talk_config x).2) (hrun.mono fun _ _ _ _ => trivial)
  exact ⟨N, hnet, (hN .b).2.2.1.symm.trans hgiven⟩

/-- As long as what arrives is harmless, an owner has been given a part of what the other owner has
written, from the start. If he has been told of the end and there was no error, he has been given all of
it, and the other owner has no more to write. -/
theorem pair_delivers (hf : ∀ x, Fresh (w₀ x)) (hsend : ∀ x, (cfg x).sendCapacity < 2 ^ 64)
    (hrecv : ∀ x, (cfg x).recvCapacity < 2 ^ 64) (hrun : PairRun cfg w₀ Harmless P)
    (hD : ∀ x, (P.written x).length < 2 ^ 63) {x : Side} (hx : P x = some s) :
    P.given x <+: P.written x.other ∧
      ((∃ e ∈ s.2.process.log, tellsEnd e = true) → (∀ p ∈ s.2.tcp, p.anyErrors = false) →
        P.given x = P.written x.other ∧
          ∃ t, P x.other = some t ∧ t.2.outboundShutdown = true) :=
  PairRun.delivers hf hsend hrecv hrun hD hx

theorem pair_delivers_talk : ∃ P, PairRun talkConfig talk Harmless P ∧ P.given .b = [1, 2] ∧
    P.written .a = [1, 2] := by
  obtain ⟨P, hrun, hD, hgiven, s, hs, htold, hclean⟩ := talk_run
  have h := (pair_delivers talk_fresh (fun x => (talk_config x).1) (fun x => (talk_config x).2) hrun hD
    hs).2 htold hclean
  exact ⟨P, hrun, hgiven, h.1.symm.trans hgiven⟩

end TCPMinnowSocket

end Minnow
