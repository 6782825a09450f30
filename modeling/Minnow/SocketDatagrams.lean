import Minnow.DatagramAdapter
import Minnow.SocketPair

/-!
# Two sockets that exchange datagrams

Two sockets over IPv4 run as two sockets do that exchange messages, whatever else arrives, as long as
each datagram that a message is taken from is one that the other side has sent
(`DatagramRun.pairRun`).
-/

namespace Minnow
open Prog DatagramLog TCPOverIPv4Adapter

namespace TCPMinnowSocket

variable {A κ α β : Type} [Address α] [DatagramLog A] {w w' : TCPMinnowSocket A κ}

/-! ### What the calls of a socket preserve -/

/-- The messages received have been taken from datagrams, and the datagrams sent have been made of
messages transmitted. -/
structure Carried (α : Type) [Address α] (w : TCPMinnowSocket A κ) : Prop where
  received : ∀ r ∈ w.received, ∃ e ∈ accepted w.datagramAdapter, e.2 = r.msg
  taken : ∀ e ∈ accepted w.datagramAdapter, Takes α e.1 e.2
  made : ∀ b ∈ sent w.datagramAdapter, ∃ m ∈ w.transmitted, Makes α m b

/-- What `Carried` is about has stayed as it was. -/
structure Same (w w' : TCPMinnowSocket A κ) : Prop where
  received : w'.received = w.received
  transmitted : w'.transmitted = w.transmitted
  datagramAdapter : w'.datagramAdapter = w.datagramAdapter

theorem Carried.same (h : Carried α w) (hs : Same w w') : Carried α w' := by
  refine ⟨?_, ?_, ?_⟩
  · rw [hs.received, hs.datagramAdapter]
    exact h.received
  · rw [hs.datagramAdapter]
    exact h.taken
  · rw [hs.datagramAdapter, hs.transmitted]
    exact h.made

/-- The adapter has taken some messages and sent some that have been transmitted. -/
theorem Carried.grows (h : Carried α w) {a : A} {k : κ} {taken : List (Bytes × TCPMessage)}
    {out : List Bytes} (hg : Grows w.datagramAdapter a taken out)
    (htaken : ∀ e ∈ taken, Takes α e.1 e.2) (hout : ∀ b ∈ out, ∃ m ∈ w.transmitted, Makes α m b) :
    Carried α (w.setWorld a k) := by
  refine ⟨fun r hr => ?_, fun e he => ?_, fun b hb => ?_⟩
  · obtain ⟨e, he, heq⟩ := h.received r hr
    exact ⟨e, hg.accepted ▸ List.mem_append_left _ he, heq⟩
  · have he : e ∈ accepted a := he
    rw [hg.accepted, List.mem_append] at he
    exact he.elim (h.taken e) (htaken e)
  · have hb : b ∈ sent a := hb
    rw [hg.sent, List.mem_append] at hb
    exact hb.elim (h.made b) (hout b)

theorem Carried.quiet (h : Carried α w) {a : A} {k : κ} (hg : Grows w.datagramAdapter a [] []) :
    Carried α (w.setWorld a k) :=
  h.grows hg (fun _ h => absurd h List.not_mem_nil) fun _ h => absurd h List.not_mem_nil

theorem preserves_same {g : TCPMinnowSocket A κ → TCPMinnowSocket A κ} (h : ∀ w, Same w (g w)) :
    (modify g : Act (TCPMinnowSocket A κ) Unit).Preserves (Carried α) :=
  Act.preserves_modify fun w hw => hw.same (h w)

theorem preserves_onProcess (call : Act (Process SocketFd κ) β) :
    (onProcess call : Act (TCPMinnowSocket A κ) β).Preserves (Carried α) :=
  Act.preserves_zoom fun _ hw => Act.wp_of_forall fun _ _ => hw.same ⟨rfl, rfl, rfl⟩

theorem preserves_peer : (peer : Act (TCPMinnowSocket A κ) TCPPeer).Preserves (Carried α) := by
  refine .bind Act.preserves_get fun w => ?_
  cases w.tcp with
  | none => exact Act.preserves_throw _
  | some p => exact Act.preserves_pure p

theorem preserves_setPeer (p : TCPPeer) :
    (setPeer p : Act (TCPMinnowSocket A κ) Unit).Preserves (Carried α) :=
  preserves_same fun _ => ⟨rfl, rfl, rfl⟩

theorem preserves_closeOutbound :
    (closeOutbound : Act (TCPMinnowSocket A κ) Unit).Preserves (Carried α) :=
  preserves_same fun _ => ⟨rfl, rfl, rfl⟩

/-- A loop whose rules preserve `Carried`, and a socket that has it. -/
def Carrying (α : Type) [Address α] (s : EventLoop (TCPMinnowSocket A κ) × TCPMinnowSocket A κ) : Prop :=
  EventLoop.Preserving (Carried α) s.1 ∧ Carried α s.2

theorem preserves_onSocket {call : Act (TCPMinnowSocket A κ) β} (h : call.Preserves (Carried α)) :
    (onSocket call).Preserves (Carrying (A := A) (κ := κ) α) :=
  Act.preserves_zoom fun _ hs => Act.wp_mono (h _ hs.2) (fun _ _ hw => ⟨hs.1, hw⟩) fun _ _ h => h

section Owner
variable [Kernel κ]

theorem preserves_finishInbound :
    (finishInbound : Act (TCPMinnowSocket A κ) Unit).Preserves (Carried α) := by
  refine .bind preserves_peer fun p => .ite ?_ (Act.preserves_pure _)
  exact .bind (preserves_onProcess _) fun _ => preserves_same fun _ => ⟨rfl, rfl, rfl⟩

theorem preserves_readCallback :
    (readCallback : Act (TCPMinnowSocket A κ) Unit).Preserves (Carried α) := by
  refine .bind preserves_peer fun p => .ite ?_ preserves_finishInbound
  refine .bind (preserves_onProcess _) fun n => ?_
  cases p.receiver.inbound.pop n with
  | none => exact .bind (Act.preserves_throw _) fun _ => preserves_finishInbound
  | some inbound =>
    exact .bind (preserves_same fun _ => ⟨rfl, rfl, rfl⟩) fun _ => preserves_finishInbound

theorem poller_preserves : Poller.Preserves (Carried (A := A) (κ := κ) α) where
  poll _ _ _ hw := hw.same ⟨rfl, rfl, rfl⟩
  getsockopt _ _ hw := hw.same ⟨rfl, rfl, rfl⟩

end Owner

section Adapter
variable [TCPDatagramAdapter A κ α] [CarriesDatagrams A κ α]

theorem preserves_transmit (out : List TCPMessage) :
    (transmit out : Act (TCPMinnowSocket A κ) Unit).Preserves (Carried α) := by
  induction out with
  | nil => exact Act.preserves_pure _
  | cons x xs ih =>
    intro w hw
    unfold transmit onAdapter
    rw [Act.wp_bind, Act.wp_modify, Act.wp_bind, Act.wp_zoom]
    have hw₁ : Carried α { w with transmitted := w.transmitted ++ [x] } :=
      ⟨hw.received, hw.taken, fun b hb => by
        obtain ⟨m, hm, hmakes⟩ := hw.made b hb
        exact ⟨m, List.mem_append_left _ hm, hmakes⟩⟩
    refine Act.wp_mono (CarriesDatagrams.write x w.datagramAdapter w.process.kernel) ?_
      fun _ _ h => h
    rintro - ⟨a, k⟩ ⟨out, hg, hout⟩
    refine ih _ (hw₁.grows hg (fun _ h => absurd h List.not_mem_nil) fun b hb => ?_)
    exact ⟨x, List.mem_append_right _ (List.mem_singleton_self _), hout b hb⟩

theorem preserves_pushPeer : (pushPeer : Act (TCPMinnowSocket A κ) Unit).Preserves (Carried α) := by
  refine .bind preserves_peer fun p => ?_
  cases p.push with
  | none => exact Act.preserves_throw _
  | some x => exact .bind (preserves_setPeer _) fun _ => preserves_transmit _

/-- A message that has been taken from a datagram. -/
theorem wp_receivePeer_carried (hw : Carried α w) {seg : TCPMessage}
    (hseg : ∃ e ∈ accepted w.datagramAdapter, e.2 = seg) :
    Returns (receivePeer seg) (fun _ => Carried α) w := by
  unfold Returns receivePeer
  rw [Act.wp_bind]
  cases hp : w.tcp with
  | none =>
    unfold peer
    rw [Act.wp_bind, Act.wp_get, hp]
    trivial
  | some p =>
    refine wp_peer hp ?_
    rw [Act.wp_bind, Act.wp_modify]
    have hw₁ : Carried α { w with received := w.received ++ [⟨p, seg⟩] } := by
      refine ⟨fun r hr => ?_, hw.taken, hw.made⟩
      rcases List.mem_append.1 hr with hr | hr
      · exact hw.received r hr
      · rw [List.mem_singleton.1 hr]
        exact hseg
    cases p.receive seg with
    | ok x => exact Act.Preserves.bind (preserves_setPeer _) (fun _ => preserves_transmit _) _ hw₁
    | throws e x =>
      exact Act.Preserves.bind (preserves_setPeer _)
        (fun _ => .bind (preserves_transmit _) fun _ => Act.preserves_throw _) _ hw₁
    | undefined u => trivial

theorem preserves_receiveCallback :
    (receiveCallback : Act (TCPMinnowSocket A κ) Unit).Preserves (Carried α) := by
  intro w hw
  unfold receiveCallback onAdapter
  rw [Act.wp_bind, Act.wp_zoom]
  refine Act.wp_mono (CarriesDatagrams.read w.datagramAdapter w.process.kernel) ?_ fun _ _ h => h
  rintro r ⟨a, k⟩ ⟨taken, hg, htaken, hr⟩
  have hw₁ : Carried α (w.setWorld a k) :=
    hw.grows hg htaken fun _ h => absurd h List.not_mem_nil
  cases r with
  | none => exact hw₁
  | some seg =>
    obtain ⟨e, he, heq⟩ := hr seg rfl
    refine wp_receivePeer_carried hw₁ ⟨e, ?_, heq⟩
    show e ∈ accepted a
    rw [hg.accepted]
    exact List.mem_append_right _ he

theorem preserves_tickPeer (elapsed : Nat) :
    (tickPeer elapsed : Act (TCPMinnowSocket A κ) Unit).Preserves (Carried α) := by
  refine .bind Act.preserves_get fun w => ?_
  cases w.tcp with
  | none => exact Act.preserves_throw _
  | some p =>
    refine .ite ?_ (Act.preserves_pure _)
    refine .bind (preserves_setPeer _) fun _ => .bind (preserves_transmit _) fun _ => ?_
    exact Act.preserves_modify fun w hw => hw.quiet (CarriesDatagrams.tick elapsed _)

theorem preserves_connectPeer (config : FdAdapterConfig α) :
    (connectPeer config : Act (TCPMinnowSocket A κ) Unit).Preserves (Carried α) := by
  refine .bind ?_ fun _ => .bind preserves_pushPeer fun _ => .bind Act.preserves_get fun w => ?_
  · exact Act.preserves_modify fun w hw => hw.quiet (CarriesDatagrams.setConfig (κ := κ) config _)
  · exact .ite (Act.preserves_throw _) (Act.preserves_pure _)

variable [Kernel κ]

theorem preserves_pushCallback :
    (pushCallback : Act (TCPMinnowSocket A κ) Unit).Preserves (Carried α) := by
  refine .bind preserves_peer fun p => ?_
  refine .bind (preserves_onProcess _) fun data => ?_
  refine .bind (preserves_same fun _ => ⟨rfl, rfl, rfl⟩) fun _ => ?_
  refine .bind Act.preserves_get fun w => .ite ?_ preserves_pushPeer
  exact .bind preserves_closeOutbound fun _ => preserves_pushPeer

theorem preserves_rule (k : SocketRule) :
    (rule (A := A) (κ := κ) k).callback.Preserves (Carried α) ∧
      (rule (A := A) (κ := κ) k).cancel.Preserves (Carried α) ∧
      (rule (A := A) (κ := κ) k).error.Preserves (Carried α) := by
  cases k with
  | receive => exact ⟨preserves_receiveCallback, Act.preserves_pure _, Act.preserves_pure _⟩
  | push =>
    exact ⟨preserves_pushCallback, preserves_closeOutbound,
      preserves_same fun _ => ⟨rfl, rfl, rfl⟩⟩
  | read =>
    exact ⟨preserves_readCallback, Act.preserves_pure _, preserves_same fun _ => ⟨rfl, rfl, rfl⟩⟩

theorem carrying_socketLoop (hw : Carried α w) : Carrying α (socketLoop (κ := κ), w) := by
  refine ⟨⟨fun r hr => ?_, fun r hr => absurd hr List.not_mem_nil⟩, hw⟩
  obtain ⟨k, -, rfl⟩ := List.mem_map.1 hr
  exact preserves_rule k

variable {s s' : EventLoop (TCPMinnowSocket A κ) × TCPMinnowSocket A κ}

theorem preserves_tcpPass (abort : Bool) (elapsed : Nat) :
    (tcpPass abort elapsed).Preserves (Carrying (A := A) (κ := κ) α) := by
  refine .bind (EventLoop.preserves_wait poller_preserves _) fun ret => ?_
  refine .ite (Act.preserves_pure _) ?_
  exact .bind (preserves_onSocket (preserves_tickPeer elapsed)) fun _ => Act.preserves_pure _

theorem wp_startConnect_carrying (hw : Carried α w) (cfg : TCPConfig) (config : FdAdapterConfig α) :
    Returns (startConnect cfg config) (fun _ => Carrying α) ({}, w) := by
  unfold Returns startConnect
  rw [Act.wp_bind, Act.wp_get]
  dsimp only
  rw [Act.wp_ite]
  split
  · rw [Act.wp_bind, Act.wp_throw]
    trivial
  rw [Act.wp_bind, wp_initializeTCP]
  have hw₁ : Carried α { w with tcp := some (.ofConfig cfg) } := hw.same ⟨rfl, rfl, rfl⟩
  generalize ({ w with tcp := some (.ofConfig cfg) } : TCPMinnowSocket A κ) = w₁ at hw₁ ⊢
  exact preserves_onSocket (preserves_connectPeer config) _ (carrying_socketLoop hw₁)

theorem wp_startListen_carrying (hw : Carried α w) (cfg : TCPConfig) (config : FdAdapterConfig α) :
    Returns (startListen cfg config) (fun _ => Carrying α) ({}, w) := by
  unfold Returns startListen
  rw [Act.wp_bind, Act.wp_get]
  dsimp only
  rw [Act.wp_ite]
  split
  · rw [Act.wp_bind, Act.wp_throw]
    trivial
  rw [Act.wp_bind, wp_initializeTCP]
  unfold onSocket
  rw [Act.wp_zoom, Act.wp_modify]
  have hw₁ : Carried α { w with tcp := some (.ofConfig cfg) } := hw.same ⟨rfl, rfl, rfl⟩
  have hw₂ := hw₁.quiet (k := w.process.kernel) (CarriesDatagrams.setConfig (κ := κ) config _)
  exact carrying_socketLoop (hw₂.quiet (CarriesDatagrams.setListening (κ := κ) true _))

theorem Next.carrying {cfg : TCPConfig}
    {o : Option (EventLoop (TCPMinnowSocket A κ) × TCPMinnowSocket A κ)} (hn : Next cfg w o s)
    (hw : Carried α w) (ho : ∀ t, o = some t → Carrying α t) : Carrying α s := by
  cases hn with
  | connect config h =>
    have hs := wp_startConnect_carrying hw cfg config
    unfold Returns Act.wp at hs
    rwa [h] at hs
  | listen config h =>
    have hs := wp_startListen_carrying hw cfg config
    unfold Returns Act.wp at hs
    rwa [h] at hs
  | pass hp => exact (preserves_tcpPass _ _).of_ok (ho _ rfl) hp

end Adapter

/-! ### Runs -/

def Pair.sent (P : Pair A κ) (x : Side) : List Bytes :=
  (P x).elim [] fun s => DatagramLog.sent s.2.datagramAdapter

section Run
variable [TCPDatagramAdapter A κ α] [Kernel κ]

/-- The passes of the two sockets in any order. A datagram that one of them takes a message from has
been sent by the other; whatever else arrives is up to the network, which may also lose, repeat and
reorder the datagrams. `Ok` is as in `PairRun`. -/
inductive DatagramRun (cfg : Side → TCPConfig) (w₀ : Side → TCPMinnowSocket A κ)
    (Ok : Wrap32 → Bytes → Receipt → Prop) : Pair A κ → Prop
  | start : DatagramRun cfg w₀ Ok fun _ => none
  | step {P s} (x : Side) (h : DatagramRun cfg w₀ Ok P) (hs : Next (cfg x) (w₀ x) (P x) s)
      (hnet : ∀ e ∈ accepted s.2.datagramAdapter, e.1 ∈ P.sent x.other)
      (hok : ∀ r ∈ s.2.received.drop (P.received x).length,
        Ok (cfg x.other).isn (P.written x.other) r) : DatagramRun cfg w₀ Ok (P.set x s)

variable [CarriesDatagrams A κ α] {cfg : Side → TCPConfig} {w₀ : Side → TCPMinnowSocket A κ}
  {Ok : Wrap32 → Bytes → Receipt → Prop} {P : Pair A κ}

theorem DatagramRun.carrying (h : DatagramRun cfg w₀ Ok P) (hw : ∀ x, Carried α (w₀ x)) {x : Side}
    {s : EventLoop (TCPMinnowSocket A κ) × TCPMinnowSocket A κ} (hx : P x = some s) :
    Carrying α s := by
  induction h generalizing s with
  | start => cases hx
  | step y _ hs _ _ ih =>
    unfold Pair.set at hx
    split at hx
    next heq =>
      cases hx
      subst heq
      exact hs.carrying (hw x) fun t ht => ih ht
    next => exact ih hx

/-- What was exchanged were messages. -/
theorem DatagramRun.pairRun (h : DatagramRun cfg w₀ Ok P) (hw : ∀ x, Carried α (w₀ x)) :
    PairRun cfg w₀ Ok P := by
  induction h with
  | start => exact .start
  | @step P s x h hs hnet hok ih =>
    refine ih.step x hs fun r hr => ⟨?_, hok r hr⟩
    have hcarry := (hs.carrying (hw x) fun t ht => h.carrying hw ht).2
    obtain ⟨e, he, hmsg⟩ := hcarry.received r (List.mem_of_mem_drop hr)
    have hsent := hnet e he
    unfold Pair.sent at hsent
    cases ho : P x.other with
    | none => rw [ho] at hsent; cases hsent
    | some t =>
      rw [ho] at hsent
      obtain ⟨m, hm, hmakes⟩ := (h.carrying hw ho).2.made e.1 hsent
      refine ⟨m, ?_, hmsg ▸ (hcarry.taken e he).orRST hmakes⟩
      unfold Pair.transmitted
      rw [ho]
      exact hm

end Run

/-! ### A run -/

abbrev TunSocket := TCPMinnowSocket (TCPOverIPv4OverTunFdAdapter (UInt32 × UInt16)) Scripted

/-- The connection, as each side knows it. -/
def tunConfig : Side → FdAdapterConfig (UInt32 × UInt16)
  | .a => ⟨(0x0a000001, 5000), (0x0a000002, 80)⟩
  | .b => ⟨(0x0a000002, 80), (0x0a000001, 5000)⟩

/-- What a side makes of a message. -/
def datagram (x : Side) (msg : TCPMessage) : Bytes :=
  ((wrapBuffers ⟨tunConfig x, false⟩ msg).getD []).flatten

/-- The messages of `talk` in datagrams. Before them `b` is handed a datagram from the wrong side and two
bytes that are none. -/
def tunTalk (x : Side) : TunSocket where
  process := { (talk x).process with
    kernel := {
      input := (talk x).process.kernel.input
      ready := match x with
        | .a => [0, 1, 1]
        | .b => [0, 0, 0, 0, 2, 0, 2]
      datagrams := (match x with
        | .a => []
        | .b => [datagram .b { sender := { seqno := ⟨7⟩, SYN := true } }, [0x45, 0]]) ++
          (talk x).datagramAdapter.messages.map (datagram x.other) } }
  datagramAdapter := { tcpOverIP := ⟨anywhere, false⟩, tun := { fd := 3 } }

theorem tunTalk_fresh (x : Side) : Fresh (tunTalk x) := by cases x <;> exact ⟨rfl, rfl, rfl, rfl⟩

theorem tunTalk_run : ∃ P, DatagramRun talkConfig tunTalk Harmless P ∧
    (∀ x, (P.written x).length < 2 ^ 63) ∧ P.given .b = [1, 2] ∧
    ∃ s, P .b = some s ∧ (∃ e ∈ s.2.process.log, tellsEnd e = true) ∧
      ∀ p ∈ s.2.tcp, p.anyErrors = false := by
  have hruns : (Pair.runs talkConfig tunTalk
      (fun P x s => (∀ e ∈ accepted s.2.datagramAdapter, e.1 ∈ P.sent x.other) ∧
        ∀ r ∈ s.2.received.drop (P.received x).length,
          Harmless (talkConfig x.other).isn (P.written x.other) r) (fun _ => none)
      [.connect .a (tunConfig .a), .listen .b ⟨(0, 80), (0, 0)⟩, .pass .b, .pass .b, .pass .b, .pass .a,
        .pass .a, .pass .b, .pass .b, .pass .a, .pass .b, .pass .b]).any (fun P =>
      decide ((P.written .a).length < 2 ^ 63 ∧ (P.written .b).length < 2 ^ 63 ∧ P.given .b = [1, 2] ∧
        (P .b).any (fun s => decide (∃ e ∈ s.2.process.log, tellsEnd e = true) &&
          s.2.tcp.all (!·.anyErrors)) = true)) = true := by
    decide +kernel
  obtain ⟨P, hrun, ha, hb, hgiven, hend⟩ := Pair.exists_of_runs
    (R := DatagramRun talkConfig tunTalk Harmless)
    .start (fun _ x _ h hs hnet => h.step x hs hnet.1 hnet.2) _ hruns
  obtain ⟨s, hs, hend⟩ := (Option.any_eq_true _ _).1 hend
  rw [Bool.and_eq_true, decide_eq_true_eq] at hend
  refine ⟨P, hrun, fun x => by cases x <;> assumption, hgiven, s, hs, hend.1, fun p hp => ?_⟩
  have := hend.2
  rw [Option.mem_def.1 hp, Option.all_some, Bool.not_eq_true'] at this
  exact this

/-! ### What two sockets over IPv4 do -/

theorem Fresh.carried (hf : Fresh w)
    (hnew : accepted w.datagramAdapter = [] ∧ sent w.datagramAdapter = []) : Carried α w := by
  refine ⟨?_, ?_, ?_⟩
  · rw [hf.received]
    exact fun _ h => absurd h List.not_mem_nil
  · rw [hnew.1]
    exact fun _ h => absurd h List.not_mem_nil
  · rw [hnew.2]
    exact fun _ h => absurd h List.not_mem_nil

variable [TCPDatagramAdapter A κ α] [Kernel κ] [CarriesDatagrams A κ α] {cfg : Side → TCPConfig}
  {w₀ : Side → TCPMinnowSocket A κ} {P : Pair A κ} {x : Side}
  {s : EventLoop (TCPMinnowSocket A κ) × TCPMinnowSocket A κ}

/-- From the bytes that one owner writes to those that the other one is given, with datagrams in between
that the network may lose, repeat, reorder and mix with others: the sockets run as two do that exchange
messages, and deliver as they do. -/
theorem datagrams_deliver (hf : ∀ x, Fresh (w₀ x))
    (hnew : ∀ x, accepted (w₀ x).datagramAdapter = [] ∧ sent (w₀ x).datagramAdapter = [])
    (hsend : ∀ x, (cfg x).sendCapacity < 2 ^ 64) (hrecv : ∀ x, (cfg x).recvCapacity < 2 ^ 64)
    (hrun : DatagramRun cfg w₀ Harmless P) (hD : ∀ x, (P.written x).length < 2 ^ 63)
    (hx : P x = some s) : PairRun cfg w₀ Harmless P ∧
    P.given x <+: P.written x.other ∧
      ((∃ e ∈ s.2.process.log, tellsEnd e = true) → (∀ p ∈ s.2.tcp, p.anyErrors = false) →
        P.given x = P.written x.other ∧
          ∃ t, P x.other = some t ∧ t.2.outboundShutdown = true) := by
  have hpair : PairRun cfg w₀ Harmless P := hrun.pairRun fun x => (hf x).carried (hnew x)
  exact ⟨hpair, PairRun.delivers hf hsend hrecv hpair hD hx⟩

theorem datagrams_deliver_talk : ∃ P, DatagramRun talkConfig tunTalk Harmless P ∧
    P.given .b = [1, 2] ∧ P.written .a = [1, 2] := by
  obtain ⟨P, hrun, hD, hgiven, s, hs, htold, hclean⟩ := tunTalk_run
  have h := (datagrams_deliver tunTalk_fresh (fun x => by cases x <;> exact ⟨rfl, rfl⟩)
    (fun x => (talk_config x).1) (fun x => (talk_config x).2) hrun hD hs).2.2 htold hclean
  exact ⟨P, hrun, hgiven, h.1.symm.trans hgiven⟩

/-! ### Faults of a socket over IPv4 -/

section Faults
variable {κ α : Type} [Address α] [Kernel κ] {c : TCPConfig} {abort : Bool} {elapsed : Nat} {e : Fault}

/-- With the adapter for a TUN device it only takes a kernel that lets every call through, and gives no
more than it is asked for, that only the peer makes a pass fail. -/
theorem tun_pass_fault {w : TCPMinnowSocket (TCPOverIPv4OverTunFdAdapter α) κ}
    {s s' : EventLoop (TCPMinnowSocket (TCPOverIPv4OverTunFdAdapter α) κ) ×
      TCPMinnowSocket (TCPOverIPv4OverTunFdAdapter α) κ} (hf : Fresh w)
    (hsend : c.sendCapacity < 2 ^ 64) (hrecv : c.recvCapacity < 2 ^ 64) (hk : Kernel.Obliging κ)
    (hv : ∀ (fd : Nat) (sizes : List Nat) (k : κ), ∃ data k', Kernel.readv fd sizes k = (.ok data, k') ∧
      data.length ≤ sizes.sum) (h : Run c w s) (hp : tcpPass abort elapsed s = .error e s') :
    PeerFails c s'.2 e :=
  h.peerFails hf hsend hrecv hk (TCPOverIPv4OverTunFdAdapter.obliging hk hv) hp

/-- So it is if some of what goes through that adapter is dropped. -/
theorem lossy_pass_fault {ρ : Type} [RandomEngine ρ] [LossRates (TCPOverIPv4OverTunFdAdapter α)]
    {w : TCPMinnowSocket (LossyFdAdapter (TCPOverIPv4OverTunFdAdapter α) ρ) κ}
    {s s' : EventLoop (TCPMinnowSocket (LossyFdAdapter (TCPOverIPv4OverTunFdAdapter α) ρ) κ) ×
      TCPMinnowSocket (LossyFdAdapter (TCPOverIPv4OverTunFdAdapter α) ρ) κ} (hf : Fresh w)
    (hsend : c.sendCapacity < 2 ^ 64) (hrecv : c.recvCapacity < 2 ^ 64) (hk : Kernel.Obliging κ)
    (hv : ∀ (fd : Nat) (sizes : List Nat) (k : κ), ∃ data k', Kernel.readv fd sizes k = (.ok data, k') ∧
      data.length ≤ sizes.sum) (h : Run c w s) (hp : tcpPass abort elapsed s = .error e s') :
    PeerFails c s'.2 e :=
  h.peerFails hf hsend hrecv hk
    (LossyFdAdapter.obliging (TCPOverIPv4OverTunFdAdapter.obliging hk hv)) hp

end Faults

end TCPMinnowSocket

end Minnow
