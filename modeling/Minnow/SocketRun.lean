import Minnow.SocketHost

/-!
# The socket's loop

Whenever the loop waits the socket has driven its peer as a host would (`Setting`). A pass of the loop
keeps that (`Setting.wp_pass`), so it holds in every run (`Run.setting`).
-/

namespace Minnow
open Prog ByteStream TCPSender

namespace TCPMinnowSocket
open SysCall

variable {A κ α : Type} {g h : Host} {p : TCPPeer} {c : TCPConfig} {w w' : TCPMinnowSocket A κ}
  {msgs : List Receipt}

/-! ### The rules by themselves -/

inductive SocketRule
  | receive
  | push
  | read
deriving Repr, DecidableEq

def SocketRule.id : SocketRule → Nat
  | .receive => 0
  | .push => 1
  | .read => 2

def socketRules : List SocketRule := [.receive, .push, .read]

section Rules
variable [TCPDatagramAdapter A κ α] [Kernel κ]

def rule : SocketRule → FDRule (TCPMinnowSocket A κ)
  | .receive => {
      id := 0, categoryId := 0, interest := receiveInterest, callback := receiveCallback
      fd := (TCPDatagramAdapter.fd κ ·.datagramAdapter), direction := .In
      cancel := (return), error := (return) }
  | .push => {
      id := 1, categoryId := 1, interest := pushInterest, callback := pushCallback
      fd := (·.process.fds .threadData), direction := .In
      cancel := closeOutbound, error := modify (setOutbound ByteStream.setError) }
  | .read => {
      id := 2, categoryId := 2, interest := readInterest, callback := readCallback
      fd := (·.process.fds .threadData), direction := .Out
      cancel := (return), error := modify (setInbound ByteStream.setError) }

/-- The loop after `_initialize_TCP`. -/
def socketLoop : EventLoop (TCPMinnowSocket A κ) where
  ruleCategories := ["receive TCP segment from the network", "push bytes to TCPPeer",
    "read bytes from inbound stream"]
  fdRules := socketRules.map rule
  allocated := 3

theorem wp_initializeTCP {cfg : TCPConfig}
    {Q : Unit → EventLoop (TCPMinnowSocket A κ) × TCPMinnowSocket A κ → Prop}
    {E : Fault → EventLoop (TCPMinnowSocket A κ) × TCPMinnowSocket A κ → Prop} :
    (initializeTCP cfg).wp Q E ({}, w) ↔ Q () (socketLoop, { w with tcp := some (.ofConfig cfg) }) :=
  Iff.rfl

end Rules

/-- What a rule that was asked about may rely on until it is served. -/
def Wanted (k : SocketRule) (w : TCPMinnowSocket A κ) : Prop :=
  match k with
  | .receive => ∀ p ∈ w.tcp, p.anyErrors = false
  | .push => w.outboundShutdown = false ∧ ∀ p ∈ w.tcp, p.anyErrors = false ∧
      0 < p.sender.input.availableCapacity
  | .read => True

/-- Why a rule was not interested. -/
def Idle (k : SocketRule) (w : TCPMinnowSocket A κ) : Prop :=
  match k with
  | .receive => ∀ p ∈ w.tcp, p.active = false
  | .push => True
  | .read => ∀ p ∈ w.tcp, p.receiver.inbound.bytesBuffered = 0 ∧
      (p.receiver.inbound.Over → w.inboundShutdown = true)

/-- The calls that led from `g` here, and the messages that they received. -/
structure Driving (c : TCPConfig) (g : Host) (msgs : List Receipt) (w : TCPMinnowSocket A κ) :
    Prop where
  start : HostInv c g
  works : ∃ cs h p, g.Makes cs h ∧ Works h p w ∧ w.received = msgs ++ g.receipts cs

theorem Driving.of_serves {cs : List Call} (hi : HostInv c g) (hm : g.Makes cs h)
    (hr : w.received = msgs ++ g.receipts cs) (hs : Serves h w w') : Driving c g msgs w' := by
  obtain ⟨cs', h', p', hm', hw', hr'⟩ := hs
  exact ⟨hi, cs ++ cs', h', p', hm.append hm', hw', by rw [hr', hr, hm.receipts, List.append_assoc]⟩

theorem Driving.serves (hd : Driving c g msgs w) (hs : ∀ h p, Works h p w → Serves h w w') :
    Driving c g msgs w' := by
  obtain ⟨hi, cs, h, p, hm, hw, hr⟩ := hd
  exact .of_serves hi hm hr (hs h p hw)

/-- A call that serves the host, and of which `R` is known. -/
theorem Driving.calls [TCPDatagramAdapter A κ α] [Kernel κ] (hcap : c.sendCapacity < 2 ^ 64)
    (hd : Driving c g msgs w) {a : Act (TCPMinnowSocket A κ) Unit}
    {R : TCPMinnowSocket A κ → Prop} (ha : ∀ h p, HostInv c h → Works h p w →
      a.wp (fun _ w' => Serves h w w' ∧ R w') (Blames h w.received) w) :
    a.wp (fun _ w' => Driving c g msgs w' ∧ R w') (Blames g msgs) w := by
  obtain ⟨hi, cs, h, p, hm, hw, hr⟩ := hd
  exact Act.wp_mono (ha h p (hi.makes hcap hm) hw) (fun _ w' hs => ⟨.of_serves hi hm hr hs.1, hs.2⟩)
    fun _ _ hb => hb.after hm hr

/-! ### Closing and errors -/

/-- Closing the outbound stream makes no peer active. -/
theorem active_close (h : p.active = false) :
    TCPPeer.active { p with sender := { p.sender with input := p.sender.input.close } } = false := by
  unfold TCPPeer.active at h ⊢
  dsimp only at h ⊢
  rw [Bool.and_eq_false_iff] at h ⊢
  refine h.imp id fun h => ?_
  simp only [Bool.or_eq_false_iff] at h ⊢
  obtain ⟨⟨⟨h₁, h₂⟩, h₃⟩, h₄⟩ := h
  refine ⟨⟨⟨h₁, ?_⟩, h₃⟩, h₄⟩
  rw [Bool.not_eq_false', isFinished, Bool.and_eq_true] at h₂
  rw [Bool.not_eq_false', isFinished, Bool.and_eq_true]
  exact ⟨rfl, h₂.2⟩

theorem Works.closeOutbound (hw : Works g p w) :
    Serves g w { w.setOutbound ByteStream.close with outboundShutdown := true } :=
  ⟨[.close], g.close, _, Host.makes_single trivial rfl, hw.close, (List.append_nil _).symm⟩

theorem Works.failOutbound (hw : Works g p w) : Serves g w (w.setOutbound ByteStream.setError) :=
  ⟨[], g, _, rfl, ⟨congrArg (Option.map _) hw.tcp, .inr (Bool.or_true _), hw.written, hw.read,
    hw.transmitted, hw.host, hw.inbound, hw.upTo, hw.outbound, hw.told, hw.ended⟩,
    (List.append_nil _).symm⟩

theorem Works.failInbound (hw : Works g p w) : Serves g w (w.setInbound ByteStream.setError) :=
  ⟨[], g, _, rfl, ⟨congrArg (Option.map _) hw.tcp, .inr (Bool.true_or _), hw.written, hw.read,
    hw.transmitted, hw.host, hw.inbound.setError, hw.upTo, hw.outbound, hw.told,
    fun _ => .inr rfl⟩, (List.append_nil _).symm⟩

theorem Driving.setWorld (hd : Driving c g msgs w) (a : A) (k : κ) :
    Driving c g msgs (w.setWorld a k) := by
  obtain ⟨hi, cs, h, p, hm, hw, hr⟩ := hd
  exact ⟨hi, cs, h, p, hm, hw.setWorld a k, hr⟩

theorem socketRules_pairwise : socketRules.Pairwise (·.id < ·.id) := by
  unfold socketRules SocketRule.id
  simp

/-- A socket that has been made and not used. -/
structure Fresh (w : TCPMinnowSocket A κ) : Prop where
  log : w.process.log = []
  inboundShutdown : w.inboundShutdown = false
  received : w.received = []
  transmitted : w.transmitted = []

theorem hostInv_start (hsend : c.sendCapacity < 2 ^ 64) : HostInv c { peer := .ofConfig c } :=
  HostRun.inv hsend (HostRun.start : HostRun c TCPPeer.MayCall _ _)

theorem works_start (hf : Fresh w) (hrecv : c.recvCapacity < 2 ^ 64) (a : A) :
    Works { peer := .ofConfig c } (.ofConfig c)
      { w with datagramAdapter := a, tcp := some (.ofConfig c) } := by
  refine ⟨rfl, .inl rfl, ?_, ?_, hf.transmitted, wf_new hrecv, wf_new hrecv, rfl, ?_, ?_, ?_⟩
  · exact congrArg _ hf.log
  · exact congrArg _ hf.log
  · intro hc; cases hc
  · intro hs
    have hs : w.inboundShutdown = true := hs
    rw [hf.inboundShutdown] at hs
    cases hs
  · rintro ⟨e, he, -⟩
    have he : e ∈ w.process.log := he
    rw [hf.log] at he
    cases he

/-! ### One wait of the loop -/

variable [TCPDatagramAdapter A κ α]

variable [Kernel κ]

theorem wp_connectPeer (hi : HostInv c g) (hsend : c.sendCapacity < 2 ^ 64) (hw : Works g g.peer w)
    (he : g.peer.anyErrors = false) (config : FdAdapterConfig α) :
    Returns (connectPeer config) (fun _ w' => Serves g w w') w := by
  unfold Returns connectPeer
  rw [Act.wp_bind, Act.wp_modify, Act.wp_bind]
  have hw₁ := hw.setWorld (TCPDatagramAdapter.setConfig κ config w.datagramAdapter) w.process.kernel
  refine Act.wp_mono (wp_pushPeer hi hsend hw₁ he) (fun _ w' hs => ?_) fun _ _ _ => trivial
  rw [Act.wp_bind, Act.wp_get, Act.wp_ite]
  split
  · trivial
  · exact hs.1

theorem rule_inj (k k' : SocketRule) (h : rule (A := A) (κ := κ) k = rule k') : k = k' := by
  have hid : (rule (A := A) (κ := κ) k).id = (rule k').id := congrArg (·.id) h
  cases k <;> cases k' <;> first | rfl | cases hid

/-- The loop is waiting, or finds out what to wait for. -/
structure Setting (c : TCPConfig) (g : Host) (msgs : List Receipt)
    (done : List (FDRule (TCPMinnowSocket A κ) × Bool)) (l : EventLoop (TCPMinnowSocket A κ))
    (w : TCPMinnowSocket A κ) : Prop where
  nonFd : l.nonFdRules = []
  left : ∃ ks : List SocketRule, l.fdRules = ks.map rule ∧ ks.Sublist socketRules
  drives : Driving c g msgs w
  wanted : ∀ k, (rule k, true) ∈ done → Wanted k w
  idle : ∀ k, (rule k, false) ∈ done → Idle k w

/-- The results of `poll` for `todo` have not been looked at. -/
structure Serving (c : TCPConfig) (g : Host) (msgs : List Receipt)
    (todo : List (FDRule (TCPMinnowSocket A κ) × Bool)) (l : EventLoop (TCPMinnowSocket A κ))
    (w : TCPMinnowSocket A κ) : Prop where
  nonFd : l.nonFdRules = []
  left : ∃ ks : List SocketRule, l.fdRules = ks.map rule ∧ ks.Sublist socketRules
  drives : Driving c g msgs w
  wanted : ∀ k, (rule k, true) ∈ todo → Wanted k w

theorem Serving.setting {todo : List (FDRule (TCPMinnowSocket A κ) × Bool)}
    {l : EventLoop (TCPMinnowSocket A κ)} (h : Serving c g msgs todo l w) :
    Setting c g msgs [] l w :=
  ⟨h.nonFd, h.left, h.drives, fun _ hk => absurd hk List.not_mem_nil,
    fun _ hk => absurd hk List.not_mem_nil⟩

theorem wanted_of_interest {k : SocketRule} (hi : (rule (A := A) (κ := κ) k).interest w = true) :
    Wanted k w := by
  cases k with
  | receive =>
    have hi : w.tcp.any TCPPeer.active = true := hi
    intro p hp
    rw [Option.mem_def.1 hp, Option.any_some] at hi
    exact TCPPeer.anyErrors_of_active hi
  | push =>
    have hi : w.tcp.any (fun p => p.active && !w.outboundShutdown &&
      decide (p.sender.input.availableCapacity > 0)) = true := hi
    obtain ⟨p, hp, hi⟩ := (Option.any_eq_true _ _).1 hi
    rw [Bool.and_eq_true, Bool.and_eq_true, Bool.not_eq_true', decide_eq_true_eq] at hi
    refine ⟨hi.1.2, fun p' hp' => ?_⟩
    obtain rfl := Option.some.inj (hp.symm.trans hp')
    exact ⟨TCPPeer.anyErrors_of_active hi.1.1, hi.2⟩
  | read => trivial

theorem idle_of_interest {k : SocketRule} (hi : (rule (A := A) (κ := κ) k).interest w = false) :
    Idle k w := by
  cases k with
  | receive =>
    have hi : w.tcp.any TCPPeer.active = false := hi
    intro p hp
    rwa [Option.mem_def.1 hp, Option.any_some] at hi
  | push => trivial
  | read =>
    have hi : w.tcp.any (fun p => decide (p.receiver.inbound.bytesBuffered ≠ 0) ||
      ((p.receiver.inbound.isFinished || p.receiver.inbound.hasError) && !w.inboundShutdown)) =
        false := hi
    intro p hp
    rw [Option.mem_def.1 hp, Option.any_some, Bool.or_eq_false_iff, decide_eq_false_iff_not,
      not_not] at hi
    refine ⟨hi.1, fun hover => ?_⟩
    have hover : (p.receiver.inbound.isFinished || p.receiver.inbound.hasError) = true := by
      rw [Bool.or_eq_true]
      exact hover
    rw [hover, Bool.true_and, Bool.not_eq_false'] at hi
    exact hi.2

theorem Setting.ask {l : EventLoop (TCPMinnowSocket A κ)}
    {done : List (FDRule (TCPMinnowSocket A κ) × Bool)} {r : FDRule (TCPMinnowSocket A κ)}
    (h : Setting c g msgs done l w) : Setting c g msgs (done ++ [(r, r.interest w)]) l w := by
  refine ⟨h.nonFd, h.left, h.drives, fun k hk => ?_, fun k hk => ?_⟩
  all_goals
    rw [List.mem_append, List.mem_singleton] at hk
    rcases hk with hk | hk
  · exact h.wanted k hk
  · obtain ⟨rfl, hi⟩ := Prod.mk.inj hk
    exact wanted_of_interest hi.symm
  · exact h.idle k hk
  · obtain ⟨rfl, hi⟩ := Prod.mk.inj hk
    exact idle_of_interest hi.symm

/-- The rules that come after or before that in the middle. -/
theorem id_lt {pre post : List SocketRule} {k k' : SocketRule}
    (h : (pre ++ k :: post).Sublist socketRules) :
    (k' ∈ pre → k'.id < k.id) ∧ (k' ∈ post → k.id < k'.id) := by
  obtain ⟨-, hpost, hpre⟩ := List.pairwise_append.1 (socketRules_pairwise.sublist h)
  exact ⟨fun hk => hpre k' hk k (List.mem_cons_self ..), (List.pairwise_cons.1 hpost).1 k'⟩

theorem sublist_erase {pre post : List SocketRule} {k : SocketRule}
    (h : (pre ++ k :: post).Sublist socketRules) : (pre ++ post).Sublist socketRules :=
  (List.Sublist.append_left (List.sublist_cons_self ..) _).trans h

/-- The cancellation of a rule, of which the peer's activity and errors are as before. -/
theorem wp_cancel {E : Fault → TCPMinnowSocket A κ → Prop} (hd : Driving c g msgs w) (k : SocketRule) :
    (rule k).cancel.wp (fun _ w' => Driving c g msgs w' ∧
      (∀ k', k'.id < k.id → (Wanted k' w → Wanted k' w') ∧ (Idle k' w → Idle k' w')) ∧
      (∀ k', k.id < k'.id → Wanted k' w → Wanted k' w')) E w := by
  cases k with
  | receive => exact ⟨hd, fun _ _ => ⟨id, id⟩, fun _ _ => id⟩
  | read => exact ⟨hd, fun _ _ => ⟨id, id⟩, fun _ _ => id⟩
  | push =>
    refine ⟨hd.serves fun _ _ hw => hw.closeOutbound, fun k' hk' => ?_, fun k' hk' hw => ?_⟩
    · cases k' with
      | receive =>
        refine ⟨fun hw p hp => ?_, fun hi p hp => ?_⟩
        all_goals obtain ⟨q, hq, rfl⟩ := Option.map_eq_some_iff.1 hp
        · exact hw q hq
        · exact active_close (hi q hq)
      | push => exact absurd hk' (Nat.lt_irrefl _)
      | read => exact absurd hk' (by decide)
    · cases k' with
      | receive => exact absurd hk' (by decide)
      | push => exact absurd hk' (Nat.lt_irrefl _)
      | read => trivial

theorem Setting.atEnd {E : Fault → TCPMinnowSocket A κ → Prop} {l : EventLoop (TCPMinnowSocket A κ)}
    {done : List (FDRule (TCPMinnowSocket A κ) × Bool)} {r : FDRule (TCPMinnowSocket A κ)}
    {post : List (FDRule (TCPMinnowSocket A κ))}
    (h : Setting c g msgs done (l.withFd (done.map Prod.fst ++ r :: post)) w) :
    r.cancel.wp (fun _ w' => Setting c g msgs done (l.withFd (done.map Prod.fst ++ post)) w') E w := by
  obtain ⟨ks, hks, hsub⟩ := h.left
  obtain ⟨ks₁, k, ks₂, rfl, hdone, rfl, rfl⟩ := EventLoop.split_rules hks
  refine Act.wp_mono (wp_cancel h.drives k) (fun _ w' hw => ?_) fun _ _ h => h
  obtain ⟨hd, hpre, -⟩ := hw
  have hlt : ∀ k' b, (rule k', b) ∈ done → k'.id < k.id := fun k' b hk' =>
    (id_lt hsub).1 (EventLoop.mem_rules rule_inj hdone hk')
  refine ⟨h.nonFd, ⟨ks₁ ++ ks₂, ?_, sublist_erase hsub⟩, hd,
    fun k' hk' => (hpre k' (hlt _ _ hk')).1 (h.wanted k' hk'),
    fun k' hk' => (hpre k' (hlt _ _ hk')).2 (h.idle k' hk')⟩
  show done.map Prod.fst ++ ks₂.map rule = _
  rw [hdone, List.map_append]

theorem wp_error {E : Fault → TCPMinnowSocket A κ → Prop} (hd : Driving c g msgs w) (k : SocketRule) :
    (rule k).error.wp (fun _ w' => Driving c g msgs w' ∧
      ∀ k', k.id < k'.id → Wanted k' w → Wanted k' w') E w := by
  cases k with
  | receive => exact ⟨hd, fun _ _ => id⟩
  | push =>
    refine ⟨hd.serves fun _ _ hw => hw.failOutbound, fun k' hk' _ => ?_⟩
    cases k' with
    | receive => exact absurd hk' (by decide)
    | push => exact absurd hk' (Nat.lt_irrefl _)
    | read => trivial
  | read =>
    refine ⟨hd.serves fun _ _ hw => hw.failInbound, fun k' hk' _ => ?_⟩
    cases k' <;> exact absurd hk' (by decide)

/-- A rule goes because of what `poll` found, after which those that come later are as wanted as they
were. -/
theorem Serving.drop {l : EventLoop (TCPMinnowSocket A κ)}
    {pre : List (FDRule (TCPMinnowSocket A κ))} {e : FDRule (TCPMinnowSocket A κ) × Bool}
    {todo : List (FDRule (TCPMinnowSocket A κ) × Bool)} {a : Act (TCPMinnowSocket A κ) Unit}
    {E : Fault → TCPMinnowSocket A κ → Prop}
    (h : Serving c g msgs (e :: todo) (l.withFd (pre ++ e.1 :: todo.map Prod.fst)) w)
    (ha : ∀ k, e.1 = rule k → a.wp (fun _ w' => Driving c g msgs w' ∧
      ∀ k', k.id < k'.id → Wanted k' w → Wanted k' w') E w) :
    a.wp (fun _ w' => Serving c g msgs todo (l.withFd (pre ++ todo.map Prod.fst)) w') E w := by
  obtain ⟨ks, hks, hsub⟩ := h.left
  obtain ⟨ks₁, k, ks₂, rfl, rfl, he, htodo⟩ := EventLoop.split_rules hks
  refine Act.wp_mono (ha k he) (fun _ w' hw => ?_) fun _ _ h => h
  obtain ⟨hd, hlater⟩ := hw
  refine ⟨h.nonFd, ⟨ks₁ ++ ks₂, ?_, sublist_erase hsub⟩, hd, fun k' hk' => ?_⟩
  · show ks₁.map rule ++ todo.map Prod.fst = _
    rw [htodo, List.map_append]
  · exact hlater k' ((id_lt hsub).2 (EventLoop.mem_rules rule_inj htodo hk'))
      (h.wanted k' (List.mem_cons_of_mem _ hk'))

/-- If the kernel and the adapter let every call through, a rule that has been served has read or
written, or has lost interest. -/
theorem wp_callback (hcap : c.sendCapacity < 2 ^ 64) (hd : Driving c g msgs w) {k : SocketRule}
    (hk : Wanted k w) : (rule k).callback.wp (fun _ w' => Driving c g msgs w' ∧
      (Kernel.Obliging κ → TCPDatagramAdapter.Obliging A κ →
        (rule k).serviceCount w ≠ (rule k).serviceCount w' ∨ (rule k).interest w' = false))
      (Blames g msgs) w := by
  refine hd.calls hcap fun h p hi hw => ?_
  have hsame : p.anyErrors = false → p = h.peer := fun he => hw.same.resolve_right (by simp [he])
  cases k with
  | receive =>
    obtain rfl := hsame (hk p hw.tcp)
    show receiveCallback.wp _ _ _
    unfold receiveCallback
    rw [Act.wp_bind]
    refine wp_adapterRead (fun seg a k hcount => ?_) fun ho _ _ _ ha => absurd ha ho
    cases seg with
    | none => exact ⟨.refl (hw.setWorld a k), fun _ ha => .inl (FDWrapper.count_ne (hcount ha))⟩
    | some seg =>
      refine Act.wp_mono (wp_receivePeer hi hcap (hw.setWorld a k) seg) (fun _ w' hs => ?_)
        fun _ _ hb => hb
      exact ⟨hs.1, fun _ ha => .inl (FDWrapper.count_ne ((hs.2 ha).trans (hcount ha)))⟩
  | push =>
    obtain ⟨hopen, hp⟩ := hk
    obtain ⟨he, hroom⟩ := hp p hw.tcp
    obtain rfl := hsame he
    refine Act.wp_mono (wp_pushCallback hi hcap hw hopen he hroom) (fun _ w' hs => ?_)
      fun _ _ hb => hb
    exact ⟨hs.1, fun ho _ => .inl (FDWrapper.count_ne (hs.2 ho))⟩
  | read =>
    exact Act.wp_mono (wp_readCallback hw) (fun _ w' hs => ⟨hs.1, fun _ _ => hs.2⟩)
      fun _ _ hb => hb

theorem Serving.fire (hcap : c.sendCapacity < 2 ^ 64) {l : EventLoop (TCPMinnowSocket A κ)}
    {k : SocketRule} {todo : List (FDRule (TCPMinnowSocket A κ) × Bool)}
    (h : Serving c g msgs ((rule k, true) :: todo) l w) :
    (rule k).fire.wp (fun _ w' => Setting c g msgs [] l w') (Blames g msgs) w := by
  rw [FDRule.wp_fire]
  refine Act.wp_mono (wp_callback hcap h.drives (h.wanted k (List.mem_cons_self ..)))
    (fun _ w' hd => ?_) fun _ _ hb => hb
  split
  next hbusy =>
    intro ho ha
    rcases hd.2 ho ha with hcount | hidle
    · exact absurd hbusy.1 hcount
    · rw [hidle] at hbusy
      cases hbusy.2.2
  · exact ⟨h.nonFd, h.left, hd.1, fun _ hk => absurd hk List.not_mem_nil,
      fun _ hk => absurd hk List.not_mem_nil⟩

theorem keeps (hcap : c.sendCapacity < 2 ^ 64) : EventLoop.Keeps (σ := TCPMinnowSocket A κ)
    (Setting c g msgs) (fun _ => Serving c g msgs) (Setting c g msgs [])
    (fun e _ w => Blames g msgs e w) where
  serve hr _ hi := by
    rw [hi.nonFd] at hr
    cases hr
  dropNonFd {l pre post r w} hi _ := by
    have hnon : pre ++ r :: post = [] := hi.nonFd
    simp at hnon
  dropFd _ hreq := by cases hreq
  atEnd hi _ _ := hi.atEnd
  ask hi _ _ := hi.ask
  poll hi hp := by
    obtain ⟨-, rfl⟩ := Prod.mk.inj hp
    exact ⟨hi.nonFd, hi.left, hi.drives.setWorld _ _, fun k hk => by
      have := hi.wanted k hk
      cases k <;> exact this⟩
  pollTimedOut hi hp := by
    obtain ⟨-, rfl⟩ := Prod.mk.inj hp
    refine ⟨hi.nonFd, hi.left, hi.drives.setWorld _ _, fun k hk => ?_, fun k hk => ?_⟩
    · have := hi.wanted k hk
      cases k <;> exact this
    · have := hi.idle k hk
      cases k <;> exact this
  pollFailed _ hp hk := absurd (congrArg Prod.fst hp) (hk.poll _ _ _)
  fail {l found pre e todo w} hi _ := by
    rw [FDRule.wp_fail]
    dsimp only
    split
    next hfail =>
      intro hk
      obtain ⟨h₁, h₂⟩ := hk.getsockopt (e.1.fd w).fd w.process.kernel
      exact absurd hfail (not_or_intro h₁ h₂)
    next =>
      have hi' : Serving c g msgs (e :: todo) (l.withFd (pre ++ e.1 :: todo.map Prod.fst))
          (Poller.getsockopt (e.1.fd w).fd w).2 :=
        ⟨hi.nonFd, hi.left, hi.drives.setWorld _ _, fun k hk => by
          have := hi.wanted k hk
          cases k <;> exact this⟩
      generalize (Poller.getsockopt (e.1.fd w).fd w).2 = w at hi' ⊢
      rw [← Act.wp_bind]
      refine hi'.drop fun k he => ?_
      rw [he, Act.wp_bind]
      refine Act.wp_mono (wp_error hi'.drives k) (fun _ w₁ h₁ => ?_) fun _ _ h => h
      refine Act.wp_mono (wp_cancel h₁.1 k) (fun _ w₂ h₂ => ?_) fun _ _ h => h
      exact ⟨h₂.1, fun k' hk' hw => h₂.2.2 k' hk' (h₁.2 k' hk' hw)⟩
  hup {l found pre e todo w} hi _ := hi.drop fun k he => by
    rw [he]
    refine Act.wp_mono (wp_cancel hi.drives k) (fun _ w' h => ?_) fun _ _ h => h
    exact ⟨h.1, h.2.2⟩
  pass hi := ⟨hi.nonFd, hi.left, hi.drives, fun k hk => hi.wanted k (List.mem_cons_of_mem _ hk)⟩
  fire {l found pre r todo w} hi := by
    obtain ⟨ks, hks, -⟩ := hi.left
    obtain ⟨-, k, -, -, -, rfl, -⟩ := EventLoop.split_rules hks
    exact hi.fire hcap

/-! ### Runs -/

theorem Setting.forget {done : List (FDRule (TCPMinnowSocket A κ) × Bool)}
    {l : EventLoop (TCPMinnowSocket A κ)} (h : Setting c g msgs done l w) :
    Setting c g msgs [] l w :=
  ⟨h.nonFd, h.left, h.drives, fun _ hk => absurd hk List.not_mem_nil,
    fun _ hk => absurd hk List.not_mem_nil⟩

theorem Waited.setting (result : EventLoop.Result)
    {s : EventLoop (TCPMinnowSocket A κ) × TCPMinnowSocket A κ}
    (h : EventLoop.Waited (Setting c g msgs) (fun _ => Serving c g msgs) (Setting c g msgs []) result
      s) : Setting c g msgs [] s.1 s.2 := by
  cases result with
  | Exit => exact h.forget
  | Timeout => exact h.elim fun _ h => h.forget
  | Success => exact h.elim (fun h => h.elim fun _ h => h.setting) id

/-- A pass of the loop. -/
theorem Setting.wp_pass (hcap : c.sendCapacity < 2 ^ 64) {abort : Bool} {elapsed : Nat}
    {s : EventLoop (TCPMinnowSocket A κ) × TCPMinnowSocket A κ} (h : Setting c g msgs [] s.1 s.2) :
    (tcpPass abort elapsed).wp (fun _ s => Setting c g msgs [] s.1 s.2)
      (fun e s => Blames g msgs e s.2) s := by
  unfold tcpPass
  rw [Act.wp_bind]
  refine Act.wp_mono ((keeps hcap).wp_wait TCP_TICK_MS h) (fun result t hw => ?_) fun _ _ h => h
  have ht := Waited.setting result hw
  rw [Act.wp_ite]
  split
  · exact ht
  · unfold onSocket
    rw [Act.wp_bind, Act.wp_zoom]
    refine Act.wp_mono (ht.drives.calls (R := fun _ => True) hcap fun _ _ _ hw =>
      Act.wp_mono (wp_tickPeer hw elapsed) (fun _ _ hs => ⟨hs, trivial⟩) fun _ _ hb => hb)
      (fun _ w' hd => ?_) fun _ _ hb => hb
    exact ⟨ht.nonFd, ht.left, hd.1, fun _ hk => absurd hk List.not_mem_nil,
      fun _ hk => absurd hk List.not_mem_nil⟩

theorem Setting.pass (hcap : c.sendCapacity < 2 ^ 64) {abort more : Bool} {elapsed : Nat}
    {s s' : EventLoop (TCPMinnowSocket A κ) × TCPMinnowSocket A κ}
    (h : Setting c g msgs [] s.1 s.2) (hp : tcpPass abort elapsed s = .ok more s') :
    Setting c g msgs [] s'.1 s'.2 := by
  have hpass : (tcpPass abort elapsed).wp _ _ s := h.wp_pass hcap
  unfold Act.wp at hpass
  rw [hp] at hpass
  exact hpass

theorem Driving.setting (hd : Driving c g msgs w) :
    Setting (κ := κ) c g msgs [] socketLoop w :=
  ⟨rfl, ⟨socketRules, rfl, .refl _⟩, hd, fun _ hk => absurd hk List.not_mem_nil,
    fun _ hk => absurd hk List.not_mem_nil⟩

theorem setting_connect (hf : Fresh w) (hsend : c.sendCapacity < 2 ^ 64)
    (hrecv : c.recvCapacity < 2 ^ 64) (config : FdAdapterConfig α) :
    Returns (startConnect c config)
      (fun _ s => Setting c { peer := .ofConfig c } [] [] s.1 s.2) ({}, w) := by
  unfold Returns startConnect
  rw [Act.wp_bind, Act.wp_get]
  dsimp only
  rw [Act.wp_ite]
  split
  · rw [Act.wp_bind, Act.wp_throw]
    trivial
  rw [Act.wp_bind, wp_initializeTCP]
  unfold onSocket
  rw [Act.wp_zoom]
  have hi := hostInv_start hsend
  have hw := works_start hf hrecv w.datagramAdapter
  have hr : w.received = [] := hf.received
  dsimp only
  -- the state is made a variable, lest the call be run
  generalize hw₁ : { w with tcp := some (TCPPeer.ofConfig c) } = w₁ at hw ⊢
  refine Act.wp_mono (wp_connectPeer hi hsend hw rfl config) (fun _ w' hs => ?_) fun _ _ h => h
  obtain ⟨cs, h, p, hm, hw', hr'⟩ := hs
  rw [← hw₁] at hr'
  exact Driving.setting ⟨hi, cs, h, p, hm, hw', by rw [hr', ← hr]⟩

theorem setting_listen (hf : Fresh w) (hsend : c.sendCapacity < 2 ^ 64)
    (hrecv : c.recvCapacity < 2 ^ 64) (config : FdAdapterConfig α) :
    Returns (startListen c config)
      (fun _ s => Setting c { peer := .ofConfig c } [] [] s.1 s.2) ({}, w) := by
  unfold Returns startListen
  rw [Act.wp_bind, Act.wp_get]
  dsimp only
  rw [Act.wp_ite]
  split
  · rw [Act.wp_bind, Act.wp_throw]
    trivial
  rw [Act.wp_bind, wp_initializeTCP]
  unfold onSocket
  rw [Act.wp_zoom, Act.wp_modify]
  exact Driving.setting ⟨hostInv_start hsend, [], _, _, rfl, works_start hf hrecv _, hf.received⟩

theorem Run.setting {cfg : TCPConfig} {s : EventLoop (TCPMinnowSocket A κ) × TCPMinnowSocket A κ}
    (hf : Fresh w) (hsend : cfg.sendCapacity < 2 ^ 64) (hrecv : cfg.recvCapacity < 2 ^ 64)
    (h : Run cfg w s) : Setting cfg { peer := .ofConfig cfg } [] [] s.1 s.2 := by
  induction h with
  | connect config h =>
    have hs := setting_connect hf hsend hrecv config
    unfold Returns Act.wp at hs
    rwa [h] at hs
  | listen config h =>
    have hs := setting_listen hf hsend hrecv config
    unfold Returns Act.wp at hs
    rwa [h] at hs
  | pass _ hp ih => exact ih.pass hsend hp

end TCPMinnowSocket

end Minnow
