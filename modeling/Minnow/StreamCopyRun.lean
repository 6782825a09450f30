import Mathlib.Data.List.Basic
import Minnow.StreamCopyFlow

/-!
# What the copying keeps, whatever the kernel does

`Copying` holds of the rules that are left and of the state whenever the loop waits.
-/

namespace Minnow
open Prog ByteStream

namespace StreamCopy
open SysCall

variable {κ : Type} {f g : Flow} {w w' : StreamCopy κ} {ks : List CopyRule} {k : CopyRule}

/-- `poll` has found no descriptor in error, and none hung up. -/
def Calm (w : StreamCopy κ) : Prop := ∀ ev ∈ w.found, ev.pollError = false ∧ ev.hup = false

instance : Decidable w.Calm := by
  unfold Calm
  infer_instance

/-- The rules of `ks` are left. A stream is closed when its reading rule is not. As long as all was
calm no stream has an error, only the end of the source closes a stream, and the writing rule goes only
after its work is done. -/
structure Copying (ks : List CopyRule) (w : StreamCopy κ) : Prop where
  flow : ∀ f, FlowInv f w
  rules : ks.Sublist StreamCopy.rules
  readGone : ∀ f, .read f ∉ ks → (w.stream f).isClosed = true
  closedFd : ∀ d, (w.process.fds d).closed = true → d = .output ∧ w.isShutdown .inbound = true
  noError : w.Calm → ∀ f, (w.stream f).error = false
  eof : w.Calm → ∀ f, (w.stream f).isClosed = true → (w.process.fds f.source).eof = true
  writeGone : w.Calm → ∀ f, .write f ∉ ks → w.isShutdown f = true

/-- What a rule that was asked about may rely on until it is served. -/
def Wanted (k : CopyRule) (w : StreamCopy κ) : Prop :=
  match k with
  | .read f => (w.stream f).isClosed = false ∧ 0 < (w.stream f).availableCapacity
  | .write f => w.isShutdown f = false

/-- Why a rule was not interested. -/
def Idle (k : CopyRule) (w : StreamCopy κ) : Prop :=
  match k with
  | .read f => w.anyError = true ∨ (w.stream f).availableCapacity = 0 ∨
      (w.stream f).isClosed = true
  | .write f => (w.stream f).bytesBuffered = 0 ∧
      ((w.stream f).isClosed = true → w.isShutdown f = true)

theorem rules_pairwise : rules.Pairwise (·.id < ·.id) := by
  unfold rules CopyRule.id
  simp

theorem id_lt {pre post : List CopyRule} {k k' : CopyRule}
    (h : (pre ++ k :: post).Sublist rules) (hk : k' ∈ pre) : k'.id < k.id :=
  (List.pairwise_append.1 (rules_pairwise.sublist h)).2.2 k' hk k (List.mem_cons_self ..)

theorem id_lt_post {pre post : List CopyRule} {k k' : CopyRule}
    (h : (pre ++ k :: post).Sublist rules) (hk : k' ∈ post) : k.id < k'.id :=
  (List.pairwise_cons.1 (List.pairwise_append.1 (rules_pairwise.sublist h)).2.1).1 k' hk

/-- Of one stream the reading rule comes first. -/
theorem id_flow (k : CopyRule) :
    (CopyRule.read k.flow).id ≤ k.id ∧ k.id ≤ (CopyRule.write k.flow).id := by
  rcases k with (_ | _) | (_ | _) <;> simp [CopyRule.id, CopyRule.flow]

/-! ### Streams are closed and errors set -/

theorem relabels_close (w : StreamCopy κ) (g : Flow) :
    Relabels w (w.setStream g (w.stream g).close) := by
  refine ⟨rfl, rfl, rfl, rfl, fun f => ⟨decide (f = g), false, ?_⟩⟩
  show (if f = g then (w.stream g).close else w.stream f) = _
  by_cases hf : f = g
  · subst hf
    simp [ByteStream.close]
  · simp [hf]

theorem relabels_setErrors (w : StreamCopy κ) :
    Relabels w { w with stream := fun f => (w.stream f).setError } := by
  refine ⟨rfl, rfl, rfl, rfl, fun f => ⟨false, true, ?_⟩⟩
  simp [setError]

theorem relabels_kernel (w : StreamCopy κ) (kernel : κ) :
    Relabels w { w with process := { w.process with kernel } } :=
  ⟨rfl, rfl, rfl, rfl, fun f => ⟨false, false, by simp⟩⟩

theorem Relabels.trans {w'' : StreamCopy κ} (h : Relabels w w') (h' : Relabels w' w'') :
    Relabels w w'' := by
  refine ⟨h'.log.trans h.log, h'.fds.trans h.fds, h'.isShutdown.trans h.isShutdown,
    h'.found.trans h.found, fun f => ?_⟩
  obtain ⟨c, e, hs⟩ := h.stream f
  obtain ⟨c', e', hs'⟩ := h'.stream f
  refine ⟨c || c', e || e', ?_⟩
  rw [hs', hs]
  simp [Bool.or_assoc]

theorem Relabels.isClosed (h : Relabels w w') (hc : (w.stream f).isClosed = true) :
    (w'.stream f).isClosed = true := by
  obtain ⟨c, e, hs⟩ := h.stream f
  rw [hs]
  simp [hc]

theorem Relabels.availableCapacity (h : Relabels w w') (f : Flow) :
    (w'.stream f).availableCapacity = (w.stream f).availableCapacity := by
  obtain ⟨c, e, hs⟩ := h.stream f
  rw [hs]
  rfl

theorem Relabels.calm (h : Relabels w w') : w'.Calm ↔ w.Calm := by
  rw [Calm, Calm, h.found]

/-- A rule goes, after its stream has been closed. -/
theorem Copying.drop {pre post : List CopyRule}
    (h : Copying (pre ++ k :: post) w) (hr : Relabels w w')
    (hclosed : (w'.stream k.flow).isClosed = true)
    (hcalm : w.Calm → (∀ f, (w'.stream f).error = (w.stream f).error) ∧
      (∀ f, (w'.stream f).isClosed = true → (w.stream f).isClosed = true ∨
        (w.process.fds f.source).eof = true) ∧ ∀ f, k = .write f → w.isShutdown f = true) :
    Copying (pre ++ post) w' := by
  have hgone : ∀ k', k' ∉ pre ++ post → k' = k ∨ k' ∉ pre ++ k :: post := by
    intro k' hk'
    rw [List.mem_append, List.mem_cons]
    rw [List.mem_append] at hk'
    tauto
  refine ⟨fun f => (h.flow f).relabel hr, ?_, fun f hf => ?_, fun d hd => ?_, fun hc f => ?_,
    fun hc f hf => ?_, fun hc f hf => ?_⟩
  all_goals try rw [hr.calm] at hc
  · exact (List.Sublist.append_left (List.sublist_cons_self ..) _).trans h.rules
  · rcases hgone _ hf with rfl | hf
    · exact hclosed
    · exact hr.isClosed (h.readGone f hf)
  · rw [hr.fds] at hd
    rw [hr.isShutdown]
    exact h.closedFd d hd
  · rw [(hcalm hc).1]
    exact h.noError hc f
  · rw [hr.fds]
    exact ((hcalm hc).2.1 f hf).elim (h.eof hc f) id
  · rw [hr.isShutdown]
    rcases hgone _ hf with heq | hf
    · exact (hcalm hc).2.2 f heq.symm
    · exact h.writeGone hc f hf

theorem Copying.serves (h : Copying ks w) (hs : Serves w w') : Copying ks w' := by
  have hcalm : w'.Calm ↔ w.Calm := by rw [Calm, Calm, hs.found]
  refine ⟨hs.flow, h.rules, fun f hf => hs.stays f (h.readGone f hf), fun d hd => ?_,
    fun hc f => (hs.error f).trans (h.noError (hcalm.1 hc) f), fun hc f hf => ?_,
    fun hc f hf => hs.shut f (h.writeGone (hcalm.1 hc) f hf)⟩
  · rcases hs.closedFd d hd with hd | hd
    · exact (h.closedFd d hd).imp_right (hs.shut _)
    · exact hd
  · exact (hs.closed f hf).elim (fun hf => hs.eof _ (h.eof (hcalm.1 hc) f hf)) id

theorem Wanted.relabel (h : Wanted k w) (hr : Relabels w w')
    (hopen : ∀ f, k = .read f → (w'.stream f).isClosed = (w.stream f).isClosed) : Wanted k w' := by
  cases k with
  | read f => exact ⟨(hopen f rfl).trans h.1, by rw [hr.availableCapacity]; exact h.2⟩
  | write f => exact (congrFun hr.isShutdown f).trans h

theorem Idle.close (h : Idle k w) (hk : k ≠ .write g) :
    Idle k (w.setStream g (w.stream g).close) := by
  have hr := relabels_close w g
  have herror : (w.setStream g (w.stream g).close).anyError = w.anyError := by
    cases g <;> rfl
  cases k with
  | read f =>
    show _ ∨ _ ∨ _
    rw [herror, hr.availableCapacity]
    exact h.imp_right (Or.imp_right hr.isClosed)
  | write f =>
    have hf : f ≠ g := fun heq => hk (congrArg _ heq)
    have hstream : (w.setStream g (w.stream g).close).stream f = w.stream f := if_neg hf
    show _ ∧ (_ → _)
    rw [hstream]
    exact h

theorem FlowInv.bytesBuffered (h : FlowInv f w) (hs : w.isShutdown f = true) :
    (w.stream f).bytesBuffered = 0 := by
  rw [ByteStream.bytesBuffered, h.wf.buffered, (h.shut hs).2.1]
  rfl

/-- A call of the kernel by the loop itself, which may find something. -/
theorem Copying.kernel (h : Copying ks w) (kernel : κ) (found : List Revents) :
    Copying ks { w with process := { w.process with kernel }, found := w.found ++ found } := by
  have hcalm : Calm { w with process := { w.process with kernel }, found := w.found ++ found } →
      w.Calm := fun hc ev hev => hc ev (List.mem_append_left _ hev)
  refine ⟨fun f => ?_, h.rules, h.readGone, h.closedFd, fun hc => h.noError (hcalm hc),
    fun hc => h.eof (hcalm hc), fun hc => h.writeGone (hcalm hc)⟩
  have hf := h.flow f
  exact ⟨hf.wf, hf.capacity, hf.conserved, hf.shut, hf.running, hf.orderly⟩

/-! ### One wait of the loop -/

variable [Kernel κ]

theorem rule_inj (k k' : CopyRule) (h : rule (κ := κ) k = rule k') : k = k' := by
  have hid : k.id = k'.id := congrArg (·.id) h
  rcases k with (_ | _) | (_ | _) <;> rcases k' with (_ | _) | (_ | _) <;> first | rfl | cases hid

/-- The loop is waiting, or finds out what to wait for. -/
structure Setting (done : List (FDRule (StreamCopy κ) × Bool)) (l : EventLoop (StreamCopy κ))
    (w : StreamCopy κ) : Prop where
  nonFd : l.nonFdRules = []
  left : ∃ ks : List CopyRule, l.fdRules = ks.map rule ∧ Copying ks w
  wanted : ∀ k, (rule k, true) ∈ done → Wanted k w
  idle : ∀ k, (rule k, false) ∈ done → Idle k w

/-- Of what `poll` has found in this call the results for `todo` have not been looked at. -/
structure Serving (found : List Revents) (todo : List (FDRule (StreamCopy κ) × Bool))
    (l : EventLoop (StreamCopy κ)) (w : StreamCopy κ) : Prop where
  seen : ∀ ev ∈ found, ev ∈ w.found
  nonFd : l.nonFdRules = []
  left : ∃ ks : List CopyRule, l.fdRules = ks.map rule ∧ Copying ks w
  wanted : ∀ k, (rule k, true) ∈ todo → Wanted k w

theorem Setting.rest {done : List (FDRule (StreamCopy κ) × Bool)} {l : EventLoop (StreamCopy κ)}
    (h : Setting done l w) : Setting [] l w :=
  ⟨h.nonFd, h.left, fun _ hk => absurd hk List.not_mem_nil, fun _ hk => absurd hk List.not_mem_nil⟩

theorem Serving.setting {found : List Revents} {todo : List (FDRule (StreamCopy κ) × Bool)}
    {l : EventLoop (StreamCopy κ)} (h : Serving found todo l w) : Setting [] l w :=
  ⟨h.nonFd, h.left, fun _ hk => absurd hk List.not_mem_nil, fun _ hk => absurd hk List.not_mem_nil⟩

/-- A rule is over: its source has come to an end, or its sink has been closed. -/
theorem Copying.atEnd {pre post : List CopyRule}
    (h : Copying (pre ++ k :: post) w) (hover : (rule k).isOver w = true) :
    match k with
    | .read f => (w.process.fds f.source).eof = true
    | .write f => w.isShutdown f = true := by
  unfold FDRule.isOver at hover
  rw [Bool.or_eq_true, Bool.and_eq_true] at hover
  rcases k with (_ | _) | (_ | _) <;> rcases hover with ⟨hdir, heof⟩ | hclosed <;>
    first | exact heof | cases hdir | skip
  all_goals
    obtain ⟨hd, hs⟩ := h.closedFd _ hclosed
    first | exact hs | cases hd

theorem Setting.atEnd {l : EventLoop (StreamCopy κ)} {done : List (FDRule (StreamCopy κ) × Bool)}
    {r : FDRule (StreamCopy κ)} {post : List (FDRule (StreamCopy κ))}
    (h : Setting done (l.withFd (done.map Prod.fst ++ r :: post)) w) (hover : r.isOver w = true) :
    r.cancel.wp (fun _ w' => Setting done (l.withFd (done.map Prod.fst ++ post)) w')
      (fun e w' => Fault e w') w := by
  obtain ⟨hnon, ⟨ks, hks, hc⟩, hwanted, hidle⟩ := h
  obtain ⟨ks₁, k, ks₂, rfl, hdone, rfl, rfl⟩ := EventLoop.split_rules hks
  show Setting done _ (w.setStream k.flow (w.stream k.flow).close)
  have hr := relabels_close w k.flow
  have hgone := hc.atEnd hover
  have hstream : (w.setStream k.flow (w.stream k.flow).close).stream k.flow =
      (w.stream k.flow).close := if_pos rfl
  have hother : ∀ f, f ≠ k.flow →
      (w.setStream k.flow (w.stream k.flow).close).stream f = w.stream f := fun f hf => if_neg hf
  refine ⟨hnon, ⟨ks₁ ++ ks₂, ?_, hc.drop hr (by rw [hstream]; rfl) fun _ => ⟨fun f => ?_,
    fun f hf => ?_, fun f hf => ?_⟩⟩, fun k' hk' => ?_, fun k' hk' => ?_⟩
  · show done.map Prod.fst ++ ks₂.map rule = _
    rw [hdone, List.map_append]
  · by_cases hf : f = k.flow
    · subst hf
      rw [hstream]
      rfl
    · rw [hother f hf]
  · by_cases hf' : f = k.flow
    · subst hf'
      cases k with
      | read f => exact .inr hgone
      | write f => exact .inl ((hc.flow f).shut hgone).1
    · rw [hother f hf'] at hf
      exact .inl hf
  · subst hf
    exact hgone
  · refine (hwanted k' hk').relabel hr fun f hf => ?_
    subst hf
    by_cases hf' : f = k.flow
    · subst hf'
      have hopen := (hwanted _ hk').1
      cases k with
      | read f =>
        exact absurd (id_lt hc.rules (EventLoop.mem_rules rule_inj hdone hk')) (Nat.lt_irrefl _)
      | write f => rw [CopyRule.flow, ((hc.flow f).shut hgone).1] at hopen; cases hopen
    · rw [hother f hf']
  · refine (hidle k' hk').close fun hf => ?_
    subst hf
    have := id_lt hc.rules (EventLoop.mem_rules rule_inj hdone hk')
    have := (id_flow k).2
    omega

theorem wanted_of_interest (h : ∀ f, FlowInv f w) (hi : (rule (κ := κ) k).interest w = true) :
    Wanted k w := by
  cases k with
  | read f =>
    have hi : readInterest f w = true := hi
    unfold readInterest at hi
    simp only [Bool.and_eq_true, decide_eq_true_eq, Bool.not_eq_true'] at hi
    exact ⟨hi.2, hi.1.2⟩
  | write f =>
    have hi : writeInterest f w = true := hi
    show w.isShutdown f = false
    by_contra hs
    rw [Bool.not_eq_false] at hs
    rw [writeInterest, (h f).bytesBuffered hs, hs, Bool.not_true, Bool.and_false] at hi
    cases hi

theorem idle_of_interest (h : ∀ f, FlowInv f w) (hi : (rule (κ := κ) k).interest w = false) :
    Idle k w := by
  cases k with
  | read f =>
    have hi : readInterest f w = false := hi
    unfold readInterest at hi
    simp only [Bool.and_eq_false_iff, Bool.not_eq_false', decide_eq_false_iff_not] at hi
    rcases hi with (hi | hi) | hi
    · exact .inl hi
    · exact .inr (.inl (by omega))
    · exact .inr (.inr hi)
  | write f =>
    have hi : writeInterest f w = false := hi
    rw [writeInterest, Bool.or_eq_false_iff, decide_eq_false_iff_not, not_not] at hi
    obtain ⟨hbuf, hfin⟩ := hi
    refine ⟨hbuf, fun hclosed => ?_⟩
    have hdeck : (w.stream f).isFinished = true := by
      rw [isFinished, hclosed, Bool.true_and, List.isEmpty_iff]
      exact (h f).wf.deck_eq_nil_iff.2 hbuf
    rw [hdeck, Bool.true_and, Bool.not_eq_false'] at hfin
    exact hfin

theorem Setting.ask {l : EventLoop (StreamCopy κ)} {done : List (FDRule (StreamCopy κ) × Bool)}
    {r : FDRule (StreamCopy κ)} {post : List (FDRule (StreamCopy κ))}
    (h : Setting done (l.withFd (done.map Prod.fst ++ r :: post)) w) :
    Setting (done ++ [(r, r.interest w)]) (l.withFd (done.map Prod.fst ++ r :: post)) w := by
  obtain ⟨hnon, ⟨ks, hks, hc⟩, hwanted, hidle⟩ := h
  refine ⟨hnon, ⟨ks, hks, hc⟩, fun k hk => ?_, fun k hk => ?_⟩
  all_goals
    rw [List.mem_append, List.mem_singleton] at hk
    rcases hk with hk | hk
  · exact hwanted k hk
  · obtain ⟨rfl, hi⟩ := Prod.mk.inj hk
    exact wanted_of_interest hc.flow hi.symm
  · exact hidle k hk
  · obtain ⟨rfl, hi⟩ := Prod.mk.inj hk
    exact idle_of_interest hc.flow hi.symm

/-- A rule goes because of what `poll` found. -/
theorem Serving.drop {found : List Revents} {l : EventLoop (StreamCopy κ)}
    {pre : List (FDRule (StreamCopy κ))} {e : FDRule (StreamCopy κ) × Bool}
    {todo : List (FDRule (StreamCopy κ) × Bool)}
    (h : Serving found (e :: todo) (l.withFd (pre ++ e.1 :: todo.map Prod.fst)) w)
    (hev : ∃ ev ∈ found, ev.pollError = true ∨ ev.hup = true)
    (hr : Relabels w w') (hopen : ∀ f, (∀ k, e.1 = rule k → k.flow ≠ f) →
      (w'.stream f).isClosed = (w.stream f).isClosed)
    (hclosed : ∀ k, e.1 = rule k → (w'.stream k.flow).isClosed = true) :
    Serving found todo (l.withFd (pre ++ todo.map Prod.fst)) w' := by
  obtain ⟨hseen, hnon, ⟨ks, hks, hc⟩, hwanted⟩ := h
  obtain ⟨ks₁, k, ks₂, rfl, rfl, he, htodo⟩ := EventLoop.split_rules hks
  have hcalm : ¬ w.Calm := by
    intro hcalm
    obtain ⟨ev, hmem, hev⟩ := hev
    obtain ⟨herr, hhup⟩ := hcalm ev (hseen ev hmem)
    rw [herr, hhup] at hev
    exact hev.elim Bool.false_ne_true Bool.false_ne_true
  refine ⟨fun ev hev => by rw [hr.found]; exact hseen ev hev, hnon,
    ⟨ks₁ ++ ks₂, ?_, hc.drop hr (hclosed k he) fun hc => absurd hc hcalm⟩, fun k' hk' => ?_⟩
  · show ks₁.map rule ++ todo.map Prod.fst = _
    rw [htodo, List.map_append]
  · refine (hwanted k' (List.mem_cons_of_mem _ hk')).relabel hr fun f hf => hopen f fun k'' he'' => ?_
    subst hf
    rw [he] at he''
    obtain rfl := rule_inj _ _ he''
    intro hf
    have := id_lt_post hc.rules (EventLoop.mem_rules rule_inj htodo hk')
    have := (id_flow k).1
    rw [hf] at this
    omega

theorem Serving.fire {found : List Revents} {l : EventLoop (StreamCopy κ)} {k : CopyRule}
    {todo : List (FDRule (StreamCopy κ) × Bool)} (h : Serving found ((rule k, true) :: todo) l w) :
    (rule k).fire.wp (fun _ w' => Setting [] l w') (fun e w' => Fault e w') w := by
  obtain ⟨-, hnon, ⟨ks, hks, hc⟩, hwanted⟩ := h
  have hk := hwanted k (List.mem_cons_self ..)
  have hset : ∀ w', Serves w w' → Setting [] l w' := fun w' hs =>
    ⟨hnon, ⟨ks, hks, hc.serves hs⟩, fun _ hk => absurd hk List.not_mem_nil,
      fun _ hk => absurd hk List.not_mem_nil⟩
  rw [FDRule.wp_fire]
  cases k with
  | read f =>
    have hopen := (hc.flow f).closed hk.1
    refine Act.wp_mono (wp_readCallback hc.flow hopen hk.1 hk.2) (fun _ w' ⟨hs, hcount⟩ => ?_)
      fun _ _ h => h
    split
    next hsame =>
      refine ⟨rfl, fun hobl => ?_, fun g => (hs.flow g).safe⟩
      have hsame : (w.process.fds f.source).readCount = (w'.process.fds f.source).readCount :=
        hsame.1
      rw [hcount hobl] at hsame
      grind
    next => exact hset w' hs
  | write f =>
    refine Act.wp_mono (wp_writeCallback hc.flow hk) (fun _ w' ⟨hs, hdone⟩ => ?_) fun _ _ h => h
    split
    next hsame =>
      have hsame : (w.process.fds f.sink).writeCount = (w'.process.fds f.sink).writeCount ∧
        (w'.process.fds f.sink).closed = false ∧ writeInterest f w' = true := hsame
      rcases hdone with hd | hd | hd
      · rw [hd] at hsame; cases hsame.2.1
      · exact absurd hsame.1.symm hd
      · rw [hd] at hsame; cases hsame.2.2
    next => exact hset w' hs

theorem keeps : EventLoop.Keeps (σ := StreamCopy κ) Setting Serving (Setting [])
    (fun e _ w => Fault e w) where
  serve hr _ hi := by
    rw [hi.nonFd] at hr
    cases hr
  dropNonFd {l pre post r w} hi _ := by
    have hnon : pre ++ r :: post = [] := hi.nonFd
    simp at hnon
  dropFd _ hreq := by cases hreq
  atEnd hi _ hover := hi.atEnd hover
  ask hi _ _ := hi.ask
  poll hi hpoll := by
    obtain ⟨hnon, ⟨ks, hks, hc⟩, hwanted, -⟩ := hi
    obtain ⟨hanswer, rfl⟩ := Prod.mk.inj hpoll
    dsimp only at hanswer ⊢
    rw [hanswer]
    refine ⟨fun ev hev => List.mem_append_right _ hev, hnon, ⟨ks, hks, hc.kernel _ _⟩, fun k hk => ?_⟩
    cases k with
    | read f => exact hwanted _ hk
    | write f => exact hwanted _ hk
  pollTimedOut hi hpoll := by
    obtain ⟨hnon, ⟨ks, hks, hc⟩, hwanted, hidle⟩ := hi
    obtain ⟨hanswer, rfl⟩ := Prod.mk.inj hpoll
    refine ⟨hnon, ⟨ks, hks, hc.kernel _ _⟩, fun k hk => ?_, fun k hk => ?_⟩
    · cases k with
      | read f => exact hwanted _ hk
      | write f => exact hwanted _ hk
    · cases k with
      | read f => exact hidle _ hk
      | write f => exact hidle _ hk
  pollFailed {l done w w' pollfds timeoutMs} hi hpoll := by
    obtain ⟨-, ⟨ks, -, hc⟩, -⟩ := hi
    obtain ⟨hanswer, rfl⟩ := Prod.mk.inj hpoll
    exact ⟨rfl, fun hobl => hobl.poll _ _ _ hanswer, fun f => (hc.flow f).safe⟩
  fail {l found pre e todo w} hi hev := by
    obtain ⟨ev, hmem, herr⟩ := hev
    obtain ⟨-, -, ⟨ks, hks, hc⟩, -⟩ := id hi
    obtain ⟨-, k, -, -, -, he, -⟩ := EventLoop.split_rules hks
    have hsock := fun hobl : Kernel.Obliging κ =>
      hobl.getsockopt ((e.1.fd w)).fd w.process.kernel
    rw [FDRule.wp_fail]
    dsimp only
    split
    next hanswer =>
      exact ⟨rfl, fun hobl => hanswer.elim (hsock hobl).1 (hsock hobl).2, fun f => (hc.flow f).safe⟩
    next =>
      rw [he]
      refine hi.drop ⟨ev, hmem, .inl herr⟩ (((relabels_kernel w _).trans
        (relabels_setErrors _)).trans (relabels_close _ k.flow)) (fun f hf => ?_) fun k' hk' => ?_
      · show (if f = k.flow then _ else (w.stream f).setError).isClosed = _
        rw [if_neg (hf k he).symm]
        rfl
      · rw [he] at hk'
        obtain rfl := rule_inj _ _ hk'
        exact congrArg ByteStream.isClosed (if_pos rfl)
  hup {l found pre e todo w} hi hev := by
    obtain ⟨ev, hmem, hhup⟩ := hev
    obtain ⟨-, -, ⟨ks, hks, -⟩, -⟩ := id hi
    obtain ⟨-, k, -, -, -, he, -⟩ := EventLoop.split_rules hks
    rw [he]
    refine hi.drop ⟨ev, hmem, .inr hhup⟩ (relabels_close w k.flow) (fun f hf => ?_)
      fun k' hk' => ?_
    · exact congrArg ByteStream.isClosed (if_neg (hf k he).symm)
    · rw [he] at hk'
      obtain rfl := rule_inj _ _ hk'
      exact congrArg ByteStream.isClosed (if_pos rfl)
  pass hi := ⟨hi.seen, hi.nonFd, hi.left, fun k hk => hi.wanted k (List.mem_cons_of_mem _ hk)⟩
  fire {l found pre r todo w} hi := by
    obtain ⟨-, -, ⟨ks, hks, -⟩, -⟩ := id hi
    obtain ⟨-, k, -, -, -, rfl, -⟩ := EventLoop.split_rules hks
    exact hi.fire

/-! ### Runs -/

/-- The descriptors have not been closed. -/
structure Fresh (process : Process CopyFd κ) : Prop where
  log : process.log = []
  fds : ∀ d, (process.fds d).closed = false

variable {process : Process CopyFd κ} {s s' : EventLoop (StreamCopy κ) × StreamCopy κ}

theorem setting_start (h : Fresh process) {l : EventLoop (StreamCopy κ)} (hl : eventLoop = some l) :
    Setting [] l (start process) := by
  obtain ⟨names, heq⟩ := eventLoop_eq (κ := κ)
  rw [heq] at hl
  cases hl
  refine ⟨rfl, ⟨rules, rfl, ⟨fun f => ⟨?_, rfl, ?_, ?_, ?_, ?_⟩, .refl _, fun f hf => ?_, fun d hd => ?_,
    fun _ _ => rfl, fun _ f hf => ?_, fun _ f hf => ?_⟩⟩, fun _ hk => absurd hk List.not_mem_nil,
    fun _ hk => absurd hk List.not_mem_nil⟩
  · exact wf_new (by decide)
  · show bytesWritten f.sink process.log ++ [] = bytesRead f.source process.log
    rw [h.log]
    rfl
  · intro hs
    cases hs
  · intro _
    show ∀ c ∈ process.log, _
    rw [h.log]
    exact List.forall_mem_nil _
  · show Orderly f process.log
    rw [h.log]
    exact orderly_nil f
  · cases f <;> simp [rules] at hf
  · rw [show ((start process).process.fds d).closed = (process.fds d).closed from rfl, h.fds] at hd
    cases hd
  · cases hf
  · cases f <;> simp [rules] at hf

theorem Waited.setting {result : EventLoop.Result} (h : EventLoop.Waited (σ := StreamCopy κ) Setting
    Serving (Setting []) result s) : Setting [] s.1 s.2 := by
  cases result with
  | Exit => exact h.rest
  | Timeout => exact h.elim fun _ h => h.rest
  | Success => exact h.elim (fun h => h.elim fun _ h => h.setting) id

theorem Run.setting (hf : Fresh process) (h : Run process s) : Setting [] s.1 s.2 := by
  induction h with
  | start hl => exact setting_start hf hl
  | wait hrun hw hr ih =>
    have := keeps.wp_wait (-1) ih
    rw [Act.wp, hw] at this
    exact Waited.setting this

/-- Whatever the kernel answers, nothing of a stream is lost, repeated or reordered, no more than its
capacity is queued, and its sink is told of the end once, after everything else. A wait can only fail
with an exception, for which the kernel is to blame, and that leaves what has been copied in order. -/
theorem copy_safe (hf : Fresh process) (h : Run process s) :
    (∀ f, bytesWritten f.sink s.2.process.log ++ (s.2.stream f).queued =
        bytesRead f.source s.2.process.log ∧
      (s.2.stream f).queued.length ≤ 1048576 ∧ Orderly f s.2.process.log) ∧
    ∀ e s', EventLoop.waitNextEvent (-1) s = .error e s' → e = .exn .runtimeError ∧
      ¬ Kernel.Obliging κ ∧ ∀ f, bytesWritten f.sink s'.2.process.log <+:
        bytesRead f.source s'.2.process.log ∧ Orderly f s'.2.process.log := by
  have hset := h.setting hf
  constructor
  · intro f
    obtain ⟨ks, -, hc⟩ := hset.left
    have hflow := hc.flow f
    refine ⟨hflow.conserved, ?_, hflow.orderly⟩
    rw [← hflow.wf.buffered, ← hflow.capacity]
    exact hflow.wf.fits
  · intro e s' hw
    have hfault := keeps.wp_wait (-1) hset
    rw [Act.wp, hw] at hfault
    obtain ⟨he, hobl, hsafe⟩ := hfault
    exact ⟨he, hobl, fun f => ⟨(hsafe f).moved, (hsafe f).orderly⟩⟩

/-- When the copying ends, all that was read for a sink that is still served has been written to it,
and it has been told of the end unless a stream has an error. If `poll` has found nothing wrong in this
run, both sources were read to their end and both sinks were told so. -/
theorem copy_exit (hf : Fresh process) (h : Run process s)
    (hw : EventLoop.waitNextEvent (-1) s = .ok .Exit s') :
    (∀ f, rule (.write f) ∈ s'.1.fdRules →
      bytesWritten f.sink s'.2.process.log = bytesRead f.source s'.2.process.log ∧
        ((∃ c ∈ s'.2.process.log, isEnd f c = true) ∨ s'.2.anyError = true)) ∧
    (s'.2.Calm → ∀ f, (s'.2.process.fds f.source).eof = true ∧
      bytesWritten f.sink s'.2.process.log = bytesRead f.source s'.2.process.log ∧
      ∃ c ∈ s'.2.process.log, isEnd f c = true) := by
  have hexit := keeps.wp_wait (-1) (h.setting hf)
  rw [Act.wp, hw] at hexit
  obtain ⟨-, ⟨ks, hks, hc⟩, -, hidle⟩ :
    Setting (s'.1.fdRules.map fun r => (r, false)) s'.1 s'.2 := hexit
  have hidle : ∀ k ∈ ks, Idle k s'.2 := fun k hk => by
    refine hidle k (List.mem_map.2 ⟨rule k, ?_, rfl⟩)
    rw [hks]
    exact List.mem_map_of_mem hk
  have hmoved : ∀ f, (s'.2.stream f).queued = [] →
      bytesWritten f.sink s'.2.process.log = bytesRead f.source s'.2.process.log := by
    intro f hq
    have := (hc.flow f).conserved
    rwa [hq, List.append_nil] at this
  -- a stream whose writing rule has nothing to do is empty, and can only be open after an error
  have hpresent : ∀ f, .write f ∈ ks → (s'.2.stream f).queued = [] ∧
      (s'.2.isShutdown f = true ∨ s'.2.anyError = true) := by
    intro f hk
    obtain ⟨hbuf, hshut⟩ := hidle _ hk
    have hwf := (hc.flow f).wf
    refine ⟨List.length_eq_zero_iff.1 (hwf.buffered.symm.trans hbuf), ?_⟩
    by_cases hclosed : (s'.2.stream f).isClosed = true
    · exact .inl (hshut hclosed)
    · have hread : CopyRule.read f ∈ ks := by
        by_contra hgone
        exact hclosed (hc.readGone f hgone)
      refine (hidle _ hread).elim .inr fun hr => hr.elim (fun hcap => ?_) (absurd · hclosed)
      rw [hwf.availableCapacity_eq, (hc.flow f).capacity] at hcap
      rw [ByteStream.bytesBuffered] at hbuf
      omega
  constructor
  · intro f hmem
    rw [hks] at hmem
    obtain ⟨k, hk, heq⟩ := List.mem_map.1 hmem
    obtain rfl := rule_inj _ _ heq
    obtain ⟨hq, hend⟩ := hpresent f hk
    exact ⟨hmoved f hq, hend.imp_left fun hs => ((hc.flow f).shut hs).2.2⟩
  · intro hcalm f
    have hshut : s'.2.isShutdown f = true := by
      by_cases hk : CopyRule.write f ∈ ks
      · refine (hpresent f hk).2.elim id fun herr => ?_
        rw [anyError, hasError, hasError, hc.noError hcalm, hc.noError hcalm] at herr
        cases herr
      · exact hc.writeGone hcalm f hk
    obtain ⟨hclosed, hq, hend⟩ := (hc.flow f).shut hshut
    exact ⟨hc.eof hcalm f hclosed, hmoved f hq, hend⟩

/-! ### A run -/

/-- `readCallback` without its buffer, of which only the size counts. -/
def quickRead (f : Flow) : Act (StreamCopy κ) Unit := do
  let room := ((← get).stream f).availableCapacity
  let data ← onProcess (FileDescriptor.readSized f.source
    (if room = 0 then FileDescriptor.kReadBufferSize else room))
  modify fun w => w.setStream f ((w.stream f).push data)
  if ((← get).process.fds f.source).eof then
    modify fun w => w.setStream f (w.stream f).close

def quickRule (k : CopyRule) : FDRule (StreamCopy κ) :=
  match k with
  | .read f => { rule (.read f) with callback := quickRead f }
  | .write f => rule (.write f)

theorem rule_quick (k : CopyRule) : rule (κ := κ) k = quickRule k := by
  have hsize : ∀ n, FileDescriptor.readSize (List.replicate n 0) =
      if n = 0 then FileDescriptor.kReadBufferSize else n := by
    intro n
    unfold FileDescriptor.readSize
    cases n <;> simp
  cases k with
  | read f =>
    have hread : readCallback (κ := κ) f = quickRead f := by
      unfold readCallback quickRead FileDescriptor.read
      simp only [hsize]
    show _ = { rule (κ := κ) (.read f) with callback := quickRead f }
    rw [← hread]
    rfl
  | write f => rfl

/-- The loop as it is first, in a form that can be run. -/
def quickLoop (κ : Type) [Kernel κ] : EventLoop (StreamCopy κ) where
  ruleCategories := (eventLoop (κ := κ)).elim [] (·.ruleCategories)
  fdRules := rules.map quickRule
  allocated := 4

theorem eventLoop_quick : eventLoop (κ := κ) = some (quickLoop κ) := by
  obtain ⟨names, heq⟩ := eventLoop_eq (κ := κ)
  have hrules : rules.map (rule (κ := κ)) = rules.map quickRule :=
    List.map_congr_left fun k _ => rule_quick k
  rw [quickLoop, heq, hrules]
  rfl

/-- `n` waits that each serve a rule. -/
def waits : Nat → EventLoop (StreamCopy κ) × StreamCopy κ →
    Option (EventLoop (StreamCopy κ) × StreamCopy κ)
  | 0, s => some s
  | n + 1, s => ((EventLoop.waitNextEvent (-1)).returned s).bind fun r =>
      if r.1 = .Success then waits n r.2 else none

theorem Run.waits {n : Nat} (h : Run process s) (hn : StreamCopy.waits n s = some s') :
    Run process s' := by
  induction n generalizing s with
  | zero =>
    cases hn
    exact h
  | succ n ih =>
    obtain ⟨⟨result, t⟩, ht, hn⟩ := Option.bind_eq_some_iff.1 hn
    obtain ⟨hresult, hn⟩ := Option.ite_none_right_eq_some.1 hn
    refine ih (h.wait (Act.of_returned ht) ?_) hn
    rw [show result = .Success from hresult]
    decide

/-- Two bytes from the input and then one more, and a byte from the socket in between. -/
def letters : Process CopyFd Scripted where
  kernel := { input := [[1, 2], [3], [9]], ready := [0, 1, 0, 2, 3, 1, 0, 0, 1, 1] }
  fds := fun
    | .input => { fd := 0 }
    | .output => { fd := 1 }
    | .socket => { fd := 3 }

theorem letters_fresh : Fresh letters := ⟨rfl, fun d => by cases d <;> rfl⟩

abbrev Letters := EventLoop (StreamCopy Scripted) × StreamCopy Scripted

theorem exists_letters (n : Nat) (good : Letters → Bool)
    (h : (waits n (quickLoop Scripted, start letters)).any good = true) :
    ∃ s, Run letters s ∧ good s = true := by
  obtain ⟨s, hs, hgood⟩ := (Option.any_eq_true _ _).1 h
  exact ⟨s, (Run.start eventLoop_quick).waits hs, hgood⟩

/-- Two bytes have been written to the socket when the third one has been read. -/
theorem copy_safe_letters : ∃ s, Run letters s ∧ bytesRead .input s.2.process.log = [1, 2, 3] ∧
    bytesWritten .socket s.2.process.log = [1, 2] ∧ (s.2.stream .outbound).queued = [3] ∧
    Orderly .outbound s.2.process.log := by
  obtain ⟨s, hrun, hs⟩ := exists_letters 3 (fun s => decide
    (bytesRead .input s.2.process.log = [1, 2, 3] ∧ (s.2.stream .outbound).queued = [3]))
    (by decide +kernel)
  obtain ⟨hread, hqueued⟩ := of_decide_eq_true hs
  obtain ⟨hconserved, -, horderly⟩ := (copy_safe letters_fresh hrun).1 .outbound
  rw [hqueued] at hconserved
  exact ⟨s, hrun, hread, @List.append_cancel_right _ _ [3] [1, 2] (hconserved.trans hread), hqueued,
    horderly⟩

/-- Both sinks are given everything, and are told of the end. -/
theorem copy_exit_letters : ∃ s s' : Letters, Run letters s ∧
    EventLoop.waitNextEvent (-1) s = .ok .Exit s' ∧
    bytesWritten .socket s'.2.process.log = [1, 2, 3] ∧
    bytesWritten .output s'.2.process.log = [9] ∧ ∀ f, ∃ c ∈ s'.2.process.log, isEnd f c = true := by
  obtain ⟨s, hrun, hs⟩ := exists_letters 10
    (fun s => ((EventLoop.waitNextEvent (-1)).returned s).any
      fun r : EventLoop.Result × Letters => decide (r.1 = .Exit ∧ r.2.2.Calm ∧
        bytesRead .input r.2.2.process.log = [1, 2, 3] ∧ bytesRead .socket r.2.2.process.log = [9]))
    (by decide +kernel)
  obtain ⟨⟨result, s'⟩, hw, hs⟩ := (Option.any_eq_true _ _).1 hs
  obtain ⟨hresult, hcalm, hinput, hsocket⟩ := of_decide_eq_true hs
  have hw : EventLoop.waitNextEvent (-1) s = .ok .Exit s' := by
    rw [Act.of_returned hw, show result = .Exit from hresult]
  have h := (copy_exit letters_fresh hrun hw).2 hcalm
  exact ⟨s, s', hrun, hw, (h .outbound).2.1.trans hinput, (h .inbound).2.1.trans hsocket,
    fun f => (h f).2.2⟩

end StreamCopy

end Minnow
