import Mathlib.Logic.Relation
import Minnow.EventLoop

/-!
# The life of a rule

The closures of the rules are told apart by a record of their calls that they keep in the state
(`Recorded`). They may use handles, but add no rules, and those for cancellation and for an error
return. Then one call of the loop gives up rules and serves at most one (`wait_calls`); so, over any
run, a rule is called back until it is cancelled or fails (`rule_life`). Whether a handle has been used
is only looked at before `poll` is called: a rule may still be called in the call of the loop in which
its handle is used, and never after it.
-/

namespace Minnow
open Prog

inductive CallKind
  | callback
  | cancel
  | error
deriving Repr, DecidableEq

/-- A call of a closure of the rule with this `id`. -/
structure RuleCall where
  rule : Nat
  kind : CallKind
deriving Repr, DecidableEq

variable {σ : Type} [Handles σ] {calls : σ → List RuleCall} {l l₀ l' : EventLoop σ} {w w₀ w' w'' : σ}
  {c d : List RuleCall}

/-- From `w` to `w'` the calls `c` are recorded, and no flag is taken back. -/
structure Adds (calls : σ → List RuleCall) (w : σ) (c : List RuleCall) (w' : σ) : Prop where
  calls : calls w' = calls w ++ c
  flags : ∀ id, Flags.cancelRequested id w = true → Flags.cancelRequested id w' = true

theorem Adds.refl (calls : σ → List RuleCall) (w : σ) : Adds calls w [] w :=
  ⟨(List.append_nil _).symm, fun _ h => h⟩

theorem Adds.trans (h : Adds calls w c w') (h' : Adds calls w' d w'') : Adds calls w (c ++ d) w'' :=
  ⟨by rw [h'.calls, h.calls, List.append_assoc], fun id hid => h'.flags id (h.flags id hid)⟩

theorem Adds.unmarked (h : Adds calls w c w') {r : BasicRule σ} (hr : r.cancelRequested w' = false) :
    r.cancelRequested w = false := by
  refine Bool.eq_false_iff.2 fun hw => ?_
  rw [show r.cancelRequested w' = true from h.flags r.id hw] at hr
  cases hr

/-- A call appends an entry to the record, and only one. -/
def Appends (calls : σ → List RuleCall) (call : Act σ Unit) (c : RuleCall) (E : σ → σ → Prop) : Prop :=
  ∀ w, call.wp (fun _ => Adds calls w [c]) (fun _ => E w) w

/-- The closures record their calls. Only the callback may fail. -/
structure BasicRule.Recorded (calls : σ → List RuleCall) (r : BasicRule σ) : Prop where
  callback : Appends calls r.callback ⟨r.id, .callback⟩ fun w => Adds calls w [⟨r.id, .callback⟩]

structure FDRule.Recorded (calls : σ → List RuleCall) (r : FDRule σ) : Prop extends
    BasicRule.Recorded calls r.toBasicRule where
  cancel : Appends calls r.cancel ⟨r.id, .cancel⟩ fun _ _ => False
  error : Appends calls r.error ⟨r.id, .error⟩ fun _ _ => False

/-- At most `left` callbacks, and none by a rule that has not fired. -/
theorem BasicRule.Recorded.serve {r : BasicRule σ} (h : r.Recorded calls) (left : Nat) (fired : Bool)
    (w : σ) : (r.serve left fired).wp
      (fun ruleFired w' => ∃ n ≤ left, Adds calls w (List.replicate n ⟨r.id, .callback⟩) w' ∧
        (ruleFired = false → fired = false ∧ n = 0))
      (fun _ w' => ∃ n ≤ left, Adds calls w (List.replicate n ⟨r.id, .callback⟩) w') w := by
  induction left generalizing fired w with
  | zero =>
    unfold BasicRule.serve
    rw [Act.wp_bind, Act.wp_get]
    dsimp only
    rw [Act.wp_ite]
    split
    · exact ⟨0, Nat.le_refl 0, .refl calls w⟩
    · exact ⟨0, Nat.le_refl 0, .refl calls w, fun hf => ⟨hf, rfl⟩⟩
  | succ left ih =>
    unfold BasicRule.serve
    rw [Act.wp_bind, Act.wp_get, Act.wp_ite]
    split
    next =>
      rw [Act.wp_bind]
      refine Act.wp_mono (h.callback w) (fun _ w₁ h₁ => ?_) (fun _ w₁ h₁ => ⟨1, by omega, h₁⟩)
      refine Act.wp_mono (ih true w₁) ?_ ?_
      · rintro ruleFired w' ⟨n, hn, hc, hf⟩
        refine ⟨n + 1, by omega, h₁.trans hc, fun hfalse => ?_⟩
        cases (hf hfalse).1
      · rintro _ w' ⟨n, hn, hc⟩
        exact ⟨n + 1, by omega, h₁.trans hc⟩
    next => exact ⟨0, by omega, .refl calls w, fun hf => ⟨hf, rfl⟩⟩

/-- The loop's own system calls record nothing, nor do handles. -/
structure Poller.Silent [Poller σ] (calls : σ → List RuleCall) : Prop where
  poll (pollfds : List PollFd) (timeoutMs : Int) (w : σ) :
    Adds calls w [] (Poller.poll pollfds timeoutMs w).2
  getsockopt (fd : Nat) (w : σ) : Adds calls w [] (Poller.getsockopt fd w).2
  request (rule : Nat) (w : σ) : calls (Handles.request rule w) = calls w

theorem Poller.Silent.of_poll [Poller σ] (h : Poller.Silent calls) {pollfds : List PollFd}
    {timeoutMs : Int} {answer : PollAnswer} (hp : Poller.poll pollfds timeoutMs w = (answer, w')) :
    Adds calls w [] w' := by
  have hs := h.poll pollfds timeoutMs w
  rwa [hp] at hs

theorem Poller.Silent.cancel [Poller σ] (h : Poller.Silent calls) {handle : RuleHandle}
    (hc : handle.cancel w = .ok () w') : Adds calls w [] w' := by
  obtain rfl : Handles.request handle.rule w = w' := (EStateM.Result.ok.inj hc).2
  refine ⟨(h.request _ w).trans (List.append_nil _).symm, fun id hid => ?_⟩
  rw [Handles.requested, hid, Bool.or_true]

namespace EventLoop

def fdIds (l : EventLoop σ) : List Nat := l.fdRules.map fun r => r.id

def nonFdIds (l : EventLoop σ) : List Nat := l.nonFdRules.map fun r => r.id

/-- The ids that have been given out are told apart. -/
structure Wf (calls : σ → List RuleCall) (l : EventLoop σ) : Prop where
  fd : ∀ r ∈ l.fdRules, r.Recorded calls
  nonFd : ∀ r ∈ l.nonFdRules, r.Recorded calls
  nodup : (l.fdIds ++ l.nonFdIds).Nodup
  lt : ∀ id ∈ l.fdIds ++ l.nonFdIds, id < l.allocated

/-- The calls for a rule that is given up, after an error or not. -/
def ending (e : Nat × Bool) : List RuleCall :=
  (if e.2 then [⟨e.1, .error⟩] else []) ++ [⟨e.1, .cancel⟩]

/-- From `l₀` to `l` only rules have gone: those whose handles have been used, and `dropped`, with a
flag for an error. The latter had not been requested when the call began, at `w₀`. -/
structure Erased (l₀ : EventLoop σ) (w₀ : σ) (l : EventLoop σ) (w : σ)
    (dropped : List (Nat × Bool)) : Prop where
  fd : l.fdRules.Sublist l₀.fdRules
  nonFd : l.nonFdRules.Sublist l₀.nonFdRules
  allocated : l.allocated = l₀.allocated
  apart : ∀ e ∈ dropped,
    (∃ r ∈ l₀.fdRules, r.id = e.1 ∧ r.cancelRequested w₀ = false) ∧ e.1 ∉ l.fdIds
  nodup : (dropped.map Prod.fst).Nodup
  gone : ∀ r ∈ l₀.fdRules, r ∉ l.fdRules → r.cancelRequested w = true ∨ r.id ∈ dropped.map Prod.fst
  gone' : ∀ r ∈ l₀.nonFdRules, r ∉ l.nonFdRules → r.cancelRequested w = true

theorem Erased.refl (l : EventLoop σ) (w : σ) : Erased l w l w [] :=
  ⟨.refl _, .refl _, rfl, List.forall_mem_nil _, .nil, fun _ hr h => absurd hr h,
    fun _ hr h => absurd hr h⟩

theorem Erased.adds {dropped : List (Nat × Bool)} (h : Erased l₀ w₀ l w dropped)
    (ha : Adds calls w c w') : Erased l₀ w₀ l w' dropped :=
  ⟨h.fd, h.nonFd, h.allocated, h.apart, h.nodup,
    fun r hr hn => (h.gone r hr hn).imp_left (ha.flags r.id),
    fun r hr hn => ha.flags r.id (h.gone' r hr hn)⟩

variable {dropped : List (Nat × Bool)} {pre post : List (FDRule σ)} {r : FDRule σ}

theorem mem_or_eq_of_mem_insert {ρ : Type} {x r : ρ} {pre post : List ρ} (h : x ∈ pre ++ r :: post) :
    x ∈ pre ++ post ∨ x = r := by
  rcases List.mem_append.1 h with h | h
  · exact .inl (List.mem_append_left _ h)
  · rcases List.mem_cons.1 h with rfl | h
    · exact .inr rfl
    · exact .inl (List.mem_append_right _ h)

theorem Erased.drop (h : Erased l₀ w₀ (l.withFd (pre ++ r :: post)) w dropped)
    (hr : r.cancelRequested w = true) : Erased l₀ w₀ (l.withFd (pre ++ post)) w dropped := by
  have hsub := sublist_insert r pre post
  refine ⟨hsub.trans h.fd, h.nonFd, h.allocated, fun e he => ?_, h.nodup, fun x hx hn => ?_, h.gone'⟩
  · exact ⟨(h.apart e he).1, fun hm => (h.apart e he).2 ((hsub.map _).subset hm)⟩
  · by_cases hx' : x ∈ pre ++ r :: post
    · rcases mem_or_eq_of_mem_insert hx' with hx' | rfl
      · exact absurd hx' hn
      · exact .inl hr
    · exact h.gone x hx hx'

theorem Erased.dropNonFd {pre post : List (BasicRule σ)} {r : BasicRule σ}
    (h : Erased l₀ w₀ (l.withNonFd (pre ++ r :: post)) w dropped)
    (hr : r.cancelRequested w = true) : Erased l₀ w₀ (l.withNonFd (pre ++ post)) w dropped := by
  refine ⟨h.fd, (sublist_insert r pre post).trans h.nonFd, h.allocated, h.apart, h.nodup, h.gone,
    fun x hx hn => ?_⟩
  by_cases hx' : x ∈ pre ++ r :: post
  · rcases mem_or_eq_of_mem_insert hx' with hx' | rfl
    · exact absurd hx' hn
    · exact hr
  · exact h.gone' x hx hx'

theorem Erased.end (h : Erased l₀ w₀ (l.withFd (pre ++ r :: post)) w dropped) (hn : l₀.fdIds.Nodup)
    (hr : r.cancelRequested w₀ = false) (failed : Bool) :
    Erased l₀ w₀ (l.withFd (pre ++ post)) w (dropped ++ [(r.id, failed)]) := by
  have hsub := sublist_insert r pre post
  have hmem : r ∈ pre ++ r :: post := List.mem_append_right _ (List.mem_cons_self ..)
  have hids : ((pre ++ r :: post).map fun r => r.id).Nodup := hn.sublist (h.fd.map _)
  have hnot : r.id ∉ (pre ++ post).map fun r => r.id := by
    rw [List.map_append, List.map_cons, List.nodup_append] at hids
    obtain ⟨-, hcons, hne⟩ := hids
    rw [List.map_append, List.mem_append, not_or]
    exact ⟨fun hm => hne _ hm _ (List.mem_cons_self ..) rfl, (List.nodup_cons.1 hcons).1⟩
  refine ⟨hsub.trans h.fd, h.nonFd, h.allocated, fun e he => ?_, ?_, fun x hx hne => ?_, h.gone'⟩
  · rcases List.mem_append.1 he with he | he
    · exact ⟨(h.apart e he).1, fun hm => (h.apart e he).2 ((hsub.map _).subset hm)⟩
    · rw [List.mem_singleton.1 he]
      exact ⟨⟨r, h.fd.subset hmem, rfl, hr⟩, hnot⟩
  · rw [List.map_append, List.map_singleton]
    refine List.nodup_append.2 ⟨h.nodup, List.pairwise_singleton _ _, fun x hx y hy hxy => ?_⟩
    obtain ⟨e, he, rfl⟩ := List.mem_map.1 hx
    rw [List.mem_singleton] at hy
    exact (h.apart e he).2 (hxy.trans hy ▸ List.mem_map_of_mem hmem)
  · rw [List.map_append, List.map_singleton, List.mem_append, List.mem_singleton]
    by_cases hx' : x ∈ pre ++ r :: post
    · rcases mem_or_eq_of_mem_insert hx' with hx' | rfl
      · exact absurd hx' hne
      · exact .inr (.inr rfl)
    · exact (h.gone x hx hx').imp_right .inl

/-- The calls of one call of the loop: rules that are over, and then callbacks of one rule, which
stays. None of them had been requested when the call began. -/
def Called (calls : σ → List RuleCall) (l₀ : EventLoop σ) (w₀ : σ) (l : EventLoop σ) (w : σ) : Prop :=
  ∃ dropped id n, Erased l₀ w₀ l w dropped ∧
    Adds calls w₀ (dropped.flatMap ending ++ List.replicate n ⟨id, .callback⟩) w ∧
    (n = 0 ∨ (n = 1 ∧ ∃ r ∈ l.fdRules, r.id = id ∧ r.cancelRequested w₀ = false) ∨
      (n ≤ 128 ∧ ∃ r ∈ l.nonFdRules, r.id = id ∧ r.cancelRequested w₀ = false))

/-- No rule has been called back yet. -/
def Quiet (calls : σ → List RuleCall) (l₀ : EventLoop σ) (w₀ : σ) (l : EventLoop σ) (w : σ) : Prop :=
  ∃ dropped, Erased l₀ w₀ l w dropped ∧ Adds calls w₀ (dropped.flatMap ending) w

theorem Quiet.refl (calls : σ → List RuleCall) (l : EventLoop σ) (w : σ) : Quiet calls l w l w :=
  ⟨[], .refl l w, .refl calls w⟩

theorem Quiet.adds (h : Quiet calls l₀ w₀ l w) (ha : Adds calls w [] w') :
    Quiet calls l₀ w₀ l w' := by
  obtain ⟨dropped, he, hc⟩ := h
  exact ⟨dropped, he.adds ha, List.append_nil (dropped.flatMap ending) ▸ hc.trans ha⟩

theorem Quiet.called (h : Quiet calls l₀ w₀ l w) : Called calls l₀ w₀ l w := by
  obtain ⟨dropped, he, hc⟩ := h
  exact ⟨dropped, 0, 0, he, by rwa [List.replicate_zero, List.append_nil], .inl rfl⟩

/-- A rule that stays is called back. -/
theorem Quiet.serve (h : Quiet calls l₀ w₀ l w) {id n : Nat}
    (ha : Adds calls w (List.replicate n ⟨id, .callback⟩) w')
    (hn : n = 0 ∨ (n = 1 ∧ ∃ r ∈ l.fdRules, r.id = id ∧ r.cancelRequested w₀ = false) ∨
      (n ≤ 128 ∧ ∃ r ∈ l.nonFdRules, r.id = id ∧ r.cancelRequested w₀ = false)) :
    Called calls l₀ w₀ l w' := by
  obtain ⟨dropped, he, hc⟩ := h
  exact ⟨dropped, id, n, he.adds ha, hc.trans ha, hn⟩

/-- A rule that is given up is told so. -/
theorem Quiet.end (h : Quiet calls l₀ w₀ (l.withFd (pre ++ r :: post)) w) (hn : l₀.fdIds.Nodup)
    (hr : r.cancelRequested w₀ = false) (failed : Bool) (ha : Adds calls w (ending (r.id, failed)) w') :
    Quiet calls l₀ w₀ (l.withFd (pre ++ post)) w' := by
  obtain ⟨dropped, he, hc⟩ := h
  refine ⟨_, (he.end hn hr failed).adds ha, ?_⟩
  rw [List.flatMap_append, List.flatMap_singleton]
  exact hc.trans ha

theorem Quiet.unmarked (h : Quiet calls l₀ w₀ l w) {r : BasicRule σ}
    (hr : r.cancelRequested w = false) : r.cancelRequested w₀ = false := by
  obtain ⟨_, -, hc⟩ := h
  exact hc.unmarked hr

theorem Quiet.mem (h : Quiet calls l₀ w₀ (l.withFd (pre ++ r :: post)) w) : r ∈ l₀.fdRules := by
  obtain ⟨_, he, -⟩ := h
  exact he.fd.subset (List.mem_append_right _ (List.mem_cons_self ..))

/-- The rules that `poll` is asked about had not been requested when the call began. -/
def Asking (calls : σ → List RuleCall) (l₀ : EventLoop σ) (w₀ : σ) (asked : List (FDRule σ × Bool))
    (l : EventLoop σ) (w : σ) : Prop :=
  Quiet calls l₀ w₀ l w ∧ ∀ e ∈ asked, e.1.cancelRequested w₀ = false

theorem Asking.keeps [Poller σ] (hs : Poller.Silent calls) (hwf : l₀.Wf calls) (w₀ : σ) :
    Keeps (Asking calls l₀ w₀) (fun _ => Asking calls l₀ w₀) (Called calls l₀ w₀)
      (fun _ => Called calls l₀ w₀) where
  serve := by
    rintro l r w hr hreq ⟨hq, ha⟩
    have hrec : r.Recorded calls := by
      obtain ⟨_, he, -⟩ := hq
      exact hwf.nonFd r (he.nonFd.subset hr)
    have hreq₀ := hq.unmarked hreq
    refine Act.wp_mono (hrec.serve 128 false w) ?_ ?_
    · rintro (_ | _) w' ⟨n, hn, hc, hf⟩
      · obtain rfl := (hf rfl).2
        exact ⟨hq.adds hc, ha⟩
      · exact hq.serve hc (.inr (.inr ⟨hn, r, hr, rfl, hreq₀⟩))
    · rintro - w' ⟨n, hn, hc⟩
      exact hq.serve hc (.inr (.inr ⟨hn, r, hr, rfl, hreq₀⟩))
  dropNonFd := by
    rintro l pre post r w ⟨⟨dropped, he, hc⟩, ha⟩ hreq
    exact ⟨⟨dropped, he.dropNonFd hreq, hc⟩, ha⟩
  dropFd := by
    rintro l done r post w ⟨⟨dropped, he, hc⟩, ha⟩ hreq
    exact ⟨⟨dropped, he.drop hreq, hc⟩, ha⟩
  atEnd := by
    rintro l done r post w ⟨hq, ha⟩ hreq -
    refine Act.wp_mono ((hwf.fd r hq.mem).cancel w) (fun _ w' hc => ?_) (fun _ _ h => h.elim)
    exact ⟨hq.end (List.nodup_append.1 hwf.nodup).1 (hq.unmarked hreq) false hc, ha⟩
  ask := by
    rintro l done r post w ⟨hq, ha⟩ hreq -
    refine ⟨hq, fun e he => ?_⟩
    rcases List.mem_append.1 he with he | he
    · exact ha e he
    · rw [List.mem_singleton.1 he]
      exact hq.unmarked hreq
  poll := by
    rintro l done w w' pollfds timeoutMs revents ⟨hq, ha⟩ hp
    exact ⟨hq.adds (hs.of_poll hp), ha⟩
  pollTimedOut := by
    rintro l done w w' pollfds timeoutMs ⟨hq, ha⟩ hp
    exact ⟨hq.adds (hs.of_poll hp), ha⟩
  pollFailed := by
    rintro l done w w' pollfds timeoutMs ⟨hq, -⟩ hp
    exact (hq.adds (hs.of_poll hp)).called
  fail := by
    rintro l found pre ⟨r, b⟩ todo w ⟨hq, ha⟩ -
    have hsock := hs.getsockopt (r.fd w).fd w
    rw [FDRule.wp_fail]
    dsimp only
    generalize Poller.getsockopt (r.fd w).fd w = answered at hsock ⊢
    obtain ⟨answer, w₁⟩ := answered
    dsimp only at hsock ⊢
    split
    · exact (hq.adds hsock).called
    · refine Act.wp_mono ((hwf.fd r hq.mem).error w₁) (fun _ w₂ h₂ => ?_) (fun _ _ h => h.elim)
      refine Act.wp_mono ((hwf.fd r hq.mem).cancel w₂) (fun _ w₃ h₃ => ?_) (fun _ _ h => h.elim)
      exact ⟨(hq.adds hsock).end (List.nodup_append.1 hwf.nodup).1 (ha _ (List.mem_cons_self ..))
        true (h₂.trans h₃), fun e he => ha e (List.mem_cons_of_mem _ he)⟩
  hup := by
    rintro l found pre ⟨r, b⟩ todo w ⟨hq, ha⟩ -
    refine Act.wp_mono ((hwf.fd r hq.mem).cancel w) (fun _ w' hc => ?_) (fun _ _ h => h.elim)
    exact ⟨hq.end (List.nodup_append.1 hwf.nodup).1 (ha _ (List.mem_cons_self ..)) false hc,
      fun e he => ha e (List.mem_cons_of_mem _ he)⟩
  pass := fun h => ⟨h.1, fun e he => h.2 e (List.mem_cons_of_mem _ he)⟩
  fire := by
    rintro l found pre r todo w ⟨hq, ha⟩
    have hr : r ∈ pre ++ r :: todo.map Prod.fst := List.mem_append_right _ (List.mem_cons_self ..)
    have hone : ∀ w', Adds calls w [⟨r.id, .callback⟩] w' →
        Called calls l₀ w₀ (l.withFd (pre ++ r :: todo.map Prod.fst)) w' := fun w' hc =>
      hq.serve (n := 1) hc (.inr (.inl ⟨rfl, r, hr, rfl, ha _ (List.mem_cons_self ..)⟩))
    rw [FDRule.wp_fire]
    refine Act.wp_mono ((hwf.fd r hq.mem).callback w) (fun _ w' hc => ?_) fun _ => hone
    split
    · exact hone w' hc
    · exact hone w' hc

end EventLoop

/-! ### Runs -/

/-- What can happen to a loop and its state: rules are added and their handles used, the loop waits,
and the state moves by other hands, which may use handles too. -/
inductive LoopStep [Poller σ] (calls : σ → List RuleCall) : EventLoop σ × σ → EventLoop σ × σ → Prop
  | category {l l' : EventLoop σ} {w : σ} {name : String} {id : Nat}
      (h : l.addCategory name = some (id, l')) : LoopStep calls (l, w) (l', w)
  | fdRule {l l' : EventLoop σ} {w : σ} {categoryId : Nat} {fd : σ → FDWrapper}
      {direction : Direction} {callback cancel error : Act σ Unit} {interest : σ → Bool}
      {handle : RuleHandle} (hr : ∀ r ∈ l'.fdRules, r.Recorded calls)
      (h : l.addFdRule categoryId fd direction callback interest cancel error = some (handle, l')) :
      LoopStep calls (l, w) (l', w)
  | rule {l l' : EventLoop σ} {w : σ} {categoryId : Nat} {callback : Act σ Unit} {interest : σ → Bool}
      {handle : RuleHandle} (hr : ∀ r ∈ l'.nonFdRules, r.Recorded calls)
      (h : l.addRule categoryId callback interest = some (handle, l')) :
      LoopStep calls (l, w) (l', w)
  | request (l : EventLoop σ) {w w' : σ} (handle : RuleHandle) (h : handle.cancel w = .ok () w') :
      LoopStep calls (l, w) (l, w')
  | world (l : EventLoop σ) {w w' : σ} (h : Adds calls w [] w') : LoopStep calls (l, w) (l, w')
  | returned {s s' : EventLoop σ × σ} {timeoutMs : Int} {result : EventLoop.Result}
      (h : EventLoop.waitNextEvent timeoutMs s = .ok result s') : LoopStep calls s s'
  | failed {s s' : EventLoop σ × σ} {timeoutMs : Int} {e : Fault}
      (h : EventLoop.waitNextEvent timeoutMs s = .error e s') : LoopStep calls s s'

/-- The calls of the closures of one rule, in their order. -/
def callsOf (id : Nat) (c : List RuleCall) : List CallKind :=
  (c.filter fun x => x.rule == id).map (·.kind)

theorem callsOf_append (id : Nat) (c d : List RuleCall) :
    callsOf id (c ++ d) = callsOf id c ++ callsOf id d := by
  unfold callsOf
  rw [List.filter_append, List.map_append]

theorem callsOf_replicate_self (id n : Nat) (k : CallKind) :
    callsOf id (List.replicate n ⟨id, k⟩) = List.replicate n k := by
  unfold callsOf
  rw [List.filter_replicate, if_pos (by simp), List.map_replicate]

theorem callsOf_replicate_ne {id id' n : Nat} {k : CallKind} (h : id' ≠ id) :
    callsOf id (List.replicate n ⟨id', k⟩) = [] := by
  unfold callsOf
  rw [List.filter_replicate, if_neg (by simpa using h), List.map_nil]

namespace EventLoop
variable {dropped : List (Nat × Bool)} {id : Nat}

theorem callsOf_ending_self (e : Nat × Bool) :
    callsOf e.1 (ending e) = if e.2 then [.error, .cancel] else [.cancel] := by
  obtain ⟨id, _ | _⟩ := e <;> simp [callsOf, ending]

theorem callsOf_ending_ne {e : Nat × Bool} (h : e.1 ≠ id) : callsOf id (ending e) = [] := by
  obtain ⟨id', _ | _⟩ := e <;> simpa [callsOf, ending] using h

theorem callsOf_over_of_not_mem (h : id ∉ dropped.map Prod.fst) :
    callsOf id (dropped.flatMap ending) = [] := by
  induction dropped with
  | nil => rfl
  | cons e dropped ih =>
    rw [List.map_cons, List.mem_cons, not_or] at h
    rw [List.flatMap_cons, callsOf_append, callsOf_ending_ne (Ne.symm h.1), ih h.2]
    rfl

theorem callsOf_over_of_mem (hn : (dropped.map Prod.fst).Nodup) {e : Nat × Bool} (he : e ∈ dropped) :
    callsOf e.1 (dropped.flatMap ending) = if e.2 then [.error, .cancel] else [.cancel] := by
  induction dropped with
  | nil => cases he
  | cons x dropped ih =>
    rw [List.map_cons, List.nodup_cons] at hn
    rw [List.flatMap_cons, callsOf_append]
    rcases List.mem_cons.1 he with rfl | he
    · rw [callsOf_ending_self, callsOf_over_of_not_mem hn.1, List.append_nil]
    · have hne : x.1 ≠ e.1 := by
        intro heq
        exact hn.1 (heq ▸ List.mem_map_of_mem he)
      rw [callsOf_ending_ne hne, List.nil_append]
      exact ih hn.2 he

/-- Rule `id` is there, and has not been requested to go. -/
def Live (l : EventLoop σ) (w : σ) (id : Nat) : Prop :=
  (∃ r ∈ l.fdRules, r.id = id ∧ r.cancelRequested w = false) ∨
    ∃ r ∈ l.nonFdRules, r.id = id ∧ r.cancelRequested w = false

/-- What the calls of a rule look like: callbacks, and once it is over what it is told then. -/
inductive Ends (gone : Prop) : List CallKind → Prop
  | open (n : Nat) : Ends gone (List.replicate n .callback)
  | cancelled (n : Nat) (h : gone) : Ends gone (List.replicate n .callback ++ [.cancel])
  | failed (n : Nat) (h : gone) : Ends gone (List.replicate n .callback ++ [.error, .cancel])

/-- The loop in a run. -/
structure Running (calls : σ → List RuleCall) (l : EventLoop σ) (w : σ) : Prop where
  wf : l.Wf calls
  fresh : ∀ id, l.allocated ≤ id → callsOf id (calls w) = []
  ends : ∀ id, Ends (id ∉ l.fdIds ++ l.nonFdIds) (callsOf id (calls w))

theorem Ends.mono {gone gone' : Prop} {c : List CallKind} (h : Ends gone c) (hg : gone → gone') :
    Ends gone' c := by
  cases h with
  | «open» n => exact .open n
  | cancelled n h => exact .cancelled n (hg h)
  | failed n h => exact .failed n (hg h)

theorem Ends.eq_of_not {gone : Prop} {c : List CallKind} (h : Ends gone c) (hg : ¬ gone) :
    ∃ n, c = List.replicate n .callback := by
  cases h with
  | «open» n => exact ⟨n, rfl⟩
  | cancelled n h => exact absurd h hg
  | failed n h => exact absurd h hg

theorem Erased.ids (h : Erased l₀ w₀ l w dropped) :
    (l.fdIds ++ l.nonFdIds).Sublist (l₀.fdIds ++ l₀.nonFdIds) := (h.fd.map _).append (h.nonFd.map _)

theorem Erased.wf (h : Erased l₀ w₀ l w dropped) (hwf : l₀.Wf calls) : l.Wf calls :=
  ⟨fun r hr => hwf.fd r (h.fd.subset hr), fun r hr => hwf.nonFd r (h.nonFd.subset hr),
    hwf.nodup.sublist h.ids, fun id hid => h.allocated ▸ hwf.lt id (h.ids.subset hid)⟩

theorem Live.mem (h : l.Live w id) : id ∈ l.fdIds ++ l.nonFdIds := by
  rcases h with ⟨r, hr, rfl, -⟩ | ⟨r, hr, rfl, -⟩
  · exact List.mem_append_left _ (List.mem_map_of_mem hr)
  · exact List.mem_append_right _ (List.mem_map_of_mem hr)

theorem Live.of_adds (h : l.Live w' id) (ha : Adds calls w c w') : l.Live w id :=
  h.imp (fun ⟨r, hr, hid, hreq⟩ => ⟨r, hr, hid, ha.unmarked hreq⟩)
    (fun ⟨r, hr, hid, hreq⟩ => ⟨r, hr, hid, ha.unmarked hreq⟩)

theorem Erased.live (h : Erased l₀ w₀ l w dropped) {w' : σ} (hl : l.Live w' id) : l₀.Live w' id :=
  hl.imp (fun ⟨r, hr, he⟩ => ⟨r, h.fd.subset hr, he⟩) (fun ⟨r, hr, he⟩ => ⟨r, h.nonFd.subset hr, he⟩)

/-- What one call of the loop adds to the calls of each rule. -/
theorem Called.cases (h : Called calls l₀ w₀ l w) (hwf : l₀.Wf calls) (id : Nat) :
    (∃ n, callsOf id (calls w) = callsOf id (calls w₀) ++ List.replicate n .callback ∧
      (n = 0 ∨ l.Live w₀ id)) ∨
    (l₀.Live w₀ id ∧ id ∉ l.fdIds ++ l.nonFdIds ∧ ∃ failed : Bool, callsOf id (calls w) =
      callsOf id (calls w₀) ++ if failed then [.error, .cancel] else [.cancel]) := by
  obtain ⟨dropped, id', n, he, ⟨hc, -⟩, hn⟩ := h
  have hlive : n = 0 ∨ l.Live w₀ id' := hn.imp_right fun h => h.imp And.right And.right
  rw [hc, callsOf_append, callsOf_append]
  by_cases hmem : id ∈ dropped.map Prod.fst
  · obtain ⟨e, he', rfl⟩ := List.mem_map.1 hmem
    obtain ⟨⟨r, hr, hid, hreq⟩, hgone⟩ := he.apart e he'
    have hnot : e.1 ∉ l.fdIds ++ l.nonFdIds := by
      rw [List.mem_append, not_or]
      refine ⟨hgone, fun hm => ?_⟩
      have hm' : e.1 ∈ l₀.nonFdIds := (he.nonFd.map _).subset hm
      have hfd : e.1 ∈ l₀.fdIds := hid ▸ List.mem_map_of_mem hr
      exact (List.nodup_append.1 hwf.nodup).2.2 _ hfd _ hm' rfl
    refine .inr ⟨.inl ⟨r, hr, hid, hreq⟩, hnot, e.2, ?_⟩
    have hserved : callsOf e.1 (List.replicate n ⟨id', .callback⟩) = [] := by
      rcases hlive with rfl | hl
      · rfl
      · exact callsOf_replicate_ne fun heq => hnot (heq ▸ hl.mem)
    rw [callsOf_over_of_mem he.nodup he', hserved, List.append_nil]
  · rw [callsOf_over_of_not_mem hmem, List.nil_append]
    refine .inl ?_
    by_cases heq : id' = id
    · subst heq
      exact ⟨n, by rw [callsOf_replicate_self], hlive⟩
    · exact ⟨0, by rw [callsOf_replicate_ne heq]; rfl, .inl rfl⟩

theorem Called.running (h : Called calls l₀ w₀ l w) (hr : Running calls l₀ w₀) :
    Running calls l w := by
  have hcalled := h
  obtain ⟨dropped, -, -, he, -⟩ := hcalled
  refine ⟨he.wf hr.wf, fun id hid => ?_, fun id => ?_⟩
  · have hold : id ∉ l₀.fdIds ++ l₀.nonFdIds := by
      intro hm
      have := hr.wf.lt id hm
      have := he.allocated
      omega
    rcases h.cases hr.wf id with ⟨n, hc, rfl | hl⟩ | ⟨hl, -⟩
    · rw [hc, hr.fresh id (by have := he.allocated; omega)]; rfl
    · exact absurd (he.ids.subset hl.mem) hold
    · exact absurd hl.mem hold
  · rcases h.cases hr.wf id with ⟨n, hc, hn⟩ | ⟨hl, hnot, failed, hc⟩
    · rcases hn with rfl | hl
      · rw [hc, List.replicate_zero, List.append_nil]
        exact (hr.ends id).mono fun hg hm => hg (he.ids.subset hm)
      · obtain ⟨m, hm⟩ := (hr.ends id).eq_of_not (not_not_intro (he.ids.subset hl.mem))
        rw [hc, hm, ← List.replicate_add]
        exact .open _
    · obtain ⟨m, hm⟩ := (hr.ends id).eq_of_not (not_not_intro hl.mem)
      rw [hc, hm]
      cases failed with
      | true => exact .failed m hnot
      | false => exact .cancelled m hnot

theorem not_live_adds (hl : ¬ l.Live w id) (ha : Adds calls w [] w') :
    ¬ l.Live w' id ∧ callsOf id (calls w') = callsOf id (calls w) :=
  ⟨fun hl' => hl (hl'.of_adds ha), by rw [ha.calls, List.append_nil]⟩

/-- A rule whose handle has been used before the call is not called in it. -/
theorem Called.not_live (h : Called calls l₀ w₀ l w) (hwf : l₀.Wf calls) (hl : ¬ l₀.Live w₀ id) :
    ¬ l.Live w id ∧ callsOf id (calls w) = callsOf id (calls w₀) := by
  have hcalled := h
  obtain ⟨_, _, _, he, hc, -⟩ := hcalled
  refine ⟨fun hl' => hl ((he.live hl').of_adds hc), ?_⟩
  rcases h.cases hwf id with ⟨n, hc, rfl | hn⟩ | ⟨hn, -⟩
  · rw [hc, List.replicate_zero, List.append_nil]
  · exact absurd (he.live hn) hl
  · exact absurd hn hl

/-- A rule has been added, under an id that had not been given out. -/
structure Added (l l' : EventLoop σ) : Prop where
  ids : (l'.fdIds ++ l'.nonFdIds).Perm (l.allocated :: (l.fdIds ++ l.nonFdIds))
  allocated : l'.allocated = l.allocated + 1
  live : ∀ w id, l'.Live w id → l.Live w id ∨ id = l.allocated

theorem addFdRule_added {categoryId : Nat} {fd : σ → FDWrapper} {direction : Direction}
    {callback cancel error : Act σ Unit} {interest : σ → Bool} {handle : RuleHandle}
    (h : l.addFdRule categoryId fd direction callback interest cancel error = some (handle, l')) :
    Added l l' ∧ l'.nonFdRules = l.nonFdRules := by
  unfold addFdRule at h
  split at h
  · cases h
  obtain ⟨-, rfl⟩ := Prod.mk.inj (Option.some.inj h)
  refine ⟨⟨?_, rfl, fun w id hl => ?_⟩, rfl⟩
  · unfold fdIds
    rw [List.map_append, List.map_singleton, List.append_assoc]
    exact List.perm_middle
  · rcases hl with ⟨r, hr, hid, hreq⟩ | hl
    · rcases List.mem_append.1 hr with hr | hr
      · exact .inl (.inl ⟨r, hr, hid, hreq⟩)
      · rw [List.mem_singleton.1 hr] at hid
        exact .inr hid.symm
    · exact .inl (.inr hl)

theorem addRule_added {categoryId : Nat} {callback : Act σ Unit} {interest : σ → Bool}
    {handle : RuleHandle} (h : l.addRule categoryId callback interest = some (handle, l')) :
    Added l l' ∧ l'.fdRules = l.fdRules := by
  unfold addRule at h
  split at h
  · cases h
  obtain ⟨-, rfl⟩ := Prod.mk.inj (Option.some.inj h)
  refine ⟨⟨?_, rfl, fun w id hl => ?_⟩, rfl⟩
  · unfold nonFdIds
    rw [List.map_append, List.map_singleton, ← List.append_assoc]
    exact List.perm_append_singleton ..
  · rcases hl with hl | ⟨r, hr, hid, hreq⟩
    · exact .inl (.inl hl)
    · rcases List.mem_append.1 hr with hr | hr
      · exact .inl (.inr ⟨r, hr, hid, hreq⟩)
      · rw [List.mem_singleton.1 hr] at hid
        exact .inr hid.symm

theorem Added.running (ha : Added l l') (h : Running calls l w)
    (hfd : ∀ r ∈ l'.fdRules, r.Recorded calls) (hnon : ∀ r ∈ l'.nonFdRules, r.Recorded calls) :
    Running calls l' w := by
  have hnot : l.allocated ∉ l.fdIds ++ l.nonFdIds := fun hm => Nat.lt_irrefl _ (h.wf.lt _ hm)
  refine ⟨⟨hfd, hnon, ?_, fun id hid => ?_⟩, fun id hid => ?_, fun id => ?_⟩
  · exact ha.ids.nodup_iff.2 (List.nodup_cons.2 ⟨hnot, h.wf.nodup⟩)
  · rw [ha.allocated]
    rcases List.mem_cons.1 (ha.ids.mem_iff.1 hid) with rfl | hid
    · exact Nat.lt_succ_self _
    · exact Nat.lt_succ_of_lt (h.wf.lt id hid)
  · rw [ha.allocated] at hid
    exact h.fresh id (by omega)
  · by_cases hid : id = l.allocated
    · rw [h.fresh id (Nat.le_of_eq hid.symm)]
      exact .open 0
    · refine (h.ends id).mono fun hg hm => ?_
      rcases List.mem_cons.1 (ha.ids.mem_iff.1 hm) with heq | hm
      · exact hid heq
      · exact hg hm

/-- What happens between two calls of the loop. -/
theorem Running.adds (h : Running calls l w) (ha : Adds calls w [] w') : Running calls l w' := by
  have hc : calls w' = calls w := ha.calls.trans (List.append_nil _)
  exact ⟨h.wf, fun id hid => hc ▸ h.fresh id hid, fun id => hc ▸ h.ends id⟩

variable [Poller σ]

/-- A wait is a call of the loop, whether it returns or throws. -/
theorem called_of_wait (hs : Poller.Silent calls) (hwf : l.Wf calls) {timeoutMs : Int}
    {s' : EventLoop σ × σ} (h : (∃ result, waitNextEvent timeoutMs (l, w) = .ok result s') ∨
      ∃ e, waitNextEvent timeoutMs (l, w) = .error e s') : Called calls l w s'.1 s'.2 := by
  have hw := (Asking.keeps hs hwf w).wp_wait timeoutMs
    ⟨Quiet.refl calls l w, List.forall_mem_nil _⟩
  unfold Act.wp at hw
  rcases h with ⟨result, heq⟩ | ⟨e, heq⟩
  · rw [heq] at hw
    cases result with
    | Success => exact hw.elim (Exists.elim · fun _ h => h.1.called) id
    | Timeout => exact hw.elim fun _ h => h.1.called
    | Exit => exact hw.1.called
  · rw [heq] at hw
    exact hw

/-- However a call of the loop ends, it has called back at most one rule, one with a descriptor only
once, and only to return `Success` or to fail; the rules that it gave up have been told so, unless
their handles have been used. The closures may use handles in it. -/
theorem wait_calls (hs : Poller.Silent calls) (hwf : l.Wf calls) (timeoutMs : Int) :
    (waitNextEvent timeoutMs).wp
      (fun result s => Called calls l w s.1 s.2 ∧ (result ≠ .Success → Quiet calls l w s.1 s.2))
      (fun _ s => Called calls l w s.1 s.2) (l, w) := by
  have hi : Asking calls l w [] l w := ⟨Quiet.refl calls l w, List.forall_mem_nil _⟩
  refine Act.wp_mono ((Asking.keeps hs hwf w).wp_wait timeoutMs hi) ?_ fun _ _ h => h
  rintro (_ | _ | _) s h
  · exact ⟨h.elim (Exists.elim · fun _ h => h.1.called) id, fun hne => absurd rfl hne⟩
  · obtain ⟨-, h, -⟩ := h
    exact ⟨h.called, fun _ => h⟩
  · exact ⟨h.1.called, fun _ => h.1⟩

theorem Running.step (hs : Poller.Silent calls) {s s' : EventLoop σ × σ} (h : Running calls s.1 s.2)
    (hstep : LoopStep calls s s') : Running calls s'.1 s'.2 := by
  cases hstep with
  | category hc =>
    obtain ⟨hfd, hnon, hall⟩ := addCategory_eq hc
    refine ⟨⟨hfd ▸ h.wf.fd, hnon ▸ h.wf.nonFd, ?_, ?_⟩, hall ▸ h.fresh, ?_⟩
    · unfold fdIds nonFdIds; rw [hfd, hnon]; exact h.wf.nodup
    · unfold fdIds nonFdIds; rw [hfd, hnon, hall]; exact h.wf.lt
    · unfold fdIds nonFdIds; rw [hfd, hnon]; exact h.ends
  | fdRule hr ha =>
    obtain ⟨ha, hnon⟩ := addFdRule_added ha
    exact ha.running h hr (hnon ▸ h.wf.nonFd)
  | rule hr ha =>
    obtain ⟨ha, hfd⟩ := addRule_added ha
    exact ha.running h (hfd ▸ h.wf.fd) hr
  | request l handle hc => exact h.adds (hs.cancel hc)
  | world l ha => exact h.adds ha
  | returned hw => exact (called_of_wait hs h.wf (.inl ⟨_, hw⟩)).running h
  | failed hw => exact (called_of_wait hs h.wf (.inr ⟨_, hw⟩)).running h

/-- What is not live any more stays so, and is not called. -/
theorem Running.step_not_live (hs : Poller.Silent calls) {s s' : EventLoop σ × σ} {id : Nat}
    (h : Running calls s.1 s.2) (hstep : LoopStep calls s s') (hid : id < s.1.allocated)
    (hl : ¬ s.1.Live s.2 id) : id < s'.1.allocated ∧ ¬ s'.1.Live s'.2 id ∧
      callsOf id (calls s'.2) = callsOf id (calls s.2) := by
  have hcalled : Called calls s.1 s.2 s'.1 s'.2 → id < s'.1.allocated ∧ ¬ s'.1.Live s'.2 id ∧
      callsOf id (calls s'.2) = callsOf id (calls s.2) := by
    intro hc
    have hc' := hc
    obtain ⟨dropped, -, -, he, -⟩ := hc'
    exact ⟨he.allocated ▸ hid, hc.not_live h.wf hl⟩
  have hadd : Added s.1 s'.1 → id < s'.1.allocated ∧ ¬ s'.1.Live s.2 id := by
    intro ha
    refine ⟨by rw [ha.allocated]; omega, fun hl' => ?_⟩
    rcases ha.live s.2 id hl' with hl' | rfl
    · exact hl hl'
    · exact Nat.lt_irrefl _ hid
  cases hstep with
  | category hc =>
    obtain ⟨hfd, hnon, hall⟩ := addCategory_eq hc
    refine ⟨hall ▸ hid, fun hl' => hl ?_, rfl⟩
    unfold Live at hl' ⊢
    rwa [hfd, hnon] at hl'
  | fdRule hr ha =>
    obtain ⟨hlt, hnot⟩ := hadd (addFdRule_added ha).1
    exact ⟨hlt, hnot, rfl⟩
  | rule hr ha =>
    obtain ⟨hlt, hnot⟩ := hadd (addRule_added ha).1
    exact ⟨hlt, hnot, rfl⟩
  | request l handle hc => exact ⟨hid, not_live_adds hl (hs.cancel hc)⟩
  | world l ha => exact ⟨hid, not_live_adds hl ha⟩
  | returned hw => exact hcalled (called_of_wait hs h.wf (.inl ⟨_, hw⟩))
  | failed hw => exact hcalled (called_of_wait hs h.wf (.inr ⟨_, hw⟩))

end EventLoop

variable [Poller σ]

theorem LoopStep.running (hs : Poller.Silent calls) (h0 : calls w₀ = []) {s : EventLoop σ × σ}
    (hrun : Relation.ReflTransGen (LoopStep calls) ({}, w₀) s) : s.1.Running calls s.2 := by
  induction hrun with
  | refl =>
    refine ⟨⟨List.forall_mem_nil _, List.forall_mem_nil _, .nil, List.forall_mem_nil _⟩, ?_, ?_⟩
    · intro id _
      rw [h0]; rfl
    · intro id
      rw [h0]; exact .open 0
  | tail _ hstep ih => exact ih.step hs hstep

/-- The life of every rule, over any run: callbacks, and when the loop gives it up one call of `cancel`,
after one of `error` if it has failed. A rule that is gone or whose handle has been used, by a closure
or between two calls of the loop, is not called in any later call of the loop. -/
theorem rule_life (hs : Poller.Silent calls) (h0 : calls w₀ = [])
    (hrun : Relation.ReflTransGen (LoopStep calls) ({}, w₀) (l, w)) :
    (∀ id, EventLoop.Ends (id ∉ l.fdIds ++ l.nonFdIds) (callsOf id (calls w))) ∧
      ∀ s', Relation.ReflTransGen (LoopStep calls) (l, w) s' → ∀ id < l.allocated, ¬ l.Live w id →
        callsOf id (calls s'.2) = callsOf id (calls w) := by
  refine ⟨(LoopStep.running hs h0 hrun).ends, fun s' hrun' id hid hl => ?_⟩
  have hdead : id < s'.1.allocated ∧ ¬ s'.1.Live s'.2 id ∧
      callsOf id (calls s'.2) = callsOf id (calls w) := by
    induction hrun' with
    | refl => exact ⟨hid, hl, rfl⟩
    | @tail s s' hrun' hstep ih =>
      obtain ⟨hid, hl, hc⟩ := ih
      have hr := LoopStep.running hs h0 (hrun.trans hrun')
      obtain ⟨hid', hl', hc'⟩ := hr.step_not_live hs hstep hid hl
      exact ⟨hid', hl', hc'.trans hc⟩
  exact hdead.2.2

/-- A state that is nothing but a record, in which the first descriptor hangs up at first and all the
others can always be read. -/
structure Journal where
  calls : List RuleCall := []
  used : List Nat := []

instance : Poller Journal where
  poll _ _ w :=
    (.ready fun idx => if idx = 0 ∧ w.calls = [] then { hup := true } else { pollIn := true }, w)
  getsockopt _ w := (.notSocket, w)

instance : Handles Journal where
  cancelRequested id w := w.used.contains id
  request rule w := { w with used := rule :: w.used }
  requested _ _ _ := List.contains_cons

def Journal.append (w : Journal) (c : RuleCall) : Journal := { w with calls := w.calls ++ [c] }

def Journal.write (c : RuleCall) : Act Journal Unit := modify fun w => w.append c

theorem Journal.adds (w : Journal) (c : RuleCall) : Adds Journal.calls w [c] (w.append c) :=
  ⟨rfl, fun _ h => h⟩

theorem Journal.silent : Poller.Silent Journal.calls :=
  ⟨fun _ _ w => .refl _ w, fun _ w => .refl _ w, fun _ _ => rfl⟩

/-- A rule that uses the handle of the next one when it is cancelled. -/
def journalRule (id : Nat) : FDRule Journal where
  id := id
  categoryId := 0
  interest := fun _ => true
  callback := Journal.write ⟨id, .callback⟩
  fd := fun w => { fd := id, readCount := UInt32.ofNat w.calls.length }
  direction := .In
  cancel := do
    Journal.write ⟨id, .cancel⟩
    RuleHandle.cancel ⟨id + 1⟩
  error := Journal.write ⟨id, .error⟩

theorem journalRule_recorded (id : Nat) : (journalRule id).Recorded Journal.calls :=
  ⟨⟨fun w => w.adds _⟩, fun w => (w.adds _).trans (Journal.silent.cancel rfl), fun w => w.adds _⟩

def journalLoop : EventLoop Journal where
  ruleCategories := ["journal"]
  fdRules := [journalRule 0, journalRule 1]
  allocated := 2

theorem journalLoop_wf : journalLoop.Wf Journal.calls := by
  refine ⟨fun r hr => ?_, List.forall_mem_nil _, by decide, by decide⟩
  have hr' : r = journalRule 0 ∨ r = journalRule 1 := by simpa [journalLoop] using hr
  rcases hr' with rfl | rfl
  · exact journalRule_recorded 0
  · exact journalRule_recorded 1

/-- The first rule is given up, and its closure uses the handle of the second, which is called back all
the same: the flags are not looked at again. -/
theorem wait_calls_journal : ∃ s, EventLoop.waitNextEvent 10 (journalLoop, {}) = .ok .Success s ∧
    s.2.calls = [⟨0, .cancel⟩, ⟨1, .callback⟩] ∧ s.2.used = [1] ∧
      EventLoop.Called Journal.calls journalLoop {} s.1 s.2 := by
  have h := EventLoop.wait_calls Journal.silent journalLoop_wf (w := {}) 10
  exact ⟨_, rfl, rfl, rfl, h.1⟩

/-- Such a rule is not called again. -/
theorem rule_life_journal : ∃ s : EventLoop Journal × Journal,
    callsOf 0 s.2.calls = [.cancel] ∧ callsOf 1 s.2.calls = [.callback] ∧
    ∀ s', Relation.ReflTransGen (LoopStep Journal.calls) s s' →
      callsOf 1 s'.2.calls = [.callback] := by
  let l₀ : EventLoop Journal := { ruleCategories := ["journal"] }
  let l₁ : EventLoop Journal := { l₀ with fdRules := [journalRule 0], allocated := 1 }
  have hrule : ∀ r ∈ journalLoop.fdRules, r.Recorded Journal.calls := journalLoop_wf.fd
  have hcategory : LoopStep Journal.calls ({}, {}) (l₀, {}) :=
    .category (show EventLoop.addCategory {} "journal" = some (0, l₀) from rfl)
  have hadd : ∀ l l' : EventLoop Journal, ∀ id handle, (∀ r ∈ l'.fdRules, r ∈ journalLoop.fdRules) →
      l.addFdRule 0 (journalRule id).fd .In (journalRule id).callback (journalRule id).interest
        (journalRule id).cancel (journalRule id).error = some (handle, l') →
      LoopStep Journal.calls (l, {}) (l', {}) :=
    fun l l' id handle hr h => .fdRule (fun r hr' => hrule r (hr r hr')) h
  have hfirst := hadd l₀ l₁ 0 ⟨0⟩ (by simp [l₁, journalLoop]) rfl
  have hsecond := hadd l₁ journalLoop 1 ⟨1⟩ (fun _ h => h) rfl
  have hwait : LoopStep Journal.calls (journalLoop, {})
      ({ journalLoop with fdRules := [journalRule 1] }, ⟨[⟨0, .cancel⟩, ⟨1, .callback⟩], [1]⟩) :=
    .returned (show EventLoop.waitNextEvent 10 (journalLoop, {}) = .ok .Success _ from rfl)
  have hrun := (((Relation.ReflTransGen.single hcategory).tail hfirst).tail hsecond).tail hwait
  obtain ⟨-, hquiet⟩ := rule_life Journal.silent rfl hrun
  refine ⟨_, by decide, by decide, fun s' hs' => hquiet s' hs' 1 (by decide) ?_⟩
  rintro (⟨r, hr, -, hreq⟩ | ⟨r, hr, -⟩)
  · rw [List.mem_singleton.1 hr] at hreq
    cases hreq
  · cases hr

end Minnow
