import Mathlib.Data.List.Forall2
import Minnow.FileDescriptor

/-!
# The event loop (`eventloop.cc`)

A loop serves rules over a state `σ` that their closures read and change. What a call of
`waitNextEvent` can do to the rules and to the state is said once (`EventLoop.wp_wait`): an invariant
that the closures keep, and that survives the erasure of the rules that are cancelled, holds after it.
-/

namespace Minnow
open Prog

/-- `id` tells the allocations of the rules apart. -/
structure BasicRule (σ : Type) where
  id : Nat
  categoryId : Nat
  interest : σ → Bool
  callback : Act σ Unit

/-- `fd` finds the descriptor's wrapper in the state. -/
structure FDRule (σ : Type) extends BasicRule σ where
  fd : σ → FDWrapper
  direction : Direction
  cancel : Act σ Unit
  error : Act σ Unit

/-- The system calls of the loop itself, in the state of its rules. -/
class Poller (σ : Type) where
  poll : List PollFd → Int → σ → PollAnswer × σ
  getsockopt : Nat → σ → SockOpt × σ

/-- Which rules are to be cancelled. The flags are kept in the state so that closures can use
handles. -/
class Flags (σ : Type) where
  cancelRequested : Nat → σ → Bool

/-- The flags are set by handles, and never taken back. -/
class Handles (σ : Type) extends Flags σ where
  request : Nat → σ → σ
  requested (rule id : Nat) (w : σ) :
    cancelRequested id (request rule w) = (decide (id = rule) || cancelRequested id w)

structure EventLoop (σ : Type) where
  ruleCategories : List String := []
  fdRules : List (FDRule σ) := []
  nonFdRules : List (BasicRule σ) := []
  allocated : Nat := 0

/-- A weak pointer to a rule. -/
structure RuleHandle where
  rule : Nat

variable {σ : Type}

namespace EventLoop

inductive Result
  | Success
  | Timeout
  | Exit
deriving Repr, DecidableEq

/-- What the constructor reserves for the categories. -/
def maxCategories : Nat := 64

/-- `none`: an exception, when all that was reserved is taken. -/
def addCategory (l : EventLoop σ) (name : String) : Option (Nat × EventLoop σ) :=
  if l.ruleCategories.length ≥ maxCategories then none
  else some (l.ruleCategories.length, { l with ruleCategories := l.ruleCategories ++ [name] })

theorem addCategory_eq {l l' : EventLoop σ} {name : String} {n : Nat}
    (h : l.addCategory name = some (n, l')) :
    l'.fdRules = l.fdRules ∧ l'.nonFdRules = l.nonFdRules ∧ l'.allocated = l.allocated := by
  unfold addCategory at h
  split at h
  · cases h
  · obtain ⟨-, rfl⟩ := Prod.mk.inj (Option.some.inj h)
    exact ⟨rfl, rfl, rfl⟩

/-- `none`: an exception, without such a category. -/
def addFdRule (l : EventLoop σ) (categoryId : Nat) (fd : σ → FDWrapper) (direction : Direction)
    (callback : Act σ Unit) (interest : σ → Bool) (cancel error : Act σ Unit) :
    Option (RuleHandle × EventLoop σ) :=
  if categoryId ≥ l.ruleCategories.length then none
  else some (⟨l.allocated⟩, { l with
    fdRules := l.fdRules ++
      [{ id := l.allocated, categoryId, interest, callback, fd, direction, cancel, error }]
    allocated := l.allocated + 1 })

/-- A category and a rule at the same time. -/
def addNamedFdRule (l : EventLoop σ) (name : String) (fd : σ → FDWrapper) (direction : Direction)
    (callback : Act σ Unit) (interest : σ → Bool) (cancel error : Act σ Unit) :
    Option (RuleHandle × EventLoop σ) := do
  let (categoryId, l) ← l.addCategory name
  l.addFdRule categoryId fd direction callback interest cancel error

def addRule (l : EventLoop σ) (categoryId : Nat) (callback : Act σ Unit) (interest : σ → Bool) :
    Option (RuleHandle × EventLoop σ) :=
  if categoryId ≥ l.ruleCategories.length then none
  else some (⟨l.allocated⟩, { l with
    nonFdRules := l.nonFdRules ++ [{ id := l.allocated, categoryId, interest, callback }]
    allocated := l.allocated + 1 })

end EventLoop

/-- `RuleHandle::cancel`. Once the rule is gone its flag is not looked at any more: ids are given out
once. -/
def RuleHandle.cancel [Handles σ] (h : RuleHandle) : Act σ Unit := modify (Handles.request h.rule)

def BasicRule.cancelRequested [Flags σ] (r : BasicRule σ) (w : σ) : Bool :=
  Flags.cancelRequested r.id w

/-! ### One rule -/

/-- The `while` loop for a rule without a descriptor, of which `left` more passes are allowed:
whether it has fired. -/
def BasicRule.serve (r : BasicRule σ) : (left : Nat) → (ruleFired : Bool) → Act σ Bool
  | 0, ruleFired => do
    if r.interest (← get) then throw (.exn .runtimeError)
    return ruleFired
  | left + 1, ruleFired => do
    if r.interest (← get) then
      r.callback
      r.serve left true
    else return ruleFired

namespace FDRule

def serviceCount (r : FDRule σ) (w : σ) : UInt32 :=
  match r.direction with
  | .In => (r.fd w).readCount
  | .Out => (r.fd w).writeCount

/-- A rule that `poll` found ready. It must do something for its descriptor. -/
def fire (r : FDRule σ) : Act σ Unit := do
  let countBefore := r.serviceCount (← get)
  r.callback
  let w ← get
  if countBefore = r.serviceCount w ∧ (r.fd w).closed = false ∧ r.interest w = true then
    throw (.exn .runtimeError)

/-- A rule that `poll` found in error. -/
def fail [Poller σ] (r : FDRule σ) : Act σ Unit := do
  let w ← get
  let (answer, w) := Poller.getsockopt (r.fd w).fd w
  set w
  if answer = .failed ∨ answer = .badLength then throw (.exn .runtimeError)
  r.error
  r.cancel

def pollFd (r : FDRule σ) (w : σ) : PollFd :=
  ⟨(r.fd w).fd, if r.interest w then some r.direction else none⟩

/-- No more will be read or written. -/
def isOver (r : FDRule σ) (w : σ) : Bool :=
  (decide (r.direction = .In) && (r.fd w).eof) || (r.fd w).closed

end FDRule

namespace Revents

/-- What was asked for is there. -/
def pollReady (ev : Revents) (pfd : PollFd) : Bool :=
  match pfd.events with
  | none => false
  | some .In => ev.pollIn
  | some .Out => ev.pollOut

def pollError (ev : Revents) : Bool := ev.err || ev.nval

/-- The descriptor is defunct. -/
def pollHup (ev : Revents) (pfd : PollFd) (direction : Direction) : Bool :=
  ev.hup && ((pfd.events.isSome && !ev.pollReady pfd) || decide (direction = .Out))

end Revents

namespace EventLoop

/-! ### The passes over the rules, which leave the rules that are not erased -/

variable {ρ α β : Type}

/-- How a call on the rest of the rules ends, with a rule kept in front of them. -/
def keep (r : ρ) : EStateM.Result Fault (List ρ × σ) α → EStateM.Result Fault (List ρ × σ) α
  | .ok x (rules, w) => .ok x (r :: rules, w)
  | .error e (rules, w) => .error e (r :: rules, w)

/-- Goes on with `next` after a call for the first rule. If it fails the rules stay. -/
def after (rules : List ρ) (call : EStateM.Result Fault σ α)
    (next : α → σ → EStateM.Result Fault (List ρ × σ) β) : EStateM.Result Fault (List ρ × σ) β :=
  match call with
  | .ok x w => next x w
  | .error e w => .error e (rules, w)

/-- Rules without a descriptor: whether one has fired. -/
def serveNonFd [Flags σ] : List (BasicRule σ) → σ → EStateM.Result Fault (List (BasicRule σ) × σ) Bool
  | [], w => .ok false ([], w)
  | r :: rest, w =>
    if r.cancelRequested w then serveNonFd rest w
    else
      after (r :: rest) (r.serve 128 false w) fun ruleFired w =>
        if ruleFired then .ok true (r :: rest, w) else keep r (serveNonFd rest w)

/-- What `poll` is to be asked about the rules that are left. -/
def setUp [Flags σ] :
    List (FDRule σ) → σ → EStateM.Result Fault (List (FDRule σ) × σ) (List PollFd)
  | [], w => .ok [] ([], w)
  | r :: rest, w =>
    if r.cancelRequested w then setUp rest w
    else if r.isOver w then after (r :: rest) (r.cancel w) fun _ w => setUp rest w
    else
      match keep r (setUp rest w) with
      | .ok pollfds s => .ok (r.pollFd w :: pollfds) s
      | .error e s => .error e s

/-- The rules from number `idx` on with the results of `poll`. The flags are not looked at again. -/
def serveFd [Poller σ] (revents : Nat → Revents) :
    Nat → List PollFd → List (FDRule σ) → σ → EStateM.Result Fault (List (FDRule σ) × σ) Unit
  | _, _, [], w => .ok () ([], w)
  | _, [], rules, w => .error (.exn .outOfRange) (rules, w)
  | idx, pfd :: pollfds, r :: rest, w =>
    if (revents idx).pollError then
      after (r :: rest) (r.fail w) fun _ w => serveFd revents (idx + 1) pollfds rest w
    else if (revents idx).pollHup pfd r.direction then
      after (r :: rest) (r.cancel w) fun _ w => serveFd revents (idx + 1) pollfds rest w
    else if (revents idx).pollReady pfd then
      after (r :: rest) (r.fire w) fun _ w => .ok () (r :: rest, w)
    else keep r (serveFd revents (idx + 1) pollfds rest w)

def withFd (l : EventLoop σ) (rules : List (FDRule σ)) : EventLoop σ := { l with fdRules := rules }

def withNonFd (l : EventLoop σ) (rules : List (BasicRule σ)) : EventLoop σ :=
  { l with nonFdRules := rules }

/-- A pass over the rules without a descriptor. -/
def onNonFd (pass : List (BasicRule σ) → σ → EStateM.Result Fault (List (BasicRule σ) × σ) α) :
    Act (EventLoop σ × σ) α :=
  Act.zoom (fun s => (s.1.nonFdRules, s.2)) (fun t s => (s.1.withNonFd t.1, t.2))
    fun s => pass s.1 s.2

/-- A pass over the rules with a descriptor. -/
def onFd (pass : List (FDRule σ) → σ → EStateM.Result Fault (List (FDRule σ) × σ) α) :
    Act (EventLoop σ × σ) α :=
  Act.zoom (fun s => (s.1.fdRules, s.2)) (fun t s => (s.1.withFd t.1, t.2))
    fun s => pass s.1 s.2

def waitNextEvent [Poller σ] [Flags σ] (timeoutMs : Int) : Act (EventLoop σ × σ) Result := do
  if ← onNonFd serveNonFd then return .Success
  let pollfds ← onFd setUp
  if pollfds.all (·.events.isNone) then return .Exit
  let (l, w) ← get
  let (answer, w) := Poller.poll pollfds timeoutMs w
  set (l, w)
  match answer with
  | .failed => throw (.exn .runtimeError)
  | .timedOut => return .Timeout
  | .ready revents =>
    onFd (serveFd revents 0 pollfds)
    return .Success

/-! ### What a call can do -/

variable {rules : List ρ} {r : ρ} {Q : α → List ρ × σ → Prop} {E : Fault → List ρ × σ → Prop}

theorem ends_keep {x : EStateM.Result Fault (List ρ × σ) α} : Act.Ends (keep r x) Q E ↔
    Act.Ends x (fun a s => Q a (r :: s.1, s.2)) (fun e s => E e (r :: s.1, s.2)) := by
  cases x <;> rfl

theorem ends_after {call : EStateM.Result Fault σ β}
    {next : β → σ → EStateM.Result Fault (List ρ × σ) α} :
    Act.Ends (after rules call next) Q E ↔
      Act.Ends call (fun x w => Act.Ends (next x w) Q E) (fun e w => E e (rules, w)) := by
  cases call <;> rfl

theorem wp_onNonFd {pass : List (BasicRule σ) → σ → EStateM.Result Fault (List (BasicRule σ) × σ) α}
    {Q : α → EventLoop σ × σ → Prop} {E : Fault → EventLoop σ × σ → Prop} {l : EventLoop σ} {w : σ} :
    (onNonFd pass).wp Q E (l, w) ↔ Act.Ends (pass l.nonFdRules w)
      (fun x s => Q x (l.withNonFd s.1, s.2)) (fun e s => E e (l.withNonFd s.1, s.2)) :=
  Act.wp_zoom

theorem wp_onFd {pass : List (FDRule σ) → σ → EStateM.Result Fault (List (FDRule σ) × σ) α}
    {Q : α → EventLoop σ × σ → Prop} {E : Fault → EventLoop σ × σ → Prop} {l : EventLoop σ} {w : σ} :
    (onFd pass).wp Q E (l, w) ↔ Act.Ends (pass l.fdRules w)
      (fun x s => Q x (l.withFd s.1, s.2)) (fun e s => E e (l.withFd s.1, s.2)) :=
  Act.wp_zoom

/-- What `poll` was asked about a rule, which was interested or not. -/
def Asked (e : FDRule σ × Bool) (pfd : PollFd) : Prop :=
  pfd.events = if e.2 then some e.1.direction else none

/-- What the closures of the rules have to do for `I` to hold until `poll` is called, and then `K`.
`I done l w` may refer to the rules that have been set up for `poll` in this call, which stand in front
of the others in `l`, and to whether they were interested; `K found todo l w` to all that `poll` has
found, and to the rules for which it has not been looked at. A rule that has been served leaves `Q`, and
a fault leaves `E`. -/
structure Keeps [Poller σ] [Flags σ] (I : List (FDRule σ × Bool) → EventLoop σ → σ → Prop)
    (K : List Revents → List (FDRule σ × Bool) → EventLoop σ → σ → Prop) (Q : EventLoop σ → σ → Prop)
    (E : Fault → EventLoop σ → σ → Prop) : Prop where
  serve {l : EventLoop σ} {r : BasicRule σ} {w : σ} : r ∈ l.nonFdRules → r.cancelRequested w = false →
    I [] l w → (r.serve 128 false).wp
      (fun ruleFired w' => if ruleFired then Q l w' else I [] l w') (fun e w' => E e l w') w
  dropNonFd {l : EventLoop σ} {pre post : List (BasicRule σ)} {r : BasicRule σ} {w : σ} :
    I [] (l.withNonFd (pre ++ r :: post)) w → r.cancelRequested w = true →
      I [] (l.withNonFd (pre ++ post)) w
  dropFd {l : EventLoop σ} {done : List (FDRule σ × Bool)} {r : FDRule σ} {post : List (FDRule σ)}
    {w : σ} : I done (l.withFd (done.map Prod.fst ++ r :: post)) w → r.cancelRequested w = true →
      I done (l.withFd (done.map Prod.fst ++ post)) w
  atEnd {l : EventLoop σ} {done : List (FDRule σ × Bool)} {r : FDRule σ} {post : List (FDRule σ)}
    {w : σ} : I done (l.withFd (done.map Prod.fst ++ r :: post)) w → r.cancelRequested w = false →
      r.isOver w = true →
      r.cancel.wp (fun _ w' => I done (l.withFd (done.map Prod.fst ++ post)) w')
        (fun e w' => E e (l.withFd (done.map Prod.fst ++ r :: post)) w') w
  ask {l : EventLoop σ} {done : List (FDRule σ × Bool)} {r : FDRule σ} {post : List (FDRule σ)}
    {w : σ} : I done (l.withFd (done.map Prod.fst ++ r :: post)) w → r.cancelRequested w = false →
      r.isOver w = false →
      I (done ++ [(r, r.interest w)]) (l.withFd (done.map Prod.fst ++ r :: post)) w
  poll {l : EventLoop σ} {done : List (FDRule σ × Bool)} {w w' : σ} {pollfds : List PollFd}
    {timeoutMs : Int} {revents : Nat → Revents} : I done l w →
      Poller.poll pollfds timeoutMs w = (.ready revents, w') →
        K ((PollAnswer.ready revents).found pollfds.length) done l w'
  pollTimedOut {l : EventLoop σ} {done : List (FDRule σ × Bool)} {w w' : σ} {pollfds : List PollFd}
    {timeoutMs : Int} : I done l w → Poller.poll pollfds timeoutMs w = (.timedOut, w') → I done l w'
  pollFailed {l : EventLoop σ} {done : List (FDRule σ × Bool)} {w w' : σ} {pollfds : List PollFd}
    {timeoutMs : Int} : I done l w → Poller.poll pollfds timeoutMs w = (.failed, w') →
      E (.exn .runtimeError) l w'
  fail {l : EventLoop σ} {found : List Revents} {pre : List (FDRule σ)} {e : FDRule σ × Bool}
    {todo : List (FDRule σ × Bool)} {w : σ} :
    K found (e :: todo) (l.withFd (pre ++ e.1 :: todo.map Prod.fst)) w →
      (∃ ev ∈ found, ev.pollError = true) →
      e.1.fail.wp (fun _ w' => K found todo (l.withFd (pre ++ todo.map Prod.fst)) w')
        (fun x w' => E x (l.withFd (pre ++ e.1 :: todo.map Prod.fst)) w') w
  hup {l : EventLoop σ} {found : List Revents} {pre : List (FDRule σ)} {e : FDRule σ × Bool}
    {todo : List (FDRule σ × Bool)} {w : σ} :
    K found (e :: todo) (l.withFd (pre ++ e.1 :: todo.map Prod.fst)) w →
      (∃ ev ∈ found, ev.hup = true) →
      e.1.cancel.wp (fun _ w' => K found todo (l.withFd (pre ++ todo.map Prod.fst)) w')
        (fun x w' => E x (l.withFd (pre ++ e.1 :: todo.map Prod.fst)) w') w
  pass {l : EventLoop σ} {found : List Revents} {e : FDRule σ × Bool}
    {todo : List (FDRule σ × Bool)} {w : σ} : K found (e :: todo) l w → K found todo l w
  fire {l : EventLoop σ} {found : List Revents} {pre : List (FDRule σ)} {r : FDRule σ}
    {todo : List (FDRule σ × Bool)} {w : σ} :
    K found ((r, true) :: todo) (l.withFd (pre ++ r :: todo.map Prod.fst)) w →
      r.fire.wp (fun _ w' => Q (l.withFd (pre ++ r :: todo.map Prod.fst)) w')
        (fun e w' => E e (l.withFd (pre ++ r :: todo.map Prod.fst)) w') w

theorem pollReady_asked {ev : Revents} {e : FDRule σ × Bool} {pfd : PollFd}
    (h : ev.pollReady pfd = true) (ha : Asked e pfd) : e = (e.1, true) := by
  obtain ⟨r, b⟩ := e
  cases b with
  | true => rfl
  | false =>
    have hnone : pfd.events = none := ha
    rw [Revents.pollReady, hnone] at h
    cases h

theorem eq_map_of_asked {new : List (FDRule σ × Bool)} {pollfds : List PollFd}
    (hall : List.Forall₂ Asked new pollfds) (hnone : (pollfds.all (·.events.isNone)) = true) :
    new = (new.map Prod.fst).map fun r => (r, false) := by
  induction hall with
  | nil => rfl
  | @cons e pfd new pollfds ha _ ih =>
    rw [List.all_cons, Bool.and_eq_true, Option.isNone_iff_eq_none] at hnone
    rw [List.map_cons, List.map_cons, ← ih hnone.2]
    obtain ⟨r, b⟩ := e
    cases b with
    | false => rfl
    | true =>
      have hsome : pfd.events = some r.direction := ha
      rw [hsome] at hnone
      cases hnone.1

theorem sublist_insert (r : ρ) (pre post : List ρ) :
    (pre ++ post).Sublist (pre ++ r :: post) := (List.sublist_cons_self r post).append_left pre

/-- The rule in the middle of a list of rules `rule k`. -/
theorem split_rules {ι : Type} {rule : ι → FDRule σ} {ks : List ι} {pre post : List (FDRule σ)}
    {r : FDRule σ} (h : pre ++ r :: post = ks.map rule) :
    ∃ ks₁ k ks₂, ks = ks₁ ++ k :: ks₂ ∧ pre = ks₁.map rule ∧ r = rule k ∧ post = ks₂.map rule := by
  obtain ⟨ks₁, rest, rfl, rfl, hrest⟩ := List.map_eq_append_iff.1 h.symm
  obtain ⟨k, ks₂, rfl, rfl, rfl⟩ := List.map_eq_cons_iff.1 hrest
  exact ⟨ks₁, k, ks₂, rfl, rfl, rfl, rfl⟩

theorem mem_rules {ι : Type} {rule : ι → FDRule σ} (hinj : ∀ k k', rule k = rule k' → k = k')
    {ks : List ι} {es : List (FDRule σ × Bool)} {k : ι} {b : Bool}
    (h : es.map Prod.fst = ks.map rule) (hk : (rule k, b) ∈ es) : k ∈ ks := by
  have hmem := List.mem_map_of_mem (f := Prod.fst) hk
  rw [h] at hmem
  obtain ⟨k', hk', heq⟩ := List.mem_map.1 hmem
  rwa [← hinj _ _ heq]

variable [Poller σ] [Flags σ] {I : List (FDRule σ × Bool) → EventLoop σ → σ → Prop}
  {K : List Revents → List (FDRule σ × Bool) → EventLoop σ → σ → Prop} {J : EventLoop σ → σ → Prop}
  {F : Fault → EventLoop σ → σ → Prop} {l : EventLoop σ} {w : σ}

theorem Keeps.serveNonFd (hk : Keeps I K J F) {rules : List (BasicRule σ)}
    (pre : List (BasicRule σ)) (hi : I [] (l.withNonFd (pre ++ rules)) w) :
    Act.Ends (EventLoop.serveNonFd rules w)
      (fun ruleFired s => if ruleFired then J (l.withNonFd (pre ++ s.1)) s.2
        else I [] (l.withNonFd (pre ++ s.1)) s.2)
      (fun e s => F e (l.withNonFd (pre ++ s.1)) s.2) := by
  induction rules generalizing pre w with
  | nil => exact hi
  | cons r rest ih =>
    rw [EventLoop.serveNonFd]
    split
    next hreq => exact ih pre (hk.dropNonFd hi hreq)
    next hreq =>
    rw [ends_after]
    have hmem : r ∈ (l.withNonFd (pre ++ r :: rest)).nonFdRules :=
      List.mem_append_right _ (List.mem_cons_self ..)
    refine (hk.serve hmem (by simpa using hreq) hi).mono ?_ (fun e w' h => h)
    rintro (_ | _) w' h
    · -- it has not fired, and is kept
      show Act.Ends (keep r (EventLoop.serveNonFd rest w')) _ _
      rw [ends_keep]
      rw [List.append_cons] at h
      refine (ih _ h).mono ?_ ?_
      · intro ruleFired s hs
        rwa [List.append_cons]
      · intro e s hs
        rwa [List.append_cons]
    · exact h

/-- The rules that are left have all been set up. -/
theorem Keeps.setUp (hk : Keeps I K J F) {rules : List (FDRule σ)} (done : List (FDRule σ × Bool))
    (hi : I done (l.withFd (done.map Prod.fst ++ rules)) w) :
    Act.Ends (EventLoop.setUp rules w)
      (fun pollfds s => ∃ new : List (FDRule σ × Bool), s.1 = new.map Prod.fst ∧
        I (done ++ new) (l.withFd ((done ++ new).map Prod.fst)) s.2 ∧ List.Forall₂ Asked new pollfds)
      (fun e s => F e (l.withFd (done.map Prod.fst ++ s.1)) s.2) := by
  induction rules generalizing done w with
  | nil => exact ⟨[], rfl, by simpa using hi, .nil⟩
  | cons r rest ih =>
    rw [EventLoop.setUp]
    split
    next hreq => exact ih done (hk.dropFd hi hreq)
    next hreq =>
    have hreq' : r.cancelRequested w = false := by simpa using hreq
    split
    next hover =>
      rw [ends_after]
      exact (hk.atEnd hi hreq' hover).mono (fun _ w' hi' => ih done hi') (fun e w' h => h)
    next hover =>
      have hover' : r.isOver w = false := by simpa using hover
      have hi' := hk.ask hi hreq' hover'
      have hmap : (done ++ [(r, r.interest w)]).map Prod.fst = done.map Prod.fst ++ [r] := by simp
      rw [List.append_cons (done.map Prod.fst), ← hmap] at hi'
      have h := ih _ hi'
      cases hset : EventLoop.setUp rest w with
      | ok pollfds s =>
        rw [hset] at h
        obtain ⟨new, hs, hi'', hall⟩ := h
        refine ⟨(r, r.interest w) :: new, by rw [hs]; rfl, ?_, .cons rfl hall⟩
        rwa [List.append_cons]
      | error e s =>
        rw [hset, hmap] at h
        show F e (l.withFd (done.map Prod.fst ++ r :: s.1)) s.2
        rw [List.append_cons]
        exact h

theorem Keeps.serveFd (hk : Keeps I K J F) {todo : List (FDRule σ × Bool)} {pollfds : List PollFd}
    {revents : Nat → Revents} {found : List Revents} {idx : Nat} (pre : List (FDRule σ))
    (hfound : ∀ i < idx + pollfds.length, revents i ∈ found)
    (hi : K found todo (l.withFd (pre ++ todo.map Prod.fst)) w)
    (hall : List.Forall₂ Asked todo pollfds) :
    Act.Ends (EventLoop.serveFd revents idx pollfds (todo.map Prod.fst) w)
      (fun _ s => K found [] (l.withFd (pre ++ s.1)) s.2 ∨ J (l.withFd (pre ++ s.1)) s.2)
      (fun e s => F e (l.withFd (pre ++ s.1)) s.2) := by
  induction todo generalizing pre pollfds idx w with
  | nil =>
    cases hall
    exact .inl hi
  | cons e todo ih =>
    cases hall with
    | @cons _ pfd _ pollfds hpfd hall =>
    have hhere : revents idx ∈ found := hfound idx (by rw [List.length_cons]; omega)
    have hrest : ∀ i < idx + 1 + pollfds.length, revents i ∈ found := fun i hlt =>
      hfound i (by rw [List.length_cons]; omega)
    rw [List.map_cons, EventLoop.serveFd]
    split
    next herr =>
      rw [ends_after]
      exact (hk.fail hi ⟨_, hhere, herr⟩).mono (fun _ w' hi' => ih pre hrest hi' hall)
        (fun x w' h => h)
    split
    next hhup =>
      have hev : (revents idx).hup = true := (Bool.and_eq_true _ _ ▸ hhup).1
      rw [ends_after]
      exact (hk.hup hi ⟨_, hhere, hev⟩).mono (fun _ w' hi' => ih pre hrest hi' hall)
        (fun x w' h => h)
    split
    next hready =>
      rw [pollReady_asked hready hpfd] at hi
      rw [ends_after]
      exact (hk.fire hi).mono (fun _ w' h => .inr h) (fun x w' h => h)
    next =>
      rw [ends_keep]
      rw [List.map_cons, List.append_cons] at hi
      refine (ih _ hrest (hk.pass hi) hall).mono ?_ ?_
      · intro _ s hs
        rwa [List.append_cons]
      · intro x s hs
        rwa [List.append_cons]

/-- What a call leaves, if it returns: nothing was served, or one rule was. When the loop is to be left
no rule was interested. -/
def Waited (I : List (FDRule σ × Bool) → EventLoop σ → σ → Prop)
    (K : List Revents → List (FDRule σ × Bool) → EventLoop σ → σ → Prop) (Q : EventLoop σ → σ → Prop)
    (result : Result) (s : EventLoop σ × σ) : Prop :=
  match result with
  | .Exit => I (s.1.fdRules.map fun r => (r, false)) s.1 s.2
  | .Timeout => ∃ done, I done s.1 s.2
  | .Success => (∃ found, K found [] s.1 s.2) ∨ Q s.1 s.2

/-- One call of the loop. -/
theorem Keeps.wp_wait (hk : Keeps I K J F) (timeoutMs : Int) (hi : I [] l w) :
    (waitNextEvent timeoutMs).wp (Waited I K J) (fun e s => F e s.1 s.2) (l, w) := by
  unfold waitNextEvent
  rw [Act.wp_bind, wp_onNonFd]
  refine (hk.serveNonFd (l := l) [] hi).mono ?_ (fun e s h => h)
  rintro (_ | _) ⟨nonFd, w₁⟩ h
  · change I [] (l.withNonFd nonFd) w₁ at h
    generalize l.withNonFd nonFd = l₁ at h
    simp only [Bool.false_eq_true, if_false]
    rw [Act.wp_bind, wp_onFd]
    refine (hk.setUp (l := l₁) [] h).mono ?_ (fun e s h => h)
    rintro pollfds ⟨rules, w₂⟩ ⟨new, hs, hi₂, hall⟩
    dsimp only at hs
    subst hs
    change I new (l₁.withFd (new.map Prod.fst)) w₂ at hi₂
    dsimp only
    split
    next hnone =>
      show I ((new.map Prod.fst).map fun r => (r, false)) (l₁.withFd (new.map Prod.fst)) w₂
      rw [← eq_map_of_asked hall hnone]
      exact hi₂
    next hnone =>
      have hfailed : ∀ w', Poller.poll pollfds timeoutMs w₂ = (.failed, w') →
          F (.exn .runtimeError) (l₁.withFd (new.map Prod.fst)) w' := fun _ h => hk.pollFailed hi₂ h
      have htimedOut : ∀ w', Poller.poll pollfds timeoutMs w₂ = (.timedOut, w') →
          I new (l₁.withFd (new.map Prod.fst)) w' := fun _ h => hk.pollTimedOut hi₂ h
      have hready : ∀ w' revents, Poller.poll pollfds timeoutMs w₂ = (.ready revents, w') →
          K ((PollAnswer.ready revents).found pollfds.length) new (l₁.withFd (new.map Prod.fst)) w' :=
        fun _ _ h => hk.poll hi₂ h
      rw [Act.wp_bind, Act.wp_get]
      dsimp only
      generalize Poller.poll pollfds timeoutMs w₂ = polled at hfailed htimedOut hready ⊢
      obtain ⟨answer, w₃⟩ := polled
      rw [Act.wp_bind, Act.wp_set]
      cases answer with
      | failed => exact hfailed _ rfl
      | timedOut => exact ⟨_, htimedOut _ rfl⟩
      | ready revents =>
        rw [Act.wp_bind, wp_onFd]
        have hfound : ∀ i < 0 + pollfds.length,
            revents i ∈ (PollAnswer.ready revents).found pollfds.length :=
          fun i hlt => List.mem_map_of_mem (List.mem_range.2 (by omega))
        exact (hk.serveFd (l := l₁.withFd (new.map Prod.fst)) [] hfound (hready _ _ rfl) hall).mono
          (fun _ s h => h.imp_left fun h => ⟨_, h⟩) (fun e s h => h)
  · exact .inr h

end EventLoop

namespace FDRule

/-- A rule that is served must do something for its descriptor, close it or lose interest. -/
theorem wp_fire {r : FDRule σ} {Q : Unit → σ → Prop} {E : Fault → σ → Prop} {w : σ} :
    r.fire.wp Q E w ↔ r.callback.wp (fun _ w' =>
      if r.serviceCount w = r.serviceCount w' ∧ (r.fd w').closed = false ∧ r.interest w' = true then
        E (.exn .runtimeError) w'
      else Q () w') E w := by
  unfold fire
  simp

theorem wp_fail [Poller σ] {r : FDRule σ} {Q : Unit → σ → Prop} {E : Fault → σ → Prop} {w : σ} :
    r.fail.wp Q E w ↔
      let (answer, w) := Poller.getsockopt (r.fd w).fd w
      if answer = .failed ∨ answer = .badLength then E (.exn .runtimeError) w
      else r.error.wp (fun _ w' => r.cancel.wp Q E w') E w := by
  unfold fail
  simp

end FDRule

/-! ### What a call preserves -/

/-- All closures of the rules preserve `J`. -/
structure EventLoop.Preserving (J : σ → Prop) (l : EventLoop σ) : Prop where
  fd : ∀ r ∈ l.fdRules, r.callback.Preserves J ∧ r.cancel.Preserves J ∧ r.error.Preserves J
  nonFd : ∀ r ∈ l.nonFdRules, r.callback.Preserves J

/-- The loop's own system calls preserve `J`. -/
structure Poller.Preserves [Poller σ] (J : σ → Prop) : Prop where
  poll (pollfds : List PollFd) (timeoutMs : Int) (w : σ) : J w → J (Poller.poll pollfds timeoutMs w).2
  getsockopt (fd : Nat) (w : σ) : J w → J (Poller.getsockopt fd w).2

namespace EventLoop

variable {J : σ → Prop}

theorem preserves_serve {r : BasicRule σ} (h : r.callback.Preserves J) (left : Nat) (fired : Bool) :
    (r.serve left fired).Preserves J := by
  induction left generalizing fired with
  | zero =>
    unfold BasicRule.serve
    refine .bind Act.preserves_get fun w => .ite ?_ (Act.preserves_pure _)
    exact .bind (Act.preserves_throw _) fun _ => Act.preserves_pure _
  | succ left ih =>
    unfold BasicRule.serve
    refine .bind Act.preserves_get fun w => .ite ?_ (Act.preserves_pure _)
    exact .bind h fun _ => ih true

theorem Preserving.drop {l : EventLoop σ} {pre post : List (FDRule σ)} {r : FDRule σ}
    (h : Preserving J (l.withFd (pre ++ r :: post))) : Preserving J (l.withFd (pre ++ post)) :=
  ⟨fun x hx => h.fd x ((sublist_insert r pre post).subset hx), h.nonFd⟩

theorem Preserving.middle {l : EventLoop σ} {pre post : List (FDRule σ)} {r : FDRule σ}
    (h : Preserving J (l.withFd (pre ++ r :: post))) :
    r.callback.Preserves J ∧ r.cancel.Preserves J ∧ r.error.Preserves J :=
  h.fd r (List.mem_append_right _ (List.mem_cons_self ..))

variable [Poller σ] [Flags σ]

theorem Preserving.keeps (hp : Poller.Preserves J) :
    Keeps (fun _ l w => Preserving J l ∧ J w) (fun _ _ l w => Preserving J l ∧ J w)
      (fun l w => Preserving J l ∧ J w) (fun _ _ _ => True) where
  serve := by
    intro l r w hr _ hi
    refine Act.wp_mono (preserves_serve (hi.1.nonFd r hr) 128 false w hi.2) ?_ (fun _ _ h => h)
    intro ruleFired w' hw'
    split <;> exact ⟨hi.1, hw'⟩
  dropNonFd := by
    intro l pre post r w hi _
    exact ⟨⟨hi.1.fd, fun x hx => hi.1.nonFd x ((sublist_insert r pre post).subset hx)⟩, hi.2⟩
  dropFd := fun hi _ => ⟨hi.1.drop, hi.2⟩
  atEnd := fun hi _ _ =>
    Act.wp_mono (hi.1.middle.2.1 _ hi.2) (fun _ _ hw => ⟨hi.1.drop, hw⟩) fun _ _ h => h
  ask := fun hi _ _ => hi
  poll := by
    intro l done w w' pollfds timeoutMs revents hi heq
    have hw := hp.poll pollfds timeoutMs w hi.2
    rw [heq] at hw
    exact ⟨hi.1, hw⟩
  pollTimedOut := by
    intro l done w w' pollfds timeoutMs hi heq
    have hw := hp.poll pollfds timeoutMs w hi.2
    rw [heq] at hw
    exact ⟨hi.1, hw⟩
  pollFailed := fun _ _ => trivial
  fail := by
    intro l found pre e todo w hi _
    rw [FDRule.wp_fail]
    dsimp only
    split
    · trivial
    · have hw := hp.getsockopt (e.1.fd w).fd w hi.2
      refine Act.wp_mono (hi.1.middle.2.2 _ hw) (fun _ w' hw' => ?_) fun _ _ h => h
      exact Act.wp_mono (hi.1.middle.2.1 _ hw') (fun _ _ hw => ⟨hi.1.drop, hw⟩) fun _ _ h => h
  hup := fun hi _ =>
    Act.wp_mono (hi.1.middle.2.1 _ hi.2) (fun _ _ hw => ⟨hi.1.drop, hw⟩) fun _ _ h => h
  pass := id
  fire := by
    intro l found pre r todo w hi
    rw [FDRule.wp_fire]
    refine Act.wp_mono (hi.1.middle.1 _ hi.2) (fun _ w' hw' => ?_) fun _ _ h => h
    split
    · trivial
    · exact ⟨hi.1, hw'⟩

/-- What the closures of all rules preserve, a call of the loop preserves. -/
theorem preserves_wait (hp : Poller.Preserves J) (timeoutMs : Int) :
    (waitNextEvent timeoutMs).Preserves fun s : EventLoop σ × σ => Preserving J s.1 ∧ J s.2 := by
  intro s hs
  refine Act.wp_mono ((Preserving.keeps hp).wp_wait timeoutMs hs) (fun result t ht => ?_)
    fun _ _ h => h
  cases result with
  | Exit => exact ht
  | Timeout => exact ht.elim fun _ h => h
  | Success => exact ht.elim (Exists.elim · fun _ h => h) id

end EventLoop

end Minnow
