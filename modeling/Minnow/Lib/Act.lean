import Minnow.Lib.Outcome

/-!
# Calls that change a state

An `Act σ α` is a call that returns an `α`, throws, runs into undefined behaviour or does not come
back, and leaves a state of type `σ` behind in each case. `wp a Q E s` says that `a`, called in `s`,
returns with `Q` or fails with `E`; the lemmas tagged `simp` run a call symbolically.
-/

namespace Prog

/-- How a call ends that does not return. -/
inductive Fault
  | exn (e : Exn)
  | undef (u : Undef)
  | hang
deriving Repr, DecidableEq

/-- The fault of a call that does not return. -/
def Outcome.fault {σ : Type} : Outcome σ → Option Fault
  | .ok _ => none
  | .throws e _ => some (.exn e)
  | .undefined u => some (.undef u)

abbrev Act (σ α : Type) := EStateM Fault σ α

namespace Act
variable {σ τ α β : Type}

/-- The call has returned with `Q` or failed with `E`. -/
def Ends (r : EStateM.Result Fault σ α) (Q : α → σ → Prop) (E : Fault → σ → Prop) : Prop :=
  match r with
  | .ok x s => Q x s
  | .error e s => E e s

def wp (a : Act σ α) (Q : α → σ → Prop) (E : Fault → σ → Prop) (s : σ) : Prop := Ends (a s) Q E

/-- A call on a part of the state. -/
def zoom (part : σ → τ) (put : τ → σ → σ) (a : Act τ α) : Act σ α := fun s =>
  match a (part s) with
  | .ok x t => .ok x (put t s)
  | .error e t => .error e (put t s)

/-- What a call returns and leaves, if it returns. -/
def returned (a : Act σ α) (s : σ) : Option (α × σ) :=
  match a s with
  | .ok x t => some (x, t)
  | .error _ _ => none

variable {a : Act σ α} {f : α → Act σ β} {Q Q' : α → σ → Prop} {R : β → σ → Prop}
  {E E' : Fault → σ → Prop} {s : σ}

theorem Ends.mono {r : EStateM.Result Fault σ α} (h : Ends r Q E) (hQ : ∀ x s, Q x s → Q' x s)
    (hE : ∀ e s, E e s → E' e s) : Ends r Q' E' := by
  cases r with
  | ok x s => exact hQ x s h
  | error e s => exact hE e s h

theorem wp_mono (h : a.wp Q E s) (hQ : ∀ x s, Q x s → Q' x s) (hE : ∀ e s, E e s → E' e s) :
    a.wp Q' E' s := Ends.mono h hQ hE

theorem eq_ok_of_wp {x : α} {t : σ} (h : a.wp (fun y u => y = x ∧ u = t) (fun _ _ => False) s) :
    a s = .ok x t := by
  unfold wp Ends at h
  split at h
  next heq =>
    obtain ⟨rfl, rfl⟩ := h
    exact heq
  next => exact h.elim

theorem wp_of_ok {x : α} {t : σ} (h : a s = .ok x t) (hq : Q x t) : a.wp Q E s := by
  unfold wp
  rw [h]
  exact hq

theorem of_returned {x : α} {t : σ} (h : a.returned s = some (x, t)) : a s = .ok x t := by
  unfold returned at h
  split at h
  next heq =>
    cases h
    exact heq
  next => cases h

theorem exists_of_wp (h : a.wp Q (fun _ _ => False) s) : ∃ x t, a s = .ok x t ∧ Q x t := by
  unfold wp Ends at h
  split at h
  next heq => exact ⟨_, _, heq, h⟩
  next => exact h.elim

@[simp] theorem wp_pure (x : α) : (pure x : Act σ α).wp Q E s ↔ Q x s := Iff.rfl

@[simp] theorem wp_bind : (a >>= f).wp R E s ↔ a.wp (fun x s => (f x).wp R E s) E s := by
  show wp (EStateM.bind a f) R E s ↔ _
  unfold wp EStateM.bind Ends
  cases a s <;> rfl

@[simp] theorem wp_map (g : α → β) : (g <$> a).wp R E s ↔ a.wp (fun x => R (g x)) E s := by
  show wp (EStateM.map g a) R E s ↔ _
  unfold wp EStateM.map Ends
  cases a s <;> rfl

@[simp] theorem wp_get {Q : σ → σ → Prop} : (get : Act σ σ).wp Q E s ↔ Q s s := Iff.rfl

@[simp] theorem wp_set {Q : PUnit → σ → Prop} (t : σ) :
    (set t : Act σ PUnit).wp Q E s ↔ Q ⟨⟩ t := Iff.rfl

@[simp] theorem wp_modify {Q : Unit → σ → Prop} (g : σ → σ) :
    (modify g : Act σ Unit).wp Q E s ↔ Q () (g s) := Iff.rfl

@[simp] theorem wp_throw (e : Fault) : (throw e : Act σ α).wp Q E s ↔ E e s := Iff.rfl

@[simp] theorem wp_ite {c : Prop} [Decidable c] {a b : Act σ α} :
    (if c then a else b).wp Q E s ↔ if c then a.wp Q E s else b.wp Q E s := by
  split <;> rfl

@[simp] theorem wp_zoom {part : σ → τ} {put : τ → σ → σ} {a : Act τ α} :
    (zoom part put a).wp Q E s ↔
      a.wp (fun x t => Q x (put t s)) (fun e t => E e (put t s)) (part s) := by
  unfold wp zoom Ends
  cases a (part s) <;> rfl

/-! ### What calls preserve -/

/-- If `J` holds where `a` is called, it holds where `a` returns. -/
def Preserves (J : σ → Prop) (a : Act σ α) : Prop :=
  ∀ s, J s → a.wp (fun _ => J) (fun _ _ => True) s

variable {J : σ → Prop}

theorem Preserves.of_ok (h : a.Preserves J) {x : α} {t : σ} (hs : J s) (ha : a s = .ok x t) : J t := by
  have hw := h s hs
  unfold wp at hw
  rwa [ha] at hw

theorem preserves_pure (x : α) : (pure x : Act σ α).Preserves J := fun _ h => h

theorem preserves_get : (get : Act σ σ).Preserves J := fun _ h => h

theorem preserves_throw (e : Fault) : (throw e : Act σ α).Preserves J := fun _ _ => trivial

theorem preserves_modify {g : σ → σ} (h : ∀ s, J s → J (g s)) : (modify g : Act σ Unit).Preserves J :=
  h

theorem Preserves.bind (ha : a.Preserves J) (hf : ∀ x, (f x).Preserves J) :
    (a >>= f).Preserves J := by
  intro s hs
  rw [wp_bind]
  exact wp_mono (ha s hs) (fun x t ht => hf x t ht) fun _ _ h => h

theorem Preserves.ite {c : Prop} [Decidable c] {b : Act σ α} (ha : a.Preserves J)
    (hb : b.Preserves J) : (if c then a else b).Preserves J := by
  split
  · exact ha
  · exact hb

theorem preserves_zoom {part : σ → τ} {put : τ → σ → σ} {a : Act τ α}
    (h : ∀ s, J s → a.wp (fun _ t => J (put t s)) (fun _ _ => True) (part s)) :
    (zoom part put a).Preserves J := fun s hs => wp_zoom.2 (h s hs)

/-- A call that may return or fail anywhere. -/
theorem wp_of_forall {Q : α → σ → Prop} (h : ∀ x t, Q x t) : a.wp Q (fun _ _ => True) s := by
  unfold wp Ends
  split
  · exact h ..
  · trivial

end Act

end Prog
