import Mathlib.Logic.Basic

/-!
# How a call ends

A call on an object returns, throws, or runs into undefined behaviour. An exception leaves the
object as far as the call got; nothing is known of it after undefined behaviour.
-/

namespace Prog

inductive Exn
  | outOfRange
  | lengthError
  | runtimeError
deriving Repr, DecidableEq

inductive Undef
  | divByZero
  | pastEnd
  | emptyFront
  | noValue
deriving Repr, DecidableEq

inductive Outcome (σ : Type)
  | ok (s : σ)
  | throws (e : Exn) (s : σ)
  | undefined (u : Undef)
deriving Repr, DecidableEq

namespace Outcome
variable {σ τ : Type}

def map (f : σ → τ) : Outcome σ → Outcome τ
  | ok s => ok (f s)
  | throws e s => throws e (f s)
  | undefined u => undefined u

/-- Go on with `f` where `o` returned. -/
def bind (o : Outcome σ) (f : σ → Outcome σ) : Outcome σ :=
  match o with
  | ok s => f s
  | throws e s => throws e s
  | undefined u => undefined u

/-- The state the caller finds the object in, whether or not it had to catch an exception. -/
def Leaves (o : Outcome σ) (s : σ) : Prop :=
  o = ok s ∨ ∃ e, o = throws e s

@[simp] theorem leaves_ok {s s' : σ} : (ok s).Leaves s' ↔ s' = s := by
  simp [Leaves, eq_comm]

@[simp] theorem leaves_throws {e : Exn} {s s' : σ} : (throws e s).Leaves s' ↔ s' = s := by
  simp [Leaves, eq_comm]

@[simp] theorem not_leaves_undefined {u : Undef} {s : σ} : ¬ (undefined u).Leaves s := by
  simp [Leaves]

theorem Leaves.unique {o : Outcome σ} {s s' : σ} (h : o.Leaves s) (h' : o.Leaves s') : s = s' := by
  cases o with
  | ok t => rw [leaves_ok.1 h, leaves_ok.1 h']
  | throws e t => rw [leaves_throws.1 h, leaves_throws.1 h']
  | undefined u => exact absurd h not_leaves_undefined

theorem leaves_map {f : σ → τ} {o : Outcome σ} {t : τ} :
    (o.map f).Leaves t ↔ ∃ s, o.Leaves s ∧ t = f s := by
  cases o <;> simp [map]

theorem map_eq_ok {f : σ → τ} {o : Outcome σ} {t : τ} :
    o.map f = ok t ↔ ∃ s, o = ok s ∧ f s = t := by
  cases o <;> simp [map]

theorem map_eq_throws {f : σ → τ} {o : Outcome σ} {e : Exn} {t : τ} :
    o.map f = throws e t ↔ ∃ s, o = throws e s ∧ f s = t := by
  cases o <;> simp [map, and_assoc]

theorem leaves_bind {f : σ → Outcome σ} {o : Outcome σ} {t : σ} :
    (o.bind f).Leaves t ↔ (∃ s, o = ok s ∧ (f s).Leaves t) ∨ ∃ e, o = throws e t := by
  cases o <;> simp [bind, eq_comm]

end Outcome

end Prog
