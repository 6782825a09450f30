import Mathlib.Logic.Basic

/-!
# `while (true)` loops

One pass of a loop either goes round again, leaves with a result, or never comes back (an inner loop
that does not end). `loop body fuel s` runs at most `fuel` passes; `none` says that they did not
suffice. A property of everything a loop can return is proved from an invariant of one pass
(`loop_inv`), its termination from a measure (`loop_isSome`).
-/

namespace Prog

/-- What one pass through the body of a loop does. -/
inductive Ctl (σ ρ : Type)
  | next (s : σ)
  | exit (r : ρ)
  | spin

variable {σ ρ : Type}

/-- At most `fuel` passes of `body`, starting in `s`. -/
def loop (body : σ → Ctl σ ρ) : Nat → σ → Option ρ
  | 0, _ => none
  | fuel + 1, s =>
    match body s with
    | .next s' => loop body fuel s'
    | .exit r => some r
    | .spin => none

theorem loop_inv {body : σ → Ctl σ ρ} (Inv : σ → Prop) (Post : ρ → Prop)
    (hnext : ∀ s s', Inv s → body s = .next s' → Inv s')
    (hexit : ∀ s r, Inv s → body s = .exit r → Post r) :
    ∀ {fuel : Nat} {s : σ} {r : ρ}, Inv s → loop body fuel s = some r → Post r := by
  intro fuel
  induction fuel with
  | zero => intro s r _ h; simp [loop] at h
  | succ fuel ih =>
    intro s r hs h
    rw [loop] at h
    split at h
    · exact ih (hnext _ _ hs ‹_›) h
    · cases h; exact hexit _ _ hs ‹_›
    · cases h

/-- A pass that never comes back, however many are allowed. -/
theorem loop_spin {body : σ → Ctl σ ρ} {s : σ} (h : body s = .spin) :
    ∀ fuel, loop body fuel s = none
  | 0 => rfl
  | fuel + 1 => by rw [loop, h]

/-- A loop whose passes keep `Inv`, never hang and lower the measure `m` ends within `m s + 1`
passes. -/
theorem loop_isSome {body : σ → Ctl σ ρ} (Inv : σ → Prop) (m : σ → Nat)
    (hnext : ∀ s s', Inv s → body s = .next s' → Inv s' ∧ m s' < m s)
    (hspin : ∀ s, Inv s → body s ≠ .spin) :
    ∀ {fuel : Nat} {s : σ}, Inv s → m s < fuel → ∃ r, loop body fuel s = some r := by
  intro fuel
  induction fuel with
  | zero => intro s _ h; omega
  | succ fuel ih =>
    intro s hs hm
    rw [loop]
    split
    · obtain ⟨hs', hlt⟩ := hnext _ _ hs ‹_›
      exact ih hs' (by omega)
    · exact ⟨_, rfl⟩
    · exact absurd ‹_› (hspin _ hs)

/-- Total correctness: the loop ends, and what it returns satisfies `Post`. -/
theorem loop_total {body : σ → Ctl σ ρ} (Inv : σ → Prop) (Post : ρ → Prop) (m : σ → Nat)
    (hnext : ∀ s s', Inv s → body s = .next s' → Inv s' ∧ m s' < m s)
    (hexit : ∀ s r, Inv s → body s = .exit r → Post r)
    (hspin : ∀ s, Inv s → body s ≠ .spin) {fuel : Nat} {s : σ} (hs : Inv s) (hm : m s < fuel) :
    ∃ r, loop body fuel s = some r ∧ Post r := by
  obtain ⟨r, hr⟩ := loop_isSome Inv m hnext hspin hs hm
  exact ⟨r, hr, loop_inv Inv Post (fun s s' h h' => (hnext s s' h h').1) hexit hs hr⟩

end Prog
