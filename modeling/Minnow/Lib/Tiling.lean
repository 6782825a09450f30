import Mathlib.Algebra.GroupWithZero.Nat
import Mathlib.Data.List.Basic

/-!
# Items laid end to end

A list of items that have lengths tiles an interval that starts at zero: each item starts where the
one before it ends. `At len l p x` says that `x` is an item of `l` that starts at `p`.
-/

namespace Prog

variable {α : Type} {len : α → Nat} {l l' pre post : List α} {p : Nat} {x y : α}

/-- The length of a tiling. -/
def extent (len : α → Nat) (l : List α) : Nat := (l.map len).sum

@[simp] theorem extent_nil : extent len [] = 0 := rfl

@[simp] theorem extent_cons : extent len (x :: l) = len x + extent len l := by
  simp [extent]

@[simp] theorem extent_append : extent len (l ++ l') = extent len l + extent len l' := by
  simp [extent]

/-- `x` is an item of the tiling, and starts at `p`. -/
def At (len : α → Nat) (l : List α) (p : Nat) (x : α) : Prop :=
  ∃ pre post, l = pre ++ x :: post ∧ extent len pre = p

theorem at_split : At len (pre ++ x :: post) (extent len pre) x := ⟨pre, post, rfl, rfl⟩

theorem At.append (h : At len l p x) (l' : List α) : At len (l ++ l') p x := by
  obtain ⟨pre, post, rfl, rfl⟩ := h
  exact ⟨pre, post ++ l', by simp, rfl⟩

theorem not_at_nil : ¬ At len [] p x := by
  rintro ⟨pre, post, h, -⟩; simp at h

/-- An item of a tiling that has been added to is an old one or the new one. -/
theorem at_concat_iff : At len (l ++ [y]) p x ↔ At len l p x ∨ (p = extent len l ∧ x = y) := by
  constructor
  · rintro ⟨pre, post, h, rfl⟩
    rcases List.eq_nil_or_concat post with rfl | ⟨post, z, rfl⟩
    · obtain ⟨rfl, hy⟩ := List.append_inj' h rfl
      exact .inr ⟨rfl, by simpa using hy.symm⟩
    · rw [List.concat_eq_append, ← List.cons_append, ← List.append_assoc] at h
      obtain ⟨rfl, -⟩ := List.append_inj' h rfl
      exact .inl at_split
  · rintro (h | ⟨rfl, rfl⟩)
    · exact h.append _
    · exact at_split

/-- Items without length can be left out. -/
theorem extent_filter (len : α → Nat) (l : List α) :
    extent len (l.filter fun x => decide (0 < len x)) = extent len l := by
  induction l with
  | nil => rfl
  | cons x l ih =>
    rw [List.filter_cons, extent_cons, ← ih]
    split
    · exact extent_cons
    next h => simp only [decide_eq_true_eq, Nat.not_lt] at h; omega

end Prog
