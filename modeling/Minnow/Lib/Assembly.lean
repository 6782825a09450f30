import Mathlib.Data.List.Infix
import Mathlib.Order.Bounds.Basic

/-!
# Assembling a stream from placed pieces

An assembly has put out a list and holds elements for places further on. `Absorbs a new a'` says
that `a'` comes from `a` by taking in the elements of `new` and putting out everything that has
become contiguous. What an assembly has put out is then the longest covered stretch from the start
(`Assembly.isGreatest`), it never departs from the stream the pieces were cut from
(`Absorbs.agrees`), and its covered places are those of the pieces (`Absorbs.covered`), in whatever
order they came.
-/

namespace Prog

variable {α : Type}

/-- What is held lies strictly ahead of the end of `out`, so nothing held could be put out. -/
structure Assembly (α : Type) where
  out : List α
  held : Nat → Option α
  ahead : ∀ k ≤ out.length, held k = none

namespace Assembly

variable {a a' : Assembly α} {new : Nat → Option α} {D : List α}

def empty : Assembly α := ⟨[], fun _ => none, fun _ _ => rfl⟩

/-- The elements on offer once `new` has come in; a new element replaces a held one. -/
def merge (a : Assembly α) (new : Nat → Option α) (k : Nat) : Option α :=
  if k < a.out.length then none else (new k).or (a.held k)

structure Absorbs (a : Assembly α) (new : Nat → Option α) (a' : Assembly α) : Prop where
  out : ∃ xs, a'.out = a.out ++ xs ∧ ∀ j < xs.length, a.merge new (a.out.length + j) = xs[j]?
  held : ∀ k, a'.held k = if k < a'.out.length then none else a.merge new k

def Covered (a : Assembly α) (k : Nat) : Prop := k < a.out.length ∨ (a.held k).isSome

/-- Everything put out and everything held is as in `D`. -/
structure Agrees (a : Assembly α) (D : List α) : Prop where
  out : a.out <+: D
  held : ∀ k b, a.held k = some b → D[k]? = some b

theorem agrees_empty (D : List α) : (empty : Assembly α).Agrees D :=
  ⟨List.nil_prefix, fun _ _ h => by simp [empty] at h⟩

theorem Agrees.mono {D' : List α} (h : a.Agrees D) (hD : D <+: D') : a.Agrees D' := by
  refine ⟨h.out.trans hD, fun k b hk => ?_⟩
  obtain ⟨t, rfl⟩ := hD
  have := h.held k b hk
  rw [List.getElem?_append_left (List.getElem?_eq_some_iff.1 this).1, this]

theorem isGreatest (a : Assembly α) : IsGreatest {n | ∀ k < n, a.Covered k} a.out.length := by
  refine ⟨fun k hk => .inl hk, fun n hn => Nat.le_of_not_lt fun hlt => ?_⟩
  rcases hn _ hlt with h | h
  · exact absurd h (Nat.lt_irrefl _)
  · rw [a.ahead _ (Nat.le_refl _)] at h; cases h

namespace Absorbs

theorem merge_agrees (ha : a.Agrees D)
    (hn : ∀ k b, a.out.length ≤ k → new k = some b → D[k]? = some b) {k : Nat} {b : α}
    (h : a.merge new k = some b) : D[k]? = some b := by
  unfold merge at h
  split at h
  · cases h
  · rcases Option.or_eq_some_iff.1 h with h | ⟨-, h⟩
    · exact hn k b (by omega) h
    · exact ha.held k b h

theorem agrees (h : Absorbs a new a') (ha : a.Agrees D)
    (hn : ∀ k b, a.out.length ≤ k → new k = some b → D[k]? = some b) : a'.Agrees D := by
  refine ⟨?_, fun k b hk => ?_⟩
  · obtain ⟨xs, hxs, hj⟩ := h.out
    obtain ⟨t, rfl⟩ := ha.out
    rw [hxs, List.prefix_append_right_inj, List.prefix_iff_getElem?]
    intro j hjl
    have := merge_agrees ha hn ((hj j hjl).trans (List.getElem?_eq_getElem hjl))
    rwa [List.getElem?_append_right (by omega), Nat.add_sub_cancel_left] at this
  · rw [h.held] at hk
    split at hk
    · cases hk
    · exact merge_agrees ha hn hk

theorem merge_isSome {k : Nat} (hk : a.out.length ≤ k) :
    (a.merge new k).isSome ↔ (new k).isSome ∨ (a.held k).isSome := by
  unfold merge; rw [if_neg (by omega)]; simp

theorem covered (h : Absorbs a new a') (k : Nat) :
    a'.Covered k ↔ a.Covered k ∨ (new k).isSome := by
  obtain ⟨xs, hxs, hj⟩ := h.out
  have hlen : a'.out.length = a.out.length + xs.length := by rw [hxs, List.length_append]
  unfold Covered
  rw [h.held]
  by_cases hk : k < a'.out.length
  · rw [if_pos hk]
    by_cases hk' : k < a.out.length
    · simp [hk, hk']
    · -- between the two ends everything on offer has been put out
      have hs : (a.merge new k).isSome := by
        have := hj (k - a.out.length) (by omega)
        rw [Nat.add_sub_cancel' (by omega)] at this
        rw [this, List.getElem?_eq_getElem (by omega)]; rfl
      have := (merge_isSome (by omega)).1 hs
      simp only [hk, true_or, true_iff]
      tauto
  · rw [if_neg hk, merge_isSome (by omega)]
    have : ¬ k < a.out.length := by omega
    simp only [hk, this, false_or]
    tauto

/-- Without an element for the next place nothing is put out. -/
theorem out_eq (h : Absorbs a new a') (hn : new a.out.length = none) : a'.out = a.out := by
  obtain ⟨xs, hxs, hj⟩ := h.out
  cases xs with
  | nil => rwa [List.append_nil] at hxs
  | cons x xs =>
    have := hj 0 (Nat.zero_lt_succ _)
    rw [Nat.add_zero, merge, if_neg (Nat.lt_irrefl _), hn, a.ahead _ (Nat.le_refl _)] at this
    cases this

/-- What is put out ends where the first place is left uncovered. -/
theorem length_eq (h : Absorbs a new a') {n : Nat} (hle : a.out.length ≤ n)
    (hcov : ∀ k < n, a.out.length ≤ k → (new k).isSome ∨ (a.held k).isSome)
    (hend : ¬ ((new n).isSome ∨ (a.held n).isSome)) : a'.out.length = n := by
  refine a'.isGreatest.unique ⟨fun k hk => ?_, fun m hm => Nat.le_of_not_lt fun hlt => ?_⟩
  · rw [h.covered]
    rcases Nat.lt_or_ge k a.out.length with hk' | hk'
    · exact .inl (.inl hk')
    · exact (hcov k hk hk').symm.imp_left .inr
  · rcases (h.covered n).1 (hm n hlt) with (hc | hc) | hc
    · omega
    · exact hend (.inr hc)
    · exact hend (.inl hc)

end Absorbs

end Assembly

end Prog
