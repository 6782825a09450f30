import Mathlib.Data.List.TakeWhile

/-!
# String pieces

`substr` and `replace` as the standard string library defines them: both throw when the position
lies past the end (`none` here), and both cut the requested length at the end of the string.
-/

namespace Prog

variable {α : Type}

def substr (s : List α) (pos n : Nat) : Option (List α) :=
  if pos ≤ s.length then some ((s.drop pos).take n) else none

/-- The `n` elements from `pos` on give way to `t`, which need not have the same length. -/
def replace (s : List α) (pos n : Nat) (t : List α) : Option (List α) :=
  if pos ≤ s.length then some (s.take pos ++ t ++ s.drop (pos + n)) else none

theorem substr_eq_some {s t : List α} {pos n : Nat} :
    substr s pos n = some t ↔ pos ≤ s.length ∧ (s.drop pos).take n = t := by
  unfold substr; split <;> simp [*]

theorem replace_eq_some {s t u : List α} {pos n : Nat} :
    replace s pos n t = some u ↔ pos ≤ s.length ∧ s.take pos ++ t ++ s.drop (pos + n) = u := by
  unfold replace; split <;> simp [*]

theorem replace_eq_none {s t : List α} {pos n : Nat} :
    replace s pos n t = none ↔ s.length < pos := by
  unfold replace; split <;> simp [*]; omega

section Overwrite
variable {s t u : List α} {pos : Nat}

/-! Replacing as many elements as are written. -/

theorem length_replace (h : replace s pos t.length t = some u) :
    u.length = max s.length (pos + t.length) := by
  obtain ⟨hp, rfl⟩ := replace_eq_some.1 h
  simp; omega

theorem getElem?_replace (h : replace s pos t.length t = some u) (i : Nat) :
    u[i]? = if pos ≤ i ∧ i < pos + t.length then t[i - pos]? else s[i]? := by
  obtain ⟨hp, rfl⟩ := replace_eq_some.1 h
  have hl : (s.take pos).length = pos := by simp [hp]
  rcases Nat.lt_or_ge i pos with hi | hi
  · rw [List.append_assoc, List.getElem?_append_left (by omega), List.getElem?_take_of_lt hi,
      if_neg (by omega)]
  · rw [List.append_assoc, List.getElem?_append_right (by omega), hl]
    rcases Nat.lt_or_ge i (pos + t.length) with hi' | hi'
    · rw [List.getElem?_append_left (by omega), if_pos ⟨hi, hi'⟩]
    · rw [List.getElem?_append_right (by omega), List.getElem?_drop, if_neg (by omega)]
      congr 1; omega

theorem exists_replace (hp : pos ≤ s.length) (t : List α) :
    ∃ u, replace s pos t.length t = some u ∧ u.length = max s.length (pos + t.length) ∧
      ∀ i, u[i]? = if pos ≤ i ∧ i < pos + t.length then t[i - pos]? else s[i]? :=
  have h : replace s pos t.length t = some _ := if_pos hp
  ⟨_, h, length_replace h, getElem?_replace h⟩

/-- Filling a stretch inside the string with one element. -/
theorem exists_replace_fill {n : Nat} (hp : pos + n ≤ s.length) (a : α) :
    ∃ u, replace s pos n (List.replicate n a) = some u ∧ u.length = s.length ∧
      ∀ i, u[i]? = if pos ≤ i ∧ i < pos + n then some a else s[i]? := by
  obtain ⟨u, hu, hl, hi⟩ := exists_replace (show pos ≤ s.length by omega) (List.replicate n a)
  rw [List.length_replicate] at hu hl
  refine ⟨u, hu, by omega, fun i => ?_⟩
  rw [hi, List.length_replicate]
  split
  · rw [List.getElem?_replicate, if_pos (by omega)]
  · rfl

end Overwrite

section Run
variable {p : α → Bool} {l : List α} {j : Nat}

/-! The run of elements satisfying `p` that starts a list, as `takeWhile` cuts it off. -/

theorem getElem?_of_lt_takeWhile (h : j < (l.takeWhile p).length) : ∃ a, l[j]? = some a ∧ p a := by
  have hj : (l.takeWhile p)[j] ∈ l.takeWhile p := List.getElem_mem h
  refine ⟨_, ?_, List.mem_takeWhile_imp hj⟩
  exact (List.prefix_iff_getElem?.1 (List.takeWhile_prefix p)) j h

theorem not_of_getElem?_takeWhile {a : α} (h : l[(l.takeWhile p).length]? = some a) :
    p a = false := by
  induction l with
  | nil => simp at h
  | cons b l ih =>
    cases hb : p b with
    | false => simp_all
    | true => rw [List.takeWhile_cons_of_pos hb, List.length_cons, List.getElem?_cons_succ] at h; exact ih h

end Run

/-- Counting the `true`s of a list by their positions. -/
theorem count_true_eq_countP_range {b : List Bool} {n : Nat} (h : ∀ q, b[q]? = some true → q < n) :
    b.count true = (List.range n).countP fun q => decide (b[q]? = some true) := by
  induction b generalizing n with
  | nil => simp
  | cons x b ih =>
    cases n with
    | zero =>
      rw [List.range_zero, List.countP_nil, List.count_eq_zero]
      intro hmem
      obtain ⟨q, hq⟩ := List.mem_iff_getElem?.1 hmem
      exact absurd (h q hq) (Nat.not_lt_zero q)
    | succ n =>
      have ih' := ih (n := n) fun q hq => Nat.lt_of_succ_lt_succ (h (q + 1) hq)
      rw [List.range_succ_eq_map, List.countP_cons, List.countP_map, List.count_cons, ih']
      cases x <;> rfl

/-- Places below `p` that do not count leave at most `m` of the first `p + m`. -/
theorem countP_range_le {f : Nat → Bool} {p m : Nat} (h : ∀ q < p, f q = false) :
    (List.range (p + m)).countP f ≤ m := by
  have hz : (List.range p).countP f = 0 :=
    List.countP_eq_zero.2 fun q hq => by rw [h q (List.mem_range.1 hq)]; exact Bool.false_ne_true
  have hle := List.countP_le_length (p := f) (l := (List.range m).map (p + ·))
  rw [List.length_map, List.length_range] at hle
  rw [List.range_add, List.countP_append, hz, Nat.zero_add]
  exact hle

end Prog
