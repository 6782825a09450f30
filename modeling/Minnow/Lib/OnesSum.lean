import Minnow.Lib.BigEndian

/-!
# Ones' complement sums

Bytes are added up in pairs, the first of each pair as the high one, and the carries are folded back
in. Folding keeps the sum modulo `65535` (`foldCarry_mod`), so a sum to which the complement of its
fold has been added folds to `65535` (`foldCarry_complement`).
-/

namespace Prog

/-- What a byte counts; `low` says that it is the second of a pair. -/
def byteWeight (low : Bool) (b : UInt8) : Nat := if low then b.toNat else b.toNat * 256

def pairSum : Bool → List UInt8 → Nat
  | _, [] => 0
  | low, b :: bs => byteWeight low b + pairSum (!low) bs

def foldCarry (n : Nat) : Nat :=
  if 0xffff < n then foldCarry (n / 2 ^ 16 + n % 2 ^ 16) else n
termination_by n

variable {low : Bool} {n : Nat} {xs ys : List UInt8}

@[simp] theorem pairSum_nil : pairSum low [] = 0 := rfl

theorem pairSum_cons (b : UInt8) : pairSum low (b :: xs) = byteWeight low b + pairSum (!low) xs := rfl

theorem pairSum_append : pairSum low (xs ++ ys) =
    pairSum low xs + pairSum (low ^^ decide (xs.length % 2 = 1)) ys := by
  induction xs generalizing low with
  | nil => simp
  | cons b xs ih =>
    have hparity : (!low ^^ decide (xs.length % 2 = 1)) =
        (low ^^ decide ((b :: xs).length % 2 = 1)) := by
      rw [List.length_cons]
      rcases Nat.mod_two_eq_zero_or_one xs.length with h | h
      · have : (xs.length + 1) % 2 = 1 := by omega
        cases low <;> simp [h, this]
      · have : (xs.length + 1) % 2 = 0 := by omega
        cases low <;> simp [h, this]
    rw [List.cons_append, pairSum_cons, pairSum_cons, ih, hparity, Nat.add_assoc]

/-- After whole pairs the next byte is again a high one. -/
theorem pairSum_append_of_even (h : xs.length % 2 = 0) :
    pairSum low (xs ++ ys) = pairSum low xs + pairSum low ys := by
  rw [pairSum_append, h]
  simp

theorem byteWeight_le (low : Bool) (b : UInt8) : byteWeight low b ≤ 65280 := by
  have := b.toNat_lt
  unfold byteWeight
  split <;> omega

theorem pairSum_le (low : Bool) (xs : List UInt8) : pairSum low xs ≤ 65280 * xs.length := by
  induction xs generalizing low with
  | nil => exact Nat.le_refl _
  | cons b xs ih =>
    have h1 := ih !low
    have h2 := byteWeight_le low b
    rw [pairSum_cons, List.length_cons]
    omega

theorem pairSum_pos (low : Bool) {b : UInt8} (hb : b ∈ xs) (h0 : b ≠ 0) : 0 < pairSum low xs := by
  induction xs generalizing low with
  | nil => cases hb
  | cons x xs ih =>
    rw [pairSum_cons]
    rcases List.mem_cons.1 hb with rfl | hb
    · have hpos : 0 < b.toNat := Nat.pos_of_ne_zero fun h => h0 (UInt8.toNat_inj.1 h)
      unfold byteWeight
      split <;> omega
    · have := ih (!low) hb
      omega

/-- What changes when one byte does. -/
theorem pairSum_set (low : Bool) {i : Nat} {x : UInt8} (hx : xs[i]? = some x) (b : UInt8) : ∃ low',
    pairSum low (xs.set i b) + byteWeight low' x = pairSum low xs + byteWeight low' b := by
  induction xs generalizing low i with
  | nil => cases hx
  | cons y xs ih =>
    cases i with
    | zero =>
      cases hx
      refine ⟨low, ?_⟩
      rw [List.set_cons_zero, pairSum_cons, pairSum_cons]
      omega
    | succ i =>
      obtain ⟨low', h⟩ := ih (!low) hx
      refine ⟨low', ?_⟩
      rw [List.set_cons_succ, pairSum_cons, pairSum_cons]
      omega

/-- No byte counts a multiple of `65535` more than another. -/
theorem pairSum_set_mod_ne (low : Bool) {i : Nat} {x b : UInt8} (hx : xs[i]? = some x) (hne : x ≠ b)
    (n : Nat) :
    (n + pairSum low (xs.set i b)) % 0xffff ≠ (n + pairSum low xs) % 0xffff := by
  obtain ⟨low', h⟩ := pairSum_set low hx b
  have hnat : x.toNat ≠ b.toNat := fun heq => hne (UInt8.toNat_inj.1 heq)
  have := x.toNat_lt
  have := b.toNat_lt
  unfold byteWeight at h
  split at h <;> omega

theorem pairSum_bigEndian_two : pairSum false (bigEndian 2 n) = n % 2 ^ 16 := by
  have h1 : bigEndian 2 n = [UInt8.ofNat (n >>> 8), UInt8.ofNat n] := by
    rw [bigEndian_succ, bigEndian_succ, bigEndian_zero]; rfl
  rw [h1, pairSum_cons, pairSum_cons, pairSum_nil]
  simp only [byteWeight, Bool.not_false, Bool.false_eq_true, if_false, if_true, UInt8.toNat_ofNat']
  rw [Nat.shiftRight_eq_div_pow]
  omega

/-- A 16-bit number at an even place counts as it is. -/
theorem pairSum_cut (h : xs.length % 2 = 0) (hn : n < 2 ^ 16) :
    pairSum false (xs ++ (bigEndian 2 n ++ ys)) = pairSum false xs + (n + pairSum false ys) := by
  rw [pairSum_append_of_even h, pairSum_append_of_even (by rw [length_bigEndian]),
    pairSum_bigEndian_two, Nat.mod_eq_of_lt hn]

theorem foldCarry_le (n : Nat) : foldCarry n ≤ 0xffff := by
  fun_induction foldCarry n with
  | case1 n h ih => exact ih
  | case2 n h => omega

theorem foldCarry_mod (n : Nat) : foldCarry n % 0xffff = n % 0xffff := by
  fun_induction foldCarry n with
  | case1 n h ih => rw [ih]; omega
  | case2 n h => rfl

theorem foldCarry_pos (h : 0 < n) : 0 < foldCarry n := by
  fun_induction foldCarry n with
  | case1 n hlt ih => exact ih (by omega)
  | case2 n hle => exact h

theorem foldCarry_eq_iff : foldCarry n = 0xffff ↔ 0 < n ∧ n % 0xffff = 0 := by
  have hle := foldCarry_le n
  have hmod := foldCarry_mod n
  constructor
  · intro h
    refine ⟨Nat.pos_of_ne_zero ?_, by omega⟩
    rintro rfl
    rw [foldCarry] at h
    simp at h
  · rintro ⟨hpos, h0⟩
    have := foldCarry_pos hpos
    omega

/-- A sum checks once the complement of its fold has been added. -/
theorem foldCarry_complement (h : 0 < n) : foldCarry (n + (0xffff - foldCarry n)) = 0xffff := by
  have hle := foldCarry_le n
  have hmod := foldCarry_mod n
  rw [foldCarry_eq_iff]
  omega

/-- The complement is the one number below `65535` that does so. -/
theorem eq_complement_iff {g : Nat} (h : 0 < n) (hg : g ≤ 0xffff) :
    0xffff - foldCarry n = g ↔ foldCarry (n + g) = 0xffff ∧ g ≠ 0xffff := by
  have hle := foldCarry_le n
  have hmod := foldCarry_mod n
  have hpos := foldCarry_pos h
  rw [foldCarry_eq_iff]
  omega

end Prog
