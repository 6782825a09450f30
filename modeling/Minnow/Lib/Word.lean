import Mathlib.Algebra.Group.Nat.Defs

/-!
# Unsigned words on naturals

A 64-bit unsigned value is a natural below `2 ^ 64`. `add64` and `sub64` are the wrapping sum and
difference; they agree with `+` and `-` wherever nothing wraps.
-/

namespace Prog

/-- Wrapping 64-bit sum. -/
def add64 (a b : Nat) : Nat := (a + b) % 2 ^ 64

/-- Wrapping 64-bit difference. -/
def sub64 (a b : Nat) : Nat := (a + (2 ^ 64 - b % 2 ^ 64)) % 2 ^ 64

theorem add64_of_lt {a b : Nat} (h : a + b < 2 ^ 64) : add64 a b = a + b := Nat.mod_eq_of_lt h

theorem sub64_of_le {a b : Nat} (h : b ≤ a) (ha : a < 2 ^ 64) : sub64 a b = a - b := by
  unfold sub64; omega

theorem sub64_of_lt {a b : Nat} (h : a < b) (hb : b < 2 ^ 64) : sub64 a b = 2 ^ 64 + a - b := by
  unfold sub64; omega

theorem sub64_one {a : Nat} (h : 0 < a) (ha : a < 2 ^ 64) : sub64 a 1 = a - 1 := sub64_of_le h ha

/-- `(x - y) + 1` wraps back to a small value when `y` is at most `x + 1`. -/
theorem add64_sub64_one {a b : Nat} (h : b ≤ a + 1) (ha : a + 1 < 2 ^ 64) :
    add64 (sub64 a b) 1 = a + 1 - b := by
  unfold add64 sub64; omega

end Prog
