import Mathlib.Tactic.ByContra
import Minnow.Lib.Word

/-!
# Sequence numbers (`wrapping_integers.cc`)

`unwrap` compares three candidates with the checkpoint. They are congruent modulo `2 ^ 32`, also where
the 64-bit sums wrap around, so whatever it returns wraps to the number it was given (`wrap_unwrap`), and
it inverts `wrap` for every absolute sequence number less than `2 ^ 31` away from the checkpoint
(`unwrap_wrap_near`).
-/

namespace Minnow
open Prog

structure Wrap32 where
  rawValue : UInt32
deriving Repr, DecidableEq

namespace Wrap32

/-- `operator+`; a 64-bit argument is narrowed to 32 bits first. -/
instance : HAdd Wrap32 Nat Wrap32 := ⟨fun w n => ⟨w.rawValue + UInt32.ofNat n⟩⟩

def wrap (n : Nat) (zeroPoint : Wrap32) : Wrap32 := zeroPoint + n

def relSeqMax : Nat := 2 ^ 32

/-- The distance that the source computes as `( a > b ) ? a - b : b - a`. -/
def diff (a b : Nat) : Nat := if b < a then a - b else b - a

def unwrap (w zeroPoint : Wrap32) (checkpoint : Nat) : Nat :=
  let raw := w.rawValue.toNat
  let zeroRaw := zeroPoint.rawValue.toNat
  let temp := if zeroRaw < raw then raw - zeroRaw else relSeqMax + raw - zeroRaw
  let cand1 := add64 (checkpoint / 2 ^ 32 * 2 ^ 32) temp
  let cand2 := sub64 cand1 relSeqMax
  let cand3 := add64 cand1 relSeqMax
  let diff1 := diff cand1 checkpoint
  let diff2 := diff cand2 checkpoint
  let diff3 := diff cand3 checkpoint
  if diff1 ≤ diff2 ∧ diff1 ≤ diff3 then cand1
  else if diff2 ≤ diff1 ∧ diff2 ≤ diff3 then cand2
  else cand3

variable {w z : Wrap32} {n m c : Nat}

theorem toNat_add (w : Wrap32) (n : Nat) :
    (w + n).rawValue.toNat = (w.rawValue.toNat + n) % 2 ^ 32 := by
  show (w.rawValue + UInt32.ofNat n).toNat = _
  rw [UInt32.toNat_add, UInt32.toNat_ofNat', Nat.add_mod_mod]

theorem ext_toNat (h : w.rawValue.toNat = z.rawValue.toNat) : w = z := by
  obtain ⟨⟨w⟩⟩ := w
  obtain ⟨⟨z⟩⟩ := z
  congr; exact BitVec.eq_of_toNat_eq h

@[simp] theorem add_zero (w : Wrap32) : w + 0 = w := by
  apply ext_toNat
  rw [toNat_add, Nat.add_zero]; exact Nat.mod_eq_of_lt w.rawValue.toNat_lt

theorem add_add (w : Wrap32) (n m : Nat) : w + n + m = w + (n + m) := by
  apply ext_toNat
  rw [toNat_add, toNat_add, toNat_add, Nat.mod_add_mod, Nat.add_assoc]

/-- Two sums agree when the summands do modulo `2 ^ 32`. -/
theorem add_eq_add_iff : w + n = w + m ↔ n % 2 ^ 32 = m % 2 ^ 32 := by
  have hw := w.rawValue.toNat_lt
  constructor
  · intro h
    have := congrArg (fun x : Wrap32 => x.rawValue.toNat) h
    simp only [toNat_add] at this
    omega
  · intro h
    apply ext_toNat
    rw [toNat_add, toNat_add]; omega

theorem wrap_eq_zero_iff : wrap n z = z ↔ n % 2 ^ 32 = 0 := by
  have := add_eq_add_iff (w := z) (n := n) (m := 0)
  rwa [add_zero] at this

/-- What was added, as far as 32 bits tell. -/
theorem sub_add (w : Wrap32) (n : Nat) : ((w + n).rawValue - w.rawValue).toNat = n % 2 ^ 32 := by
  show (w.rawValue + UInt32.ofNat n - w.rawValue).toNat = _
  rw [UInt32.add_comm, UInt32.add_sub_cancel, UInt32.toNat_ofNat']

theorem diff_cases (a b : Nat) : (b < a ∧ diff a b = a - b) ∨ (a ≤ b ∧ diff a b = b - a) := by
  unfold diff; split <;> omega

theorem diff_le_of_le {a b : Nat} (hc : c ≤ a) (hab : a ≤ b) : diff a c ≤ diff b c := by
  have ha := diff_cases a c
  have hb := diff_cases b c
  omega

theorem diff_le_of_ge {a b : Nat} (hc : a ≤ c) (hab : b ≤ a) : diff a c ≤ diff b c := by
  have ha := diff_cases a c
  have hb := diff_cases b c
  omega

/-- The three candidates, and that the closest is taken. -/
theorem unwrap_cases (w z : Wrap32) (c : Nat) :
    ∃ t, 0 < t ∧ t ≤ 2 ^ 32 ∧ (z.rawValue.toNat + t) % 2 ^ 32 = w.rawValue.toNat ∧
      ∃ x₁ x₂ x₃, x₁ = add64 (c / 2 ^ 32 * 2 ^ 32) t ∧ x₂ = sub64 x₁ (2 ^ 32) ∧
        x₃ = add64 x₁ (2 ^ 32) ∧
        (w.unwrap z c = x₁ ∨ w.unwrap z c = x₂ ∨ w.unwrap z c = x₃) ∧
        diff (w.unwrap z c) c ≤ diff x₁ c ∧ diff (w.unwrap z c) c ≤ diff x₂ c ∧
        diff (w.unwrap z c) c ≤ diff x₃ c := by
  have hw := w.rawValue.toNat_lt
  have hz := z.rawValue.toNat_lt
  unfold unwrap relSeqMax
  dsimp only
  generalize ht : (if z.rawValue.toNat < w.rawValue.toNat then
    w.rawValue.toNat - z.rawValue.toNat else 2 ^ 32 + w.rawValue.toNat - z.rawValue.toNat) = t
  have ht' : 0 < t ∧ t ≤ 2 ^ 32 ∧ (z.rawValue.toNat + t) % 2 ^ 32 = w.rawValue.toNat := by
    split at ht <;> omega
  refine ⟨t, ht'.1, ht'.2.1, ht'.2.2, _, _, _, rfl, rfl, rfl, ?_⟩
  split
  next h => exact ⟨.inl rfl, Nat.le_refl _, h.1, h.2⟩
  next h =>
    split
    next h' => exact ⟨.inr (.inl rfl), h'.1, Nat.le_refl _, h'.2⟩
    next h' => exact ⟨.inr (.inr rfl), by omega, by omega, Nat.le_refl _⟩

/-- A candidate that wraps around is still a round number of rounds away from the others. -/
theorem unwrap_lt_mod (w z : Wrap32) (c : Nat) :
    w.unwrap z c < 2 ^ 64 ∧ (z.rawValue.toNat + w.unwrap z c) % 2 ^ 32 = w.rawValue.toNat := by
  obtain ⟨t, -, -, hwz, x₁, x₂, x₃, h₁, h₂, h₃, hu, -⟩ := unwrap_cases w z c
  rw [← hwz]
  unfold add64 at h₁ h₃
  unfold sub64 at h₂
  omega

/-- Whatever `unwrap` returns wraps to the number it was given. -/
theorem wrap_unwrap (w z : Wrap32) (c : Nat) : wrap (w.unwrap z c) z = w := by
  apply ext_toNat
  rw [wrap, toNat_add]
  exact (unwrap_lt_mod w z c).2

/-- No other absolute sequence number that wraps to `w` is closer to the checkpoint. -/
theorem unwrap_closest (hc : c < 2 ^ 64) (hlt : n < 2 ^ 64) (hn : wrap n z = w) :
    diff (w.unwrap z c) c ≤ diff n c := by
  obtain ⟨t, h0, ht, hwz, x₁, x₂, x₃, h₁, h₂, h₃, -, hd₁, hd₂, hd₃⟩ := unwrap_cases w z c
  have hn' : (z.rawValue.toNat + n) % 2 ^ 32 = (z.rawValue.toNat + t) % 2 ^ 32 := by
    rw [hwz, ← hn, wrap, toNat_add]
  clear hwz hn
  generalize hx : c / 2 ^ 32 * 2 ^ 32 + t = x at *
  unfold add64 at h₁ h₃
  unfold sub64 at h₂
  rw [hx] at h₁
  -- `n` is the number of its class next above the start of the round, or lies a round or more away
  have hside : n = x ∨ x + 2 ^ 32 ≤ n ∨ n + 2 ^ 32 ≤ x := by omega
  rcases hside with rfl | habove | hbelow
  · rw [show x₁ = n by omega] at hd₁
    exact hd₁
  · rw [show x₃ = x + 2 ^ 32 by omega] at hd₃
    exact Nat.le_trans hd₃ (diff_le_of_le (by omega) habove)
  · rw [show x₂ = x - 2 ^ 32 by omega] at hd₂
    exact Nat.le_trans hd₂ (diff_le_of_ge (by omega) (by omega))

theorem unwrap_mod (n : Nat) (z : Wrap32) (c : Nat) :
    (wrap n z).unwrap z c % 2 ^ 32 = n % 2 ^ 32 :=
  add_eq_add_iff.1 (wrap_unwrap (wrap n z) z c)

/-- `unwrap` inverts `wrap` near the checkpoint. -/
theorem unwrap_wrap_near (hc : c < 2 ^ 64) (hn : n < 2 ^ 64) (hlo : c < n + 2 ^ 31)
    (hhi : n < c + 2 ^ 31) : (wrap n z).unwrap z c = n := by
  have hd := unwrap_closest hc hn (rfl : wrap n z = wrap n z)
  have hmod := unwrap_mod n z c
  have hdu := diff_cases ((wrap n z).unwrap z c) c
  have hdn := diff_cases n c
  omega

/-! ### Checkpoints far from the largest 64-bit value -/

theorem unwrap_wrap (hc : c + 2 ^ 33 < 2 ^ 64) (hlo : c < n + 2 ^ 31) (hhi : n < c + 2 ^ 31) :
    (wrap n z).unwrap z c = n :=
  unwrap_wrap_near (by omega) (by omega) hlo hhi

theorem unwrap_le (hc : c + 2 ^ 33 < 2 ^ 64) : w.unwrap z c ≤ c + 2 ^ 32 := by
  obtain ⟨t, -, ht, -, x₁, -, -, h₁, -, -, -, hd, -⟩ := unwrap_cases w z c
  rw [add64_of_lt (by omega)] at h₁
  have hd₁ := diff_cases x₁ c
  have hdu := diff_cases (w.unwrap z c) c
  omega

/-- No sequence number another round away is closer to the checkpoint than one that `unwrap` gives
back. -/
theorem diff_le_of_unwrap (hc : c < 2 ^ 64) (hn : (wrap n z).unwrap z c = n) (hlt : m < 2 ^ 64)
    (hm : m % 2 ^ 32 = n % 2 ^ 32) : diff n c ≤ diff m c := by
  have := unwrap_closest hc hlt (show wrap m z = wrap n z from add_eq_add_iff.2 hm)
  rwa [hn] at this

/-- What `unwrap` inverts is an interval. -/
theorem unwrap_wrap_between {n₁ n₂ : Nat} (hc : c + 2 ^ 33 < 2 ^ 64)
    (h₁ : (wrap n₁ z).unwrap z c = n₁) (h₂ : (wrap n₂ z).unwrap z c = n₂) (hlo : n₁ ≤ n)
    (hhi : n ≤ n₂) : (wrap n z).unwrap z c = n := by
  have hle : n₂ ≤ c + 2 ^ 32 := h₂ ▸ unwrap_le hc
  have hc' : c < 2 ^ 64 := by omega
  have hmod := unwrap_mod n z c
  have hd := unwrap_closest hc' (show n < 2 ^ 64 by omega) (rfl : wrap n z = wrap n z)
  by_contra hne
  generalize hu : (wrap n z).unwrap z c = u at hmod hd hne
  have hdu := diff_cases u c
  have hdn := diff_cases n c
  -- `n` lies on one side of the checkpoint, half a round or more away; the end of the interval on
  -- that side would do better a round away
  rcases Nat.lt_or_gt_of_ne hne with hlt | hgt
  · have hd₂ := diff_le_of_unwrap (m := n₂ - 2 ^ 32) hc' h₂ (by omega) (by omega)
    have h := diff_cases n₂ c
    have h' := diff_cases (n₂ - 2 ^ 32) c
    have he : n = n₂ := by omega
    exact hne (hu.symm.trans (he ▸ h₂))
  · have hd₁ := diff_le_of_unwrap (m := n₁ + 2 ^ 32) hc' h₁ (by omega) (by omega)
    have h := diff_cases n₁ c
    have h' := diff_cases (n₁ + 2 ^ 32) c
    have he : n = n₁ := by omega
    exact hne (hu.symm.trans (he ▸ h₁))

/-! ### Any checkpoint -/

theorem sub_eq_iff : n % 2 ^ 32 = (w.rawValue - z.rawValue).toNat ↔ wrap n z = w := by
  have hw := w.rawValue.toNat_lt
  have hz := z.rawValue.toNat_lt
  have hsub : (w.rawValue - z.rawValue).toNat =
      (2 ^ 32 - z.rawValue.toNat + w.rawValue.toNat) % 2 ^ 32 := UInt32.toNat_sub ..
  rw [hsub]
  constructor
  · intro h
    apply ext_toNat
    rw [wrap, toNat_add]; omega
  · rintro rfl
    rw [wrap, toNat_add]; omega

/-- `unwrap` picks, of the 64-bit numbers that wrap to `w`, one that is closest to the checkpoint, also
at the two ends of the range. -/
theorem unwrap_nearest (w z : Wrap32) (hc : c < 2 ^ 64) :
    w.unwrap z c < 2 ^ 64 ∧ w.unwrap z c % 2 ^ 32 = (w.rawValue - z.rawValue).toNat ∧
    (∀ n < 2 ^ 64, n % 2 ^ 32 = (w.rawValue - z.rawValue).toNat →
      diff (w.unwrap z c) c ≤ diff n c) ∧
    ∀ n < 2 ^ 64, diff n c < 2 ^ 31 → (wrap n z).unwrap z c = n := by
  refine ⟨(unwrap_lt_mod w z c).1, sub_eq_iff.2 (wrap_unwrap w z c),
    fun n hlt hn => unwrap_closest hc hlt (sub_eq_iff.1 hn), fun n hlt hd => ?_⟩
  have hdn := diff_cases n c
  exact unwrap_wrap_near hc hlt (by omega) (by omega)

/-- The first candidate wraps around, and the second is taken. -/
theorem unwrap_nearest_end : (⟨5⟩ : Wrap32).unwrap ⟨5⟩ (2 ^ 64 - 1) = 2 ^ 64 - 2 ^ 32 ∧
    (⟨5⟩ : Wrap32).unwrap ⟨5⟩ (2 ^ 64 - 1) < 2 ^ 64 :=
  ⟨by decide, (unwrap_nearest ⟨5⟩ ⟨5⟩ (by decide)).1⟩

end Wrap32

end Minnow
