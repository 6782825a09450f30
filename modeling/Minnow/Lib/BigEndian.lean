import Mathlib.Data.Nat.Init
import Mathlib.Tactic.Ring

/-!
# Big-endian bytes

`bigEndian len val` are the `len` low bytes of a natural, the most significant first; reading them
back gives the value modulo `256 ^ len` (`ofBigEndian_bigEndian`).
-/

namespace Prog

def bigEndian (len val : Nat) : List UInt8 :=
  (List.range len).map fun i => UInt8.ofNat (val >>> ((len - i - 1) * 8))

/-- Reads bytes onto the end of `acc`. -/
def ofBigEndian (acc : Nat) (bytes : List UInt8) : Nat :=
  bytes.foldl (fun acc b => acc <<< 8 ||| b.toNat) acc

/-- The number in the `len` bytes from the `i`th on. -/
def field (bytes : List UInt8) (i len : Nat) : Nat := ofBigEndian 0 ((bytes.drop i).take len)

variable {len val acc : Nat}

@[simp] theorem length_bigEndian (len val : Nat) : (bigEndian len val).length = len := by
  rw [bigEndian, List.length_map, List.length_range]

@[simp] theorem bigEndian_zero (val : Nat) : bigEndian 0 val = [] := rfl

theorem bigEndian_succ (len val : Nat) :
    bigEndian (len + 1) val = UInt8.ofNat (val >>> (len * 8)) :: bigEndian len val := by
  rw [bigEndian, List.range_succ_eq_map, List.map_cons, List.map_map]
  refine congrArg₂ List.cons ?_ (List.map_congr_left fun i _ => ?_)
  · rw [Nat.sub_zero, Nat.add_sub_cancel]
  · show UInt8.ofNat (val >>> ((len + 1 - (i + 1) - 1) * 8)) = _
    rw [Nat.add_sub_add_right]

theorem shiftLeft_or (acc : Nat) (b : UInt8) : acc <<< 8 ||| b.toNat = acc * 256 + b.toNat := by
  rw [← Nat.shiftLeft_add_eq_or_of_lt b.toNat_lt, Nat.shiftLeft_eq]

theorem ofBigEndian_bigEndian (acc len val : Nat) :
    ofBigEndian acc (bigEndian len val) = acc * 256 ^ len + val % 256 ^ len := by
  induction len generalizing acc with
  | zero => rw [bigEndian_zero, pow_zero, Nat.mod_one, Nat.mul_one]; rfl
  | succ len ih =>
    rw [bigEndian_succ, ofBigEndian, List.foldl_cons, ← ofBigEndian, ih, shiftLeft_or,
      UInt8.toNat_ofNat', Nat.shiftRight_eq_div_pow, Nat.mul_comm len 8, Nat.pow_mul]
    -- one more digit in front
    have hdigit : val % 256 ^ (len + 1) = val / 256 ^ len % 256 * 256 ^ len + val % 256 ^ len := by
      rw [pow_succ, Nat.mod_mul, Nat.mul_comm (256 ^ len), Nat.add_comm]
    rw [hdigit]
    ring

theorem ofBigEndian_of_lt (h : val < 256 ^ len) : ofBigEndian 0 (bigEndian len val) = val := by
  rw [ofBigEndian_bigEndian, Nat.zero_mul, Nat.zero_add, Nat.mod_eq_of_lt h]

theorem ofBigEndian_cons (acc : Nat) (b : UInt8) (bytes : List UInt8) :
    ofBigEndian acc (b :: bytes) = ofBigEndian (acc * 256 + b.toNat) bytes := by
  rw [ofBigEndian, List.foldl_cons, shiftLeft_or]
  rfl

theorem ofBigEndian_eq (acc : Nat) (bytes : List UInt8) :
    ofBigEndian acc bytes = acc * 256 ^ bytes.length + ofBigEndian 0 bytes := by
  induction bytes generalizing acc with
  | nil => rw [List.length_nil, pow_zero, Nat.mul_one]; rfl
  | cons b bytes ih =>
    rw [ofBigEndian_cons, ofBigEndian_cons, ih, ih (0 * 256 + b.toNat), List.length_cons, pow_succ]
    ring

theorem ofBigEndian_lt (bytes : List UInt8) : ofBigEndian 0 bytes < 256 ^ bytes.length := by
  induction bytes with
  | nil => exact Nat.one_pos
  | cons b bytes ih =>
    have hb : (b.toNat + 1) * 256 ^ bytes.length ≤ 256 * 256 ^ bytes.length :=
      Nat.mul_le_mul_right _ b.toNat_lt
    rw [ofBigEndian_cons, Nat.zero_mul, Nat.zero_add, ofBigEndian_eq, List.length_cons, pow_succ]
    rw [Nat.add_mul] at hb
    omega

/-- Bytes that have been read are written back. -/
theorem bigEndian_ofBigEndian (acc : Nat) (bytes : List UInt8) :
    bigEndian bytes.length (ofBigEndian acc bytes) = bytes := by
  induction bytes generalizing acc with
  | nil => rfl
  | cons b bytes ih =>
    rw [ofBigEndian_cons, List.length_cons, bigEndian_succ, ih, ofBigEndian_eq]
    refine congrArg (· :: bytes) ?_
    have hlt := ofBigEndian_lt bytes
    rw [Nat.shiftRight_eq_div_pow, Nat.mul_comm bytes.length 8, Nat.pow_mul,
      show (2 : Nat) ^ 8 = 256 from rfl, Nat.mul_comm, Nat.mul_add_div (Nat.pow_pos (by omega)),
      Nat.div_eq_of_lt hlt]
    refine UInt8.toNat_inj.1 ?_
    have := b.toNat_lt
    rw [UInt8.toNat_ofNat']
    omega

/-! ### The value of a slice -/

theorem ofBigEndian_take_lt (bytes : List UInt8) (len : Nat) :
    ofBigEndian 0 (bytes.take len) < 256 ^ len :=
  Nat.lt_of_lt_of_le (ofBigEndian_lt _)
    (Nat.pow_le_pow_right (by omega) (List.length_take_le len bytes))

theorem bigEndian_slice {i : Nat} {bytes : List UInt8} (h : i + len ≤ bytes.length) :
    bigEndian len (ofBigEndian 0 ((bytes.drop i).take len)) = (bytes.drop i).take len := by
  have hlen : ((bytes.drop i).take len).length = len :=
    List.length_take_of_le (by rw [List.length_drop]; omega)
  have hback := bigEndian_ofBigEndian 0 ((bytes.drop i).take len)
  rwa [hlen] at hback

theorem octet_eq {i : Nat} {bytes : List UInt8} (h : i < bytes.length) :
    UInt8.ofNat (ofBigEndian 0 ((bytes.drop i).take 1)) = bytes.getD i 0 := by
  rw [List.drop_eq_getElem_cons h, List.take_succ_cons, List.take_zero, ofBigEndian_cons,
    List.getD_eq_getElem?_getD, List.getElem?_eq_getElem h]
  show UInt8.ofNat (0 * 256 + bytes[i].toNat) = _
  rw [Nat.zero_mul, Nat.zero_add, UInt8.ofNat_toNat]
  rfl

end Prog
