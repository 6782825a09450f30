import Minnow.ByteStream
import Minnow.Lib.OnesSum

/-!
# The internet checksum (`checksum.hh`)
-/

namespace Minnow
open Prog

structure InternetChecksum where
  sum : Nat := 0
  parity : Bool := false
deriving Repr, DecidableEq

namespace InternetChecksum

def addByte (c : InternetChecksum) (i : Byte) : InternetChecksum where
  sum := (c.sum + byteWeight c.parity i) % 2 ^ 32
  parity := !c.parity

def add (c : InternetChecksum) (data : Bytes) : InternetChecksum := data.foldl addByte c

def addAll (c : InternetChecksum) (data : List Bytes) : InternetChecksum := data.foldl add c

def value (c : InternetChecksum) : UInt16 := ~~~ UInt16.ofNat (foldCarry c.sum)

variable {c : InternetChecksum} {data : Bytes} {n : Nat}

/-- Where the buffers are cut makes no difference. -/
theorem addAll_eq (c : InternetChecksum) (data : List Bytes) : c.addAll data = c.add data.flatten := by
  induction data generalizing c with
  | nil => rfl
  | cons x data ih =>
    rw [List.flatten_cons, add, List.foldl_append]
    exact ih _

/-- While 32 bits hold the sum. -/
theorem sum_add (h : c.sum + pairSum c.parity data < 2 ^ 32) :
    (c.add data).sum = c.sum + pairSum c.parity data := by
  induction data generalizing c with
  | nil => rfl
  | cons b data ih =>
    rw [pairSum_cons] at h ⊢
    have hsum : (c.addByte b).sum = c.sum + byteWeight c.parity b := Nat.mod_eq_of_lt (by omega)
    have hpar : (c.addByte b).parity = !c.parity := rfl
    show ((c.addByte b).add data).sum = _
    rw [ih (by rw [hsum, hpar]; omega), hsum, hpar, Nat.add_assoc]

theorem toNat_value (c : InternetChecksum) : c.value.toNat = 0xffff - foldCarry c.sum := by
  have := foldCarry_le c.sum
  rw [value, UInt16.toNat_not, UInt16.toNat_ofNat', Nat.mod_eq_of_lt (by omega)]
  rfl

theorem value_eq_zero_iff : c.value = 0 ↔ 0 < c.sum ∧ c.sum % 0xffff = 0 := by
  have := foldCarry_le c.sum
  rw [← UInt16.toNat_inj, toNat_value, ← foldCarry_eq_iff]
  show _ = 0 ↔ _
  omega

end InternetChecksum

end Minnow
