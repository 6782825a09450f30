import Minnow.Lib.BigEndian

/-!
# Reading a byte string from the front

A cursor is what is left of a byte string, with an error flag that stays once it is set. Reading more
than is left sets it; after an error a read gives back the value that was there before. Skipping past
the end is no error.
-/

namespace Prog

structure Cursor where
  left : List UInt8
  error : Bool := false
deriving Repr, DecidableEq

namespace Cursor

/-- An error, unless `n` bytes are left. -/
def need (c : Cursor) (n : Nat) : Cursor :=
  if c.left.length < n then { c with error := true } else c

def skip (c : Cursor) (n : Nat) : Cursor := { c with left := c.left.drop n }

/-- The next `n` bytes, if there are as many and there has been no error. -/
def next (c : Cursor) (n : Nat) : Option (List UInt8) × Cursor :=
  if (c.need n).error then (none, c.need n) else (some (c.left.take n), c.skip n)

/-- A read of an integer of `len` bytes or of a string, or a skip. -/
inductive Op
  | int (len old : Nat)
  | str (old : List UInt8)
  | skip (n : Nat)

/-- What a read gives. -/
inductive Value
  | int (n : Nat)
  | str (bytes : List UInt8)
deriving Repr, DecidableEq

def int (c : Cursor) (len old : Nat) : Nat × Cursor :=
  ((c.next len).1.elim old (ofBigEndian 0), (c.next len).2)

def str (c : Cursor) (old : List UInt8) : List UInt8 × Cursor :=
  ((c.next old.length).1.getD old, (c.next old.length).2)

/-- The values of a sequence of operations, and where it leaves the cursor. -/
def run : List Op → Cursor → List Value × Cursor
  | [], c => ([], c)
  | .int len old :: ops, c =>
    let (n, c) := c.int len old
    let (values, c) := run ops c
    (.int n :: values, c)
  | .str old :: ops, c =>
    let (bytes, c) := c.str old
    let (values, c) := run ops c
    (.str bytes :: values, c)
  | .skip n :: ops, c => run ops (c.skip n)

variable {c : Cursor} {n len old : Nat}

theorem need_error : (c.need n).error = true ↔ c.error = true ∨ c.left.length < n := by
  unfold need
  split
  next h => exact iff_of_true rfl (.inr h)
  next h => exact (or_iff_left h).symm

theorem next_of_le (herr : c.error = false) (h : n ≤ c.left.length) :
    c.next n = (some (c.left.take n), c.skip n) := by
  refine if_neg fun hn => ?_
  rcases need_error.1 hn with hn | hn
  · rw [herr] at hn; cases hn
  · omega

/-- Fewer than `n` bytes are left, or there has been an error. -/
def Short (c : Cursor) (n : Nat) : Prop := c.error = true ∨ c.left.length < n

theorem Short.error (h : c.Short 0) : c.error = true := h.resolve_right (Nat.not_lt_zero _)

/-- A cursor that is short of bytes is still short of the rest of them after a read. -/
theorem Short.next (h : c.Short n) (len : Nat) : (c.next len).2.Short (n - len) := by
  unfold Cursor.next
  split
  next herr => exact .inl herr
  next herr =>
    refine h.imp_right fun hlt => ?_
    have hlen := mt need_error.2 herr
    rw [not_or] at hlen
    show (c.left.drop len).length < n - len
    rw [List.length_drop]
    omega

end Cursor

end Prog
