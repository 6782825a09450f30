import Mathlib.Data.List.Basic

/-!
# Bounded FIFOs

A queue with room for `capacity` elements. A write keeps as much of its argument as there is room
for and the rest is dropped; nothing is kept after `close`. `Fifo.Run` records, next to the queue,
everything written and everything read: what was read comes first in what was written, and the rest
is what is queued (`Fifo.Run.split`).
-/

namespace Prog

variable {α : Type}

structure Fifo (α : Type) where
  capacity : Nat
  items : List α
  closed : Bool
  fits : items.length ≤ capacity

namespace Fifo

def new (capacity : Nat) : Fifo α := ⟨capacity, [], false, Nat.zero_le _⟩

def room (f : Fifo α) : Nat := f.capacity - f.items.length

/-- The part of `xs` that a write keeps. -/
def kept (f : Fifo α) (xs : List α) : List α := if f.closed then [] else xs.take f.room

theorem length_kept_le (f : Fifo α) (xs : List α) : (f.kept xs).length ≤ f.room := by
  unfold kept
  split
  · exact Nat.zero_le _
  · exact List.length_take_le _ _

def write (f : Fifo α) (xs : List α) : Fifo α where
  capacity := f.capacity
  items := f.items ++ f.kept xs
  closed := f.closed
  fits := by
    have h := f.length_kept_le xs
    have := f.fits
    simp only [List.length_append, room] at h ⊢; omega

def close (f : Fifo α) : Fifo α := { f with closed := true }

def drop (f : Fifo α) (n : Nat) : Fifo α where
  capacity := f.capacity
  items := f.items.drop n
  closed := f.closed
  fits := by have := f.fits; simp only [List.length_drop]; omega

def finished (f : Fifo α) : Prop := f.closed = true ∧ f.items = []

/-- The queue after some writes and reads, with everything kept by the writes and everything taken
by the reads. -/
inductive Run (capacity : Nat) : Fifo α → List α → List α → Prop
  | start : Run capacity (new capacity) [] []
  | write {f : Fifo α} {acc out : List α} (xs : List α) (h : Run capacity f acc out) :
      Run capacity (f.write xs) (acc ++ f.kept xs) out
  | close {f : Fifo α} {acc out : List α} (h : Run capacity f acc out) :
      Run capacity f.close acc out
  | drop {f : Fifo α} {acc out : List α} (n : Nat) (h : Run capacity f acc out) :
      Run capacity (f.drop n) acc (out ++ f.items.take n)

theorem Run.split {capacity : Nat} {f : Fifo α} {acc out : List α} (h : Run capacity f acc out) :
    out ++ f.items = acc := by
  induction h with
  | start => rfl
  | write xs _ ih => simp only [Fifo.write, ← ih, List.append_assoc]
  | close _ ih => exact ih
  | drop n _ ih => simp only [Fifo.drop, List.append_assoc, List.take_append_drop, ih]

theorem Run.capacity_eq {capacity : Nat} {f : Fifo α} {acc out : List α}
    (h : Run capacity f acc out) : f.capacity = capacity := by
  induction h with
  | start => rfl
  | write _ _ ih | close _ ih | drop _ _ ih => exact ih

end Fifo

end Prog
