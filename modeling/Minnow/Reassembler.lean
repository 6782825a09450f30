import Mathlib.Algebra.Group.Int.Defs
import Minnow.ByteStream
import Minnow.Lib.Outcome
import Minnow.Lib.Text

/-!
# The reassembler (`reassembler.hh`, `reassembler.cc`)

`storage` and `storageBitmap` are the two strings of the source, the bitmap with `true` for the
character `'1'`. `insert` is cut where the source separates its phases by comments: the branch on
where the substring starts, `drain` (pushing stored bytes), `cleanUp` and `closeAtEnd`.
-/

namespace Minnow
open Prog

structure Reassembler where
  output : ByteStream
  storageCapacity : Nat
  curIndex : Nat := 0
  finalIndex : Nat
  totalLen : Nat := 0
  seenLast : Bool := false
  storage : Bytes := []
  storageBitmap : List Bool := []
deriving Repr, DecidableEq

/-- An `int` converted to `uint64_t`. -/
def ofInt (i : Int) : Nat := (i % 2 ^ 64).toNat

namespace Reassembler

/-- The constructor: both sizes come from `getCapacity()`, which is an `int`. With a capacity of
`2 ^ 31` modulo `2 ^ 32` the subtraction overflows it in the source, which is undefined; here it
does not, and every `insert` throws. -/
def ofStream (output : ByteStream) : Reassembler where
  output := output
  storageCapacity := ofInt output.getCapacity
  finalIndex := ofInt (output.getCapacity - 1)

/-- `is_valid_index`; `none` where it divides by zero. -/
def isValidIndex (r : Reassembler) (index : Nat) : Option Bool :=
  if r.output.bytesPushed < r.storageCapacity then
    some (decide (r.curIndex ≤ index ∧ index < r.curIndex + r.storageCapacity))
  else if r.storageCapacity = 0 then none
  else
    let newIndex := index % r.storageCapacity
    some (decide (r.curIndex % r.storageCapacity ≤ newIndex ∧
      newIndex < r.curIndex % r.storageCapacity + r.storageCapacity))

def lastIndex (r : Reassembler) : Nat := r.finalIndex

/-- The two strings are made on the first call. A capacity that `int` makes negative asks for a
string longer than any string can be. -/
def init (r : Reassembler) : Outcome Reassembler :=
  if r.storage = [] ∧ r.storageBitmap = [] then
    let n := (r.storageCapacity : Int).bmod (2 ^ 32)
    if n < 0 then .throws .lengthError r
    else .ok { r with
      storage := List.replicate n.toNat 48
      storageBitmap := List.replicate n.toNat false }
  else .ok r

/-- Push as much of `data` as fits and move `cur_index` by what was offered to `push`. -/
def pushNow (r : Reassembler) (data : Bytes) : Reassembler :=
  let tempStr := data.take r.output.availableCapacity
  { r with output := r.output.push tempStr, curIndex := r.curIndex + tempStr.length }

/-- What the last branch of `insert` keeps of a substring that starts ahead of `cur_index`. -/
def clip (r : Reassembler) (firstIndex : Nat) (data : Bytes) : Bytes :=
  if r.output.bytesPushed < r.storageCapacity then
    data.take (add64 (sub64 r.lastIndex firstIndex) 1)
  else
    data.take (sub64 r.lastIndex (firstIndex % r.storageCapacity + 1))

/-- The position in the two strings where that branch puts it. -/
def slot (r : Reassembler) (firstIndex : Nat) : Nat :=
  if r.output.bytesPushed < r.storageCapacity then firstIndex
  else firstIndex % r.storageCapacity

/-- Write a substring into the strings; `replace` throws past their end. -/
def store (r : Reassembler) (firstIndex : Nat) (data : Bytes) : Outcome Reassembler :=
  let curStr := r.clip firstIndex data
  let ones := List.replicate curStr.length true
  match replace r.storage (r.slot firstIndex) curStr.length curStr with
  | none => .throws .outOfRange r
  | some storage =>
    match replace r.storageBitmap (r.slot firstIndex) curStr.length ones with
    | none => .throws .outOfRange { r with storage }
    | some storageBitmap => .ok { r with storage, storageBitmap }

/-- `new_cur_index`; `none` where it divides by zero. -/
def newCurIndex (r : Reassembler) : Option Nat :=
  if r.output.bytesPushed > r.storageCapacity then
    if r.storageCapacity = 0 then none else some (r.curIndex % r.storageCapacity)
  else some r.curIndex

/-- The number of `'1'`s from `i` on, up to the first `'0'` or the end of the bitmap. -/
def runLength (r : Reassembler) (i : Nat) : Nat :=
  ((r.storageBitmap.drop i).takeWhile id).length

/-- Push the stored bytes at `new_cur_index`, if there are any. Reading the character one past the
end of the bitmap gives `'\0'`, reading further is undefined. -/
def drain (r : Reassembler) (newCur : Nat) : Outcome Reassembler :=
  if r.storageBitmap.length < newCur then .undefined .pastEnd
  else if r.storageBitmap[newCur]? = some true then
    let count := 1 + r.runLength (newCur + 1)
    match substr r.storage newCur count with
    | none => .throws .outOfRange r
    | some curStr =>
      let r := { r with output := r.output.push curStr }
      match replace r.storageBitmap newCur count (List.replicate count false) with
      | none => .throws .outOfRange r
      | some storageBitmap =>
        .ok { r with storageBitmap, curIndex := r.curIndex + curStr.length }
  else .ok r

/-- Clear the bitmap below the `new_cur_index` of before the drain. -/
def cleanUp (r : Reassembler) (newCur : Nat) : Outcome Reassembler :=
  match replace r.storageBitmap 0 newCur (List.replicate newCur false) with
  | none => .throws .outOfRange r
  | some storageBitmap => .ok { r with storageBitmap }

/-- Note where the stream ends, and close the output once it has been pushed up to there. -/
def closeAtEnd (r : Reassembler) (firstIndex : Nat) (data : Bytes) (isLastSubstring : Bool) :
    Reassembler :=
  let r :=
    if isLastSubstring then
      { r with seenLast := true, totalLen := add64 firstIndex data.length }
    else r
  if r.seenLast = true ∧ r.output.bytesPushed = r.totalLen then
    { r with output := r.output.close }
  else r

/-- Everything `insert` does after its three-way branch. -/
def finish (r : Reassembler) (firstIndex : Nat) (data : Bytes) (isLastSubstring : Bool) :
    Outcome Reassembler :=
  match r.newCurIndex with
  | none => .undefined .divByZero
  | some newCur =>
    ((r.drain newCur).bind fun r => r.cleanUp newCur).bind
      fun r => .ok (r.closeAtEnd firstIndex data isLastSubstring)

/-- Where in `data` the byte `cur_index` is found when the substring starts behind it. -/
def findCur (r : Reassembler) (firstIndex : Nat) (data : Bytes) : Option Nat :=
  (List.range data.length).find? fun i => add64 firstIndex i = r.curIndex

def insert (r : Reassembler) (firstIndex : Nat) (data : Bytes) (isLastSubstring : Bool) :
    Outcome Reassembler :=
  r.init.bind fun r =>
    if firstIndex = r.curIndex then
      (r.pushNow data).finish firstIndex data isLastSubstring
    else if firstIndex < r.curIndex then
      match r.findCur firstIndex data with
      | some i => (r.pushNow (data.drop i)).finish firstIndex data isLastSubstring
      | none => r.finish firstIndex data isLastSubstring
    else
      match r.isValidIndex firstIndex with
      | none => .undefined .divByZero
      | some false => .ok r
      | some true =>
        (r.store firstIndex data).bind fun r => r.finish firstIndex data isLastSubstring

def bytesPending (r : Reassembler) : Nat := r.storageBitmap.count true

end Reassembler

end Minnow
