import Minnow.Reassembler
import Minnow.Lib.Assembly

/-!
# The reassembler's two strings

Position `q` of the strings stands for the stream index `base + q`: `base` is 0 as long as no more
than a capacity's worth of bytes has been pushed, and the multiple of the capacity below
`bytes_pushed` from then on. `Shape` is what the strings satisfy in the middle of an `insert`, `Inv`
what they satisfy between two calls: the marks lie strictly ahead of the next byte to push and
inside the available capacity. `Models r a` reads a reassembler as an `Assembly`.
-/

namespace Minnow.Reassembler
open Prog ByteStream

/-- The stream index that position 0 of the strings stands for. -/
def base (r : Reassembler) : Nat :=
  if r.output.totalPushed ≤ r.storageCapacity then 0
  else r.output.totalPushed / r.storageCapacity * r.storageCapacity

/-- The position of the next byte to push. -/
def pos (r : Reassembler) : Nat := r.output.totalPushed - r.base

def Marked (r : Reassembler) (q : Nat) : Prop := r.storageBitmap[q]? = some true

/-- The byte stored for stream index `k`. -/
def held (r : Reassembler) (k : Nat) : Option Byte :=
  if r.base ≤ k ∧ r.storageBitmap[k - r.base]? = some true then r.storage[k - r.base]? else none

/-- Marks below `pos` are leftovers that the next `cleanUp` removes. Only a substring stored at the
last position makes the strings longer than the capacity, so marks past it form a run from there. -/
structure Shape (r : Reassembler) : Prop where
  stream : r.output.Wf
  sync : r.curIndex = r.output.totalPushed
  pos_capacity : 0 < r.storageCapacity
  capacity_le : r.storageCapacity ≤ r.output.capacity
  last : r.finalIndex = r.storageCapacity - 1
  strings : r.storage.length = r.storageBitmap.length
  size : r.storageCapacity ≤ r.storageBitmap.length
  flat : r.output.totalPushed ≤ r.storageCapacity → r.storageBitmap.length = r.storageCapacity
  fits : ∀ q, r.pos ≤ q → r.Marked q → r.base + q < r.output.totalPopped + r.output.capacity
  run : ∀ q, r.Marked q → r.storageCapacity ≤ q →
    ∀ q', r.storageCapacity - 1 ≤ q' → q' ≤ q → r.Marked q'

structure Inv (r : Reassembler) : Prop extends Shape r where
  ahead : ∀ q, r.Marked q → r.pos < q

/-- A reassembler between two calls, read as an assembly. -/
structure Models (r : Reassembler) (a : Assembly Byte) : Prop where
  inv : r.Inv
  length : a.out.length = r.output.totalPushed
  held : ∀ k, a.held k = r.held k

variable {r r' : Reassembler} {q k firstIndex : Nat} {data : Bytes} {isLast : Bool}

theorem Marked.lt (h : r.Marked q) : q < r.storageBitmap.length :=
  (List.getElem?_eq_some_iff.1 h).1

theorem base_le (r : Reassembler) : r.base ≤ r.output.totalPushed := by
  unfold base; split
  · exact Nat.zero_le _
  · exact Nat.div_mul_le_self _ _

theorem base_add_pos (r : Reassembler) : r.base + r.pos = r.output.totalPushed :=
  Nat.add_sub_cancel' r.base_le

theorem pos_of_le (h : r.output.totalPushed ≤ r.storageCapacity) :
    r.pos = r.output.totalPushed := by
  simp [pos, base, h]

theorem pos_of_lt (h : r.storageCapacity < r.output.totalPushed) :
    r.pos = r.output.totalPushed % r.storageCapacity := by
  have := Nat.div_add_mod' r.output.totalPushed r.storageCapacity
  unfold pos base; rw [if_neg (by omega)]; omega

theorem Shape.pos_lt_of_lt (h : r.Shape) (hlt : r.storageCapacity < r.output.totalPushed) :
    r.pos < r.storageCapacity := by
  rw [pos_of_lt hlt]; exact Nat.mod_lt _ h.pos_capacity

theorem Shape.pos_le (h : r.Shape) : r.pos ≤ r.storageCapacity := by
  by_cases hle : r.output.totalPushed ≤ r.storageCapacity
  · rw [pos_of_le hle]; exact hle
  · exact (h.pos_lt_of_lt (by omega)).le

theorem Shape.pos_le_length (h : r.Shape) : r.pos ≤ r.storageBitmap.length := h.pos_le.trans h.size

theorem newCurIndex_eq (hS : 0 < r.storageCapacity) (hsync : r.curIndex = r.output.totalPushed) :
    r.newCurIndex = some r.pos := by
  unfold newCurIndex
  simp only [bytesPushed, hsync]
  split
  · rw [if_neg (by omega), pos_of_lt (by omega)]
  · rw [pos_of_le (by omega)]

theorem Shape.newCurIndex_eq (h : r.Shape) : r.newCurIndex = some r.pos :=
  Reassembler.newCurIndex_eq h.pos_capacity h.sync

/-- The indices for which something is held are the marked positions. -/
theorem Shape.isSome_held (h : r.Shape) :
    (r.held k).isSome ↔ r.base ≤ k ∧ r.Marked (k - r.base) := by
  unfold held
  split
  next hk =>
    have := h.strings ▸ Marked.lt (r := r) hk.2
    simp only [hk.1, Marked, hk.2, List.getElem?_eq_getElem this]; simp
  next hk => simpa [Marked] using hk

theorem held_of_marked (hk : r.Marked q) : r.held (r.base + q) = r.storage[q]? := by
  unfold held; rw [Nat.add_sub_cancel_left, if_pos ⟨by omega, hk⟩]

theorem Inv.held_eq_none (h : r.Inv) (hk : k ≤ r.output.totalPushed) : r.held k = none := by
  have := r.base_add_pos
  rw [← Option.not_isSome_iff_eq_none, h.isSome_held]
  rintro ⟨hb, hm⟩
  have := h.ahead _ hm
  omega

/-! ### Runs of marks -/

theorem runLength_le (r : Reassembler) (h : q ≤ r.storageBitmap.length) :
    q + r.runLength q ≤ r.storageBitmap.length := by
  have := (List.takeWhile_prefix id (l := r.storageBitmap.drop q)).length_le
  rw [List.length_drop] at this
  unfold runLength; omega

theorem marked_of_lt_runLength {j : Nat} (h : j < r.runLength q) : r.Marked (q + j) := by
  obtain ⟨b, hb, hp⟩ := getElem?_of_lt_takeWhile h
  rw [List.getElem?_drop] at hb
  rw [Marked, hb, show b = true from hp]

theorem not_marked_runLength (r : Reassembler) (q : Nat) : ¬ r.Marked (q + r.runLength q) := by
  intro h
  rw [Marked, ← List.getElem?_drop] at h
  exact absurd (not_of_getElem?_takeWhile h) (by simp)

theorem runLength_of_marked (h : r.Marked q) : r.runLength q = 1 + r.runLength (q + 1) := by
  obtain ⟨hq, hb⟩ := List.getElem?_eq_some_iff.1 h
  simp only [runLength]
  rw [List.drop_eq_getElem_cons hq, hb, List.takeWhile_cons_of_pos rfl, List.length_cons]
  omega

theorem runLength_of_not_marked (h : ¬ r.Marked q) : r.runLength q = 0 := by
  by_contra hne
  exact h (marked_of_lt_runLength (j := 0) (Nat.pos_of_ne_zero hne))

/-! ### The second half of `insert` -/

/-- What a call does to the output: `xs` is pushed. -/
structure Moves (r : Reassembler) (xs : Bytes) (r' : Reassembler) : Prop where
  queued : r'.output.queued = r.output.queued ++ xs
  totalPushed : r'.output.totalPushed = r.output.totalPushed + xs.length
  totalPopped : r'.output.totalPopped = r.output.totalPopped
  capacity : r'.output.capacity = r.output.capacity
  error : r'.output.error = r.output.error
  storageCapacity : r'.storageCapacity = r.storageCapacity

theorem Moves.refl : Moves r [] r := ⟨(List.append_nil _).symm, rfl, rfl, rfl, rfl, rfl⟩

theorem Moves.trans {xs ys : Bytes} {r'' : Reassembler} (h : Moves r xs r') (h' : Moves r' ys r'') :
    Moves r (xs ++ ys) r'' where
  queued := by rw [h'.queued, h.queued, List.append_assoc]
  totalPushed := by rw [h'.totalPushed, h.totalPushed, List.length_append]; omega
  totalPopped := h'.totalPopped.trans h.totalPopped
  capacity := h'.capacity.trans h.capacity
  error := h'.error.trans h.error
  storageCapacity := h'.storageCapacity.trans h.storageCapacity

/-- The stored bytes that the drain pushes. -/
def ready (r : Reassembler) : Bytes := (r.storage.drop r.pos).take (r.runLength r.pos)

theorem length_ready (hlen : r.pos ≤ r.storageBitmap.length)
    (hstr : r.storage.length = r.storageBitmap.length) : r.ready.length = r.runLength r.pos := by
  have := r.runLength_le hlen
  simp only [ready, List.length_take, List.length_drop]; omega

theorem Shape.length_ready (h : r.Shape) : r.ready.length = r.runLength r.pos :=
  Reassembler.length_ready h.pos_le_length h.strings

/-- There is room for all of them. -/
theorem Shape.taken_ready (h : r.Shape) (hopen : r.output.isClosed = false ∨ ¬ r.Marked r.pos) :
    r.output.taken r.ready = r.ready := by
  by_cases hm : r.Marked r.pos
  · have hc := hopen.resolve_right (not_not_intro hm)
    have hn : r.ready.length ≤ r.output.availableCapacity := by
      have hone := runLength_of_marked hm
      have hlast := h.fits _ (Nat.le_add_right _ (r.runLength (r.pos + 1)))
        (marked_of_lt_runLength (by omega))
      have := r.base_add_pos
      have := h.stream.pushed
      rw [h.length_ready, h.stream.availableCapacity_eq]
      omega
    simp [taken, hc, List.take_of_length_le hn]
  · have : r.ready = [] := by simp [ready, runLength_of_not_marked hm]
    simp [taken, this]

/-- The drain offers `ready` to the output and moves `cur_index` by its length; it and the clean-up
leave no mark below the new position. -/
theorem drain_cleanUp_eq (hlen : r.pos ≤ r.storageBitmap.length)
    (hstr : r.storage.length = r.storageBitmap.length) :
    ∃ b, ((r.drain r.pos).bind fun r' => r'.cleanUp r.pos) = .ok { r with
        output := r.output.push r.ready, storageBitmap := b
        curIndex := r.curIndex + r.ready.length } ∧
      b.length = r.storageBitmap.length ∧
      ∀ q, b[q]? = if q < r.pos + r.ready.length ∧ q < r.storageBitmap.length then some false
        else r.storageBitmap[q]? := by
  have hready := length_ready hlen hstr
  have clear : ∀ b : List Bool, b.length = r.storageBitmap.length →
      ∃ b', replace b 0 r.pos (List.replicate r.pos false) = some b' ∧
        b'.length = r.storageBitmap.length ∧
        ∀ q, b'[q]? = if q < r.pos then some false else b[q]? := by
    intro b hb
    obtain ⟨c, hc, hcl, hcq⟩ := exists_replace_fill (show 0 + r.pos ≤ b.length by omega) false
    exact ⟨c, hc, by omega, fun q => by rw [hcq]; simp⟩
  unfold drain
  rw [if_neg (by omega)]
  by_cases hm : r.storageBitmap[r.pos]? = some true
  · have hn : 1 + r.runLength (r.pos + 1) = r.ready.length := by
      rw [hready, runLength_of_marked hm]
    have hle := r.runLength_le hlen
    rw [← hready] at hle
    have hsub : substr r.storage r.pos r.ready.length = some r.ready :=
      substr_eq_some.2 ⟨by rw [hstr]; exact hlen, by rw [hready]; rfl⟩
    obtain ⟨b, hb, hbl, hbq⟩ := exists_replace_fill hle false
    obtain ⟨c, hc, hcl, hcq⟩ := clear b hbl
    refine ⟨c, ?_, hcl, fun q => ?_⟩
    · simp only [if_pos hm, hn, hsub, hb, Outcome.bind, cleanUp, hc]
    · rw [hcq, hbq]
      rcases Nat.lt_or_ge q r.pos with hq | hq
      · rw [if_pos hq, if_pos ⟨by omega, by omega⟩]
      · rw [if_neg (by omega)]
        rcases Nat.lt_or_ge q (r.pos + r.ready.length) with hq' | hq'
        · rw [if_pos ⟨hq, hq'⟩, if_pos ⟨hq', by omega⟩]
        · rw [if_neg (by omega), if_neg (by omega)]
  · have hnil : r.ready = [] := by simp [ready, runLength_of_not_marked hm]
    obtain ⟨c, hc, hcl, hcq⟩ := clear _ rfl
    refine ⟨c, ?_, hcl, fun q => ?_⟩
    · simp only [if_neg hm, Outcome.bind, cleanUp, hc, hnil, push_nil, List.length_nil, Nat.add_zero]
    · rw [hcq, hnil, List.length_nil, Nat.add_zero]
      rcases Nat.lt_or_ge q r.pos with hq | hq
      · rw [if_pos hq, if_pos ⟨hq, by omega⟩]
      · rw [if_neg (by omega), if_neg (by omega)]

/-- In a shape all of `ready` is pushed. -/
theorem Shape.drain_cleanUp (h : r.Shape) (hopen : r.output.isClosed = false ∨ ¬ r.Marked r.pos) :
    ∃ o b, ((r.drain r.pos).bind fun r' => r'.cleanUp r.pos) = .ok { r with
        output := o, storageBitmap := b, curIndex := r.curIndex + r.ready.length } ∧
      Pushed r.output r.ready o ∧ o.Wf ∧ b.length = r.storageBitmap.length ∧
      ∀ q, b[q]? = if q < r.pos + r.ready.length ∧ q < r.storageBitmap.length then some false
        else r.storageBitmap[q]? := by
  have hpush := push_pushed r.output r.ready
  rw [h.taken_ready hopen] at hpush
  obtain ⟨b, hdc, hbl, hbq⟩ := drain_cleanUp_eq h.pos_le_length h.strings
  exact ⟨_, b, hdc, hpush, h.stream.push _, hbl, hbq⟩

/-- The index after the last byte, as far as it is known after a call. -/
def endAfter (r : Reassembler) (firstIndex : Nat) (data : Bytes) (isLast : Bool) : Nat :=
  if isLast then add64 firstIndex data.length else r.totalLen

theorem closeAtEnd_eq (r : Reassembler) (firstIndex : Nat) (data : Bytes) (isLast : Bool) :
    r.closeAtEnd firstIndex data isLast = { r with
      seenLast := r.seenLast || isLast
      totalLen := r.endAfter firstIndex data isLast
      output := { r.output with isClosed := r.output.isClosed || ((r.seenLast || isLast) &&
        decide (r.output.totalPushed = r.endAfter firstIndex data isLast)) } } := by
  have close_iff : ∀ (s : Reassembler),
      (if s.seenLast = true ∧ s.output.bytesPushed = s.totalLen then
        { s with output := s.output.close } else s) =
      { s with output := { s.output with isClosed :=
        s.output.isClosed || (s.seenLast && decide (s.output.totalPushed = s.totalLen)) } } := by
    intro s
    by_cases hs : s.seenLast = true ∧ s.output.bytesPushed = s.totalLen
    · rw [if_pos hs]; simp_all [close]
    · rw [if_neg hs]
      have : (s.seenLast && decide (s.output.totalPushed = s.totalLen)) = false := by
        simpa using hs
      rw [this, Bool.or_false]
  unfold closeAtEnd
  rw [close_iff]
  cases isLast <;> simp [endAfter]

/-- Pushing `n` more bytes leaves the base alone unless they fill up the lap. -/
theorem base_eq_of_lt {n : Nat} (hS : r'.storageCapacity = r.storageCapacity)
    (hP : r'.output.totalPushed = r.output.totalPushed + n)
    (h : r'.output.totalPushed ≤ r.storageCapacity ∨
      (r.storageCapacity < r.output.totalPushed ∧ r.pos + n < r.storageCapacity)) :
    r'.base = r.base := by
  rcases h with h | ⟨hlt, h⟩
  · simp only [base, hS]
    rw [if_pos h, if_pos (by omega)]
  · have hS0 : 0 < r.storageCapacity := by omega
    have hdiv : (r.output.totalPushed + n) / r.storageCapacity =
        r.output.totalPushed / r.storageCapacity := by
      rw [pos_of_lt hlt] at h
      conv_lhs => rw [← Nat.div_add_mod r.output.totalPushed r.storageCapacity]
      rw [Nat.add_assoc, Nat.mul_add_div hS0, Nat.div_eq_of_lt h, Nat.add_zero]
    simp only [base, hS]
    rw [if_neg (by omega), if_neg (by omega), hP, hdiv]

/-- Where `ready` ends, either the strings keep their base or no mark is left. -/
theorem Shape.base_ready (h : r.Shape) (hS : r'.storageCapacity = r.storageCapacity)
    (hP : r'.output.totalPushed = r.output.totalPushed + r.ready.length) :
    (r'.base = r.base ∧ r'.pos = r.pos + r.ready.length) ∨
      ∀ q, r.pos + r.ready.length ≤ q → ¬ r.Marked q := by
  have hend := h.length_ready ▸ r.not_marked_runLength r.pos
  have hle := h.length_ready ▸ r.runLength_le h.pos_le_length
  have hpos := r.base_add_pos
  have hpos' := r'.base_add_pos
  by_cases hb : r'.base = r.base
  · exact .inl ⟨hb, by omega⟩
  refine .inr fun q hq hm => ?_
  have hlt : r.storageCapacity < r.output.totalPushed := by
    by_contra hle'
    have hflat := h.flat (by omega)
    have := pos_of_le (r := r) (by omega)
    exact hb (base_eq_of_lt hS hP (.inl (by omega)))
  have hlap : r.storageCapacity ≤ r.pos + r.ready.length := by
    by_contra hlt'
    exact hb (base_eq_of_lt hS hP (.inr ⟨hlt, by omega⟩))
  -- the run of marks from the last position on would go through the end of `ready`
  exact hend (h.run q hm (by omega) _ (by omega) hq)

/-- Everything `finish` does. -/
structure Finished (r : Reassembler) (firstIndex : Nat) (data : Bytes) (isLast : Bool)
    (r' : Reassembler) : Prop where
  inv : r'.Inv
  moves : Moves r r.ready r'
  ready : ∀ j < r.ready.length, r.held (r.output.totalPushed + j) = r.ready[j]?
  held : ∀ k, r'.held k = if k < r'.output.totalPushed then none else r.held k
  seenLast : r'.seenLast = (r.seenLast || isLast)
  totalLen : r'.totalLen = r.endAfter firstIndex data isLast
  isClosed : r'.output.isClosed =
    (r.output.isClosed || (r'.seenLast && decide (r'.output.totalPushed = r'.totalLen)))

/-- What the drain and the clean-up leave: `ready` is pushed, and the marks past it stay. -/
structure Drained (r r' : Reassembler) : Prop where
  shape : r'.Shape
  moves : Moves r r.ready r'
  storage : r'.storage = r.storage
  marked : ∀ q, r'.Marked q ↔ r.pos + r.ready.length < q ∧ r.Marked q
  isClosed : r'.output.isClosed = r.output.isClosed
  seenLast : r'.seenLast = r.seenLast
  totalLen : r'.totalLen = r.totalLen

theorem Shape.drained (h : r.Shape) (hopen : r.output.isClosed = false ∨ ¬ r.Marked r.pos) :
    ∃ r', ((r.drain r.pos).bind fun r' => r'.cleanUp r.pos) = .ok r' ∧ Drained r r' := by
  obtain ⟨o, b, hdc, hpush, hwf, hbl, hbq⟩ := h.drain_cleanUp hopen
  have hend := h.length_ready ▸ r.not_marked_runLength r.pos
  have hle := h.length_ready ▸ r.runLength_le h.pos_le_length
  let r₁ : Reassembler := { r with
    output := o, storageBitmap := b, curIndex := r.curIndex + r.ready.length }
  have hmark : ∀ q, r₁.Marked q ↔ r.pos + r.ready.length < q ∧ r.Marked q := by
    intro q
    simp only [Marked, r₁, hbq]
    constructor
    · intro hq
      split at hq
      · cases hq
      · have := (List.getElem?_eq_some_iff.1 hq).1
        have hne : q ≠ r.pos + r.ready.length := fun e => hend (e ▸ hq)
        exact ⟨by omega, hq⟩
    · rintro ⟨hlt, hq⟩
      rw [if_neg (by omega)]; exact hq
  have hbase := h.base_ready (rfl : r₁.storageCapacity = _) hpush.totalPushed
  have hpos := r.base_add_pos
  have hpos₁ := r₁.base_add_pos
  have hP : r₁.output.totalPushed = r.output.totalPushed + r.ready.length := hpush.totalPushed
  have hcap : r₁.storageCapacity = r.storageCapacity := rfl
  have hS : r₁.Shape := by
    refine ⟨hwf, ?_, h.pos_capacity, hpush.capacity ▸ h.capacity_le, h.last, hbl ▸ h.strings,
      hbl ▸ h.size, fun hle' => hbl ▸ h.flat (by omega), fun q hq hm => ?_,
      fun q hm hSq q' h1 h2 => ?_⟩
    · show r.curIndex + _ = _; rw [h.sync, hP]
    · have hm' := (hmark q).1 hm
      have hf := h.fits q (by omega) hm'.2
      rcases hbase with ⟨hb, -⟩ | hb
      · show r₁.base + q < o.totalPopped + o.capacity
        rw [hb, hpush.totalPopped, hpush.capacity]; exact hf
      · exact absurd hm'.2 (hb q (by omega))
    · have hm' := (hmark q).1 hm
      have hq' := h.run q hm'.2 hSq q' h1 h2
      refine (hmark q').2 ⟨?_, hq'⟩
      by_contra hge
      exact hend (h.run q hm'.2 hSq _ (by omega) (by omega))
  exact ⟨r₁, hdc, hS,
    ⟨hpush.queued, hpush.totalPushed, hpush.totalPopped, hpush.capacity, hpush.error, rfl⟩,
    rfl, hmark, hpush.isClosed, rfl, rfl⟩

theorem Drained.ahead (h : r.Shape) (hd : Drained r r') (hm : r'.Marked q) : r'.pos < q := by
  have hq := (hd.marked q).1 hm
  rcases h.base_ready hd.moves.storageCapacity hd.moves.totalPushed with ⟨-, hb⟩ | hb
  · omega
  · exact absurd hq.2 (hb q (by omega))

theorem Drained.held (h : r.Shape) (hd : Drained r r') (k : Nat) :
    r'.held k = if k < r'.output.totalPushed then none else r.held k := by
  have hP := hd.moves.totalPushed
  have hpos := r.base_add_pos
  have hpos' := r'.base_add_pos
  have hisSome : (r'.held k).isSome ↔
      r'.base ≤ k ∧ r.pos + r.ready.length < k - r'.base ∧ r.Marked (k - r'.base) := by
    rw [hd.shape.isSome_held, hd.marked]
  split
  next hk =>
    rw [← Option.not_isSome_iff_eq_none, hisSome]
    rintro ⟨h1, h2, h3⟩
    rcases h.base_ready hd.moves.storageCapacity hP with ⟨hb, -⟩ | hb
    · omega
    · exact hb _ (by omega) h3
  next hk =>
    rcases h.base_ready hd.moves.storageCapacity hP with ⟨hb, -⟩ | hb
    · -- the same base, and the run of marks that was drained does not reach `k`
      have hend := h.length_ready ▸ r.not_marked_runLength r.pos
      have hm : r'.Marked (k - r.base) ↔ r.Marked (k - r.base) := by
        rw [hd.marked, and_iff_right_iff_imp]
        intro hm
        have hne : k - r.base ≠ r.pos + r.ready.length := fun e => hend (e ▸ hm)
        omega
      unfold Reassembler.held
      rw [hb, hd.storage]
      exact if_congr (and_congr_right fun _ => hm) rfl rfl
    · have hn : ¬ (r'.held k).isSome := by
        rw [hisSome]; rintro ⟨-, h2, h3⟩; exact hb _ (by omega) h3
      have hn' : ¬ (r.held k).isSome := by
        rw [h.isSome_held]; rintro ⟨-, h2⟩; exact hb _ (by omega) h2
      rw [Option.not_isSome_iff_eq_none.1 hn, Option.not_isSome_iff_eq_none.1 hn']

theorem Shape.finish_spec (h : r.Shape) (firstIndex : Nat) (data : Bytes) (isLast : Bool)
    (hopen : r.output.isClosed = false ∨ ¬ r.Marked r.pos) :
    ∃ r', r.finish firstIndex data isLast = .ok r' ∧ Finished r firstIndex data isLast r' := by
  obtain ⟨r₁, hr₁, hd⟩ := h.drained hopen
  have hS := hd.shape
  have hwf := hS.stream
  have hm := hd.moves
  have hahead : ∀ q, r₁.Marked q → r₁.pos < q := fun _ => hd.ahead h
  have hheld := hd.held h
  refine ⟨r₁.closeAtEnd firstIndex data isLast, ?_, ?_⟩
  · simp only [finish, h.newCurIndex_eq, hr₁]
    rfl
  rw [closeAtEnd_eq]
  -- closing moves no byte
  refine ⟨⟨⟨⟨hwf.word, hwf.buffered, hwf.fits, hwf.chunks, hwf.pushed⟩, hS.sync, hS.pos_capacity,
    hS.capacity_le, hS.last, hS.strings, hS.size, hS.flat, hS.fits, hS.run⟩,
    hahead⟩,
    ⟨hm.queued, hm.totalPushed, hm.totalPopped, hm.capacity, hm.error, hm.storageCapacity⟩,
    fun j hj => ?_, hheld, ?_, ?_, ?_⟩
  · rw [← r.base_add_pos, Nat.add_assoc,
      held_of_marked (marked_of_lt_runLength (h.length_ready ▸ hj)), ready,
      List.getElem?_take_of_lt (h.length_ready ▸ hj), List.getElem?_drop]
  · rw [hd.seenLast]
  · rw [endAfter, hd.totalLen]; rfl
  · rw [hd.isClosed]

end Minnow.Reassembler
