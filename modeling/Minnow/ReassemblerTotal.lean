import Minnow.ReassemblerTracks

/-!
# Which calls of `insert` complete

`AnyRun` collects the reassemblers that inserts of any strings and reads can reach: the strings need
not be pieces of one stream, and a call that throws leaves the object as it then is. `Sized` is what
still holds of the counters and of the two strings. A call completes exactly if the
reassembler `Admits` it (`insert_completes_iff`); `insert_fails` is a call that throws.
-/

namespace Minnow.Reassembler
open Prog ByteStream

/-- The reassemblers over a stream of a given capacity. -/
inductive AnyRun (capacity : Nat) : Reassembler → Prop
  | start : AnyRun capacity (ofStream { capacity })
  | insert {r r' : Reassembler} (firstIndex : Nat) (data : Bytes) (isLast : Bool)
      (h : AnyRun capacity r) (hword : firstIndex < 2 ^ 64)
      (hl : (r.insert firstIndex data isLast).Leaves r') : AnyRun capacity r'
  | pop {r : Reassembler} {o : ByteStream} (len : Nat) (h : AnyRun capacity r)
      (hlen : len ≤ r.output.bytesBuffered) (hpop : r.output.pop len = some o) :
      AnyRun capacity { r with output := o }

/-- A substring ahead of `cur_index` must not start past the end of the strings. A closed output
takes no bytes although `cur_index` moves on, and it must not move past the end of the strings.
Without room in the strings nothing may be pushed, and with a negative capacity they cannot be
made. -/
def Admits (r : Reassembler) (firstIndex : Nat) (data : Bytes) : Prop :=
  0 ≤ r.output.getCapacity ∧
  if r.storageCapacity = 0 then firstIndex = 0 ∧ data = []
  else if r.curIndex < firstIndex then
    r.output.bytesPushed < r.storageCapacity → firstIndex < r.curIndex + r.storageCapacity →
      firstIndex ≤ r.storageCapacity
  else
    r.output.isClosed = true → r.output.bytesPushed ≤ r.storageCapacity →
      r.curIndex + min (firstIndex + data.length - r.curIndex) r.output.availableCapacity ≤
        r.storageBitmap.length

instance (r : Reassembler) (firstIndex : Nat) (data : Bytes) :
    Decidable (r.Admits firstIndex data) :=
  inferInstanceAs (Decidable (_ ∧ ite _ _ (ite _ _ _)))

/-- What is left of `Shape` when the strings inserted may be any: `cur_index` goes with the bytes
pushed only in the first lap and only while the output is open. -/
structure Sized (r : Reassembler) : Prop where
  stream : r.output.Wf
  pos_capacity : 0 < r.storageCapacity
  int : (r.storageCapacity : Int) = r.output.getCapacity
  last : r.finalIndex = r.storageCapacity - 1
  strings : r.storage.length = r.storageBitmap.length
  size : r.storageCapacity ≤ r.storageBitmap.length
  flat : r.output.totalPushed < r.storageCapacity → r.storageBitmap.length = r.storageCapacity
  sync : r.output.isClosed = false → r.output.totalPushed < r.storageCapacity →
    r.curIndex = r.output.totalPushed

/-- The position where the second half of a call looks is inside the strings, or at their end. -/
def Inside (r : Reassembler) : Prop :=
  r.output.totalPushed ≤ r.storageCapacity → r.curIndex ≤ r.storageBitmap.length

variable {r r' : Reassembler} {firstIndex q : Nat} {data : Bytes} {isLast : Bool}
  {capacity : Nat}

theorem Sized.capacity_le (h : r.Sized) : r.storageCapacity ≤ r.output.capacity := by
  have := getCapacity_le r.output
  have := h.int
  omega

/-! ### The parts of a call -/

theorem Sized.newCurIndex (h : r.Sized) : r.newCurIndex =
    some (if r.storageCapacity < r.output.totalPushed then r.curIndex % r.storageCapacity
      else r.curIndex) := by
  have := h.pos_capacity
  unfold Reassembler.newCurIndex
  rw [bytesPushed, if_neg (c := r.storageCapacity = 0) (by omega)]
  split <;> rfl

theorem Sized.closeAtEnd (h : r.Sized) (hin : r.Inside) :
    (r.closeAtEnd firstIndex data isLast).Sized ∧
      (r.closeAtEnd firstIndex data isLast).Inside := by
  have hwf := h.stream
  rw [closeAtEnd_eq]
  exact ⟨⟨⟨hwf.word, hwf.buffered, hwf.fits, hwf.chunks, hwf.pushed⟩, h.pos_capacity, h.int, h.last,
    h.strings, h.size, h.flat, fun hc => h.sync (Bool.or_eq_false_iff.1 hc).1⟩, hin⟩

/-- Pushing a substring that the stream takes whole while the positions are still indices, and moving
`cur_index` by its length. -/
theorem Sized.push (h : r.Sized) {data : Bytes} {b : List Bool}
    (hb : b.length = r.storageBitmap.length)
    (hroom : r.output.isClosed = false → r.output.totalPushed < r.storageCapacity →
      data.length ≤ r.output.availableCapacity) :
    Sized { r with
      output := r.output.push data, storageBitmap := b, curIndex := r.curIndex + data.length } := by
  have hp := push_pushed r.output data
  have hP := hp.totalPushed
  refine ⟨h.stream.push _, h.pos_capacity, h.int.trans (getCapacity_congr hp.capacity).symm, h.last,
    hb ▸ h.strings, hb ▸ h.size, fun hlt => ?_, fun hc hlt => ?_⟩
  · have hlt' : (r.output.push data).totalPushed < r.storageCapacity := hlt
    exact hb.trans (h.flat (by omega))
  · have hlt' : (r.output.push data).totalPushed < r.storageCapacity := hlt
    have hc' : r.output.isClosed = false := hp.isClosed.symm.trans hc
    have hsync := h.sync hc' (by omega)
    have htaken : taken r.output data = data := by
      rw [taken, hc', if_neg Bool.false_ne_true, List.take_of_length_le (hroom hc' (by omega))]
    rw [htaken] at hP
    show r.curIndex + data.length = (r.output.push data).totalPushed
    omega

/-- The drain pushes a run of marks and moves `cur_index` by its length; in the first lap it has
room for all of it. -/
theorem Sized.drain (h : r.Sized) (hq : r.newCurIndex = some q) (hlen : q ≤ r.storageBitmap.length) :
    ∃ r', r.drain q = .ok r' ∧ r'.Sized ∧ r'.Inside ∧
      r'.storageBitmap.length = r.storageBitmap.length := by
  have hnew := h.newCurIndex
  rw [hq, Option.some.injEq] at hnew
  unfold Reassembler.drain
  rw [if_neg (by omega)]
  split
  next hm =>
    have hrun := r.runLength_le (q := q + 1) (List.getElem?_eq_some_iff.1 hm).1
    have hsub : substr r.storage q (1 + r.runLength (q + 1)) =
        some ((r.storage.drop q).take (1 + r.runLength (q + 1))) :=
      if_pos (h.strings ▸ hlen)
    obtain ⟨b, hb, hbl, -⟩ := exists_replace_fill
      (show q + (1 + r.runLength (q + 1)) ≤ r.storageBitmap.length by omega) false
    set cur := (r.storage.drop q).take (1 + r.runLength (q + 1)) with hcur
    have hcl : cur.length = 1 + r.runLength (q + 1) := by
      have := h.strings
      rw [hcur, List.length_take, List.length_drop]; omega
    refine ⟨{ r with
        output := r.output.push cur, storageBitmap := b, curIndex := r.curIndex + cur.length },
      by simp only [hsub, hb], h.push hbl fun hc hlt => ?_, fun hle => ?_, hbl⟩
    · have hflat := h.flat hlt
      have hsync := h.sync hc hlt
      have := h.capacity_le
      have := h.stream.pushed
      rw [if_neg (by omega)] at hnew
      rw [h.stream.availableCapacity_eq]
      omega
    · have hle' : (r.output.push cur).totalPushed ≤ r.storageCapacity := hle
      have hP := (push_pushed r.output cur).totalPushed
      rw [if_neg (by omega)] at hnew
      show r.curIndex + cur.length ≤ b.length
      omega
  next =>
    refine ⟨r, rfl, h, fun hle => ?_, rfl⟩
    rw [if_neg (by omega)] at hnew
    omega

theorem Sized.finish (h : r.Sized) (hin : r.Inside) (firstIndex : Nat) (data : Bytes)
    (isLast : Bool) :
    ∃ r', r.finish firstIndex data isLast = .ok r' ∧ r'.Sized ∧ r'.Inside := by
  have hS := h.pos_capacity
  have hsize := h.size
  obtain ⟨q, hq, hlen⟩ : ∃ q, r.newCurIndex = some q ∧ q ≤ r.storageBitmap.length := by
    refine ⟨_, h.newCurIndex, ?_⟩
    split
    · exact (Nat.mod_lt _ hS).le.trans hsize
    · exact hin (by omega)
  obtain ⟨r₁, hr₁, h₁, hin₁, hlen₁⟩ := h.drain hq hlen
  obtain ⟨b, hb, hbl, -⟩ :=
    exists_replace_fill (show 0 + q ≤ r₁.storageBitmap.length by omega) false
  have h₂ : Sized { r₁ with storageBitmap := b } :=
    ⟨h₁.stream, h₁.pos_capacity, h₁.int, h₁.last, hbl ▸ h₁.strings, hbl ▸ h₁.size,
      fun hlt => hbl.trans (h₁.flat hlt), h₁.sync⟩
  have hin₂ : Inside { r₁ with storageBitmap := b } := fun hle => (hin₁ hle).trans hbl.ge
  refine ⟨Reassembler.closeAtEnd _ firstIndex data isLast, ?_, h₂.closeAtEnd hin₂⟩
  simp only [Reassembler.finish, hq, hr₁, Outcome.bind, cleanUp, hb]

theorem Sized.finish_pastEnd (h : r.Sized) (hout : ¬ r.Inside) :
    r.finish firstIndex data isLast = .undefined .pastEnd := by
  unfold Inside at hout
  rw [Reassembler.finish, h.newCurIndex, if_neg (by omega)]
  simp only [Reassembler.drain, if_pos (show r.storageBitmap.length < r.curIndex by omega),
    Outcome.bind]

theorem Sized.finish_iff (h : r.Sized) :
    (∃ r', r.finish firstIndex data isLast = .ok r') ↔ r.Inside := by
  constructor
  · rintro ⟨r', hr'⟩
    by_contra hout
    rw [h.finish_pastEnd hout] at hr'
    cases hr'
  · intro hin
    obtain ⟨r', hr', -⟩ := h.finish hin firstIndex data isLast
    exact ⟨r', hr'⟩

theorem Sized.pushNow (h : r.Sized) (data : Bytes) : (r.pushNow data).Sized :=
  h.push rfl fun _ _ => List.length_take_le _ _

/-- A substring that does not start past the end of the strings can be written into them. -/
theorem Sized.store (h : r.Sized) (data : Bytes)
    (hfit : r.output.totalPushed < r.storageCapacity → firstIndex ≤ r.storageCapacity) :
    ∃ t b, r.store firstIndex data = .ok { r with storage := t, storageBitmap := b } ∧
      Sized { r with storage := t, storageBitmap := b } ∧
      r.storageBitmap.length ≤ b.length := by
  have hsize := h.size
  have hslot : r.slot firstIndex ≤ r.storageBitmap.length := by
    unfold slot
    split
    next hlt => exact (hfit hlt).trans hsize
    next => exact (Nat.mod_lt _ h.pos_capacity).le.trans hsize
  obtain ⟨t, b, hst, htb, hbl, -⟩ := store_eq data hslot h.strings
  refine ⟨t, b, hst, ⟨h.stream, h.pos_capacity, h.int, h.last, htb, ?_, fun hlt => ?_, h.sync⟩, ?_⟩
  · show r.storageCapacity ≤ b.length
    omega
  · have hlt' : r.output.totalPushed < r.storageCapacity := hlt
    have hclip := add_length_clip data h.last h.pos_capacity
      (Nat.lt_of_le_of_lt h.capacity_le h.stream.word) hlt' (hfit hlt')
    have hflat := h.flat hlt'
    have hs : r.slot firstIndex = firstIndex := slot_of_lt hlt'
    show b.length = r.storageCapacity
    omega
  · omega

/-! ### A call on strings that have been made -/

theorem Sized.init_eq (h : r.Sized) : r.init = .ok r := by
  unfold init
  rw [if_neg]
  rintro ⟨-, hb⟩
  have hsize := h.size
  have hS := h.pos_capacity
  rw [hb, List.length_nil] at hsize
  omega

theorem Sized.isValidIndex (h : r.Sized) (hi : r.curIndex < firstIndex) :
    ∃ valid, r.isValidIndex firstIndex = some valid ∧
      (r.output.totalPushed < r.storageCapacity →
        (valid = true ↔ firstIndex < r.curIndex + r.storageCapacity)) ∧
      (r.storageCapacity ≤ r.output.totalPushed →
        (valid = true ↔ r.curIndex % r.storageCapacity ≤ firstIndex % r.storageCapacity)) := by
  have := h.pos_capacity
  have := Nat.mod_lt firstIndex h.pos_capacity
  unfold Reassembler.isValidIndex
  rw [bytesPushed, if_neg (c := r.storageCapacity = 0) (by omega)]
  split
  next hlt => exact ⟨_, rfl, fun _ => by rw [decide_eq_true_eq]; omega, fun hle => by omega⟩
  next hlt => exact ⟨_, rfl, fun hlt' => absurd hlt' hlt, fun _ => by rw [decide_eq_true_eq]; omega⟩

/-- A substring ahead of `cur_index` is stored if its index is valid, and dropped if it is not. -/
theorem Sized.insert_eq_store (h : r.Sized) (hi : r.curIndex < firstIndex) {valid : Bool}
    (hv : r.isValidIndex firstIndex = some valid) : r.insert firstIndex data isLast =
      if valid then (r.store firstIndex data).bind fun r => r.finish firstIndex data isLast
      else .ok r := by
  unfold insert
  rw [h.init_eq]
  simp only [Outcome.bind, hv]
  rw [if_neg (by omega), if_neg (by omega)]
  cases valid <;> rfl

/-- A substring ahead of `cur_index`. -/
theorem Sized.insert_ahead (h : r.Sized) (hin : r.Inside) (hi : r.curIndex < firstIndex) :
    (∀ r', (r.insert firstIndex data isLast).Leaves r' → r'.Sized ∧ r'.Inside) ∧
    ((∃ r', r.insert firstIndex data isLast = .ok r') ↔
      (r.output.bytesPushed < r.storageCapacity → firstIndex < r.curIndex + r.storageCapacity →
        firstIndex ≤ r.storageCapacity)) := by
  obtain ⟨valid, hv, hiff, -⟩ := h.isValidIndex hi
  rw [h.insert_eq_store hi hv]
  cases valid with
  | false =>
    refine ⟨fun r' hl => Outcome.leaves_ok.1 hl ▸ ⟨h, hin⟩, fun _ hlt hnear => ?_, fun _ => ⟨r, rfl⟩⟩
    exact absurd ((hiff hlt).2 hnear) Bool.false_ne_true
  | true =>
    simp only [if_true]
    by_cases hfit : r.output.totalPushed < r.storageCapacity → firstIndex ≤ r.storageCapacity
    · obtain ⟨t, b, hst, hsz, hbl⟩ := h.store data hfit
      obtain ⟨r', hr', hr⟩ := hsz.finish (fun hle => (hin hle).trans hbl) firstIndex data isLast
      simp only [hst, Outcome.bind, hr']
      exact ⟨fun r'' hl => Outcome.leaves_ok.1 hl ▸ hr, fun _ hlt _ => hfit hlt, fun _ => ⟨r', rfl⟩⟩
    · have hfar : r.output.totalPushed < r.storageCapacity ∧ r.storageCapacity < firstIndex := by
        omega
      rw [store_pastEnd (by rw [slot_of_lt hfar.1, h.strings, h.flat hfar.1]; exact hfar.2)]
      refine ⟨fun r' hl => Outcome.leaves_throws.1 hl ▸ ⟨h, hin⟩, fun hok => ?_, fun hs => ?_⟩
      · obtain ⟨_, hr⟩ := hok
        cases hr
      · have := hs hfar.1 ((hiff hfar.1).1 rfl)
        omega

/-- A substring at `cur_index` or behind it: what it has from there on is pushed. -/
theorem Sized.insert_eq_finish (h : r.Sized) (hi : ¬ r.curIndex < firstIndex) (data : Bytes)
    (isLast : Bool) :
    ∃ xs, r.insert firstIndex data isLast = (r.pushNow xs).finish firstIndex data isLast ∧
      (r.curIndex < 2 ^ 64 ∨ firstIndex + data.length < 2 ^ 64 →
        xs.length = firstIndex + data.length - r.curIndex) := by
  unfold insert
  rw [h.init_eq]
  simp only [Outcome.bind]
  by_cases heq : firstIndex = r.curIndex
  · rw [if_pos heq]
    exact ⟨data, rfl, fun _ => by omega⟩
  rw [if_neg heq, if_pos (by omega)]
  cases hf : r.findCur firstIndex data with
  | none =>
    refine ⟨[], by rw [pushNow_nil List.take_nil], fun hword => ?_⟩
    by_contra hlen
    rw [List.length_nil] at hlen
    rw [findCur_eq_some (by omega) (by omega) (by omega)] at hf
    cases hf
  | some i =>
    refine ⟨data.drop i, rfl, fun hword => ?_⟩
    by_cases hreach : r.curIndex < firstIndex + data.length
    · rw [findCur_eq_some (by omega) (by omega) hreach, Option.some.injEq] at hf
      rw [List.length_drop]; omega
    · rw [findCur_eq_none (by omega) (by omega) (by omega)] at hf
      cases hf

/-- While the output is open it takes all that `cur_index` moves over. -/
theorem Sized.inside_pushNow (h : r.Sized) (hin : r.Inside) (xs : Bytes) :
    (r.pushNow xs).Inside ↔
      (r.output.isClosed = true → r.output.totalPushed ≤ r.storageCapacity →
        r.curIndex + min xs.length r.output.availableCapacity ≤ r.storageBitmap.length) := by
  have hP := (push_pushed r.output (xs.take r.output.availableCapacity)).totalPushed
  have hcur : (r.pushNow xs).curIndex = r.curIndex + min xs.length r.output.availableCapacity := by
    rw [Reassembler.pushNow, List.length_take, Nat.min_comm]
  show (_ ≤ r.storageCapacity → (r.pushNow xs).curIndex ≤ r.storageBitmap.length) ↔ _
  rw [hcur, show (r.pushNow xs).output.totalPushed = _ from hP]
  cases hc : r.output.isClosed with
  | true => simp [taken, hc]
  | false =>
    refine ⟨fun _ hx => (by cases hx), fun _ hle => ?_⟩
    rw [taken, hc, if_neg Bool.false_ne_true, List.take_take, Nat.min_self, List.length_take] at hle
    have hsize := h.size
    rcases Nat.lt_or_ge r.output.totalPushed r.storageCapacity with hlt | hge
    · have := h.sync hc hlt
      omega
    · have := hin (by omega)
      omega

theorem Sized.insert_reached (h : r.Sized) (hin : r.Inside) (hi : ¬ r.curIndex < firstIndex) :
    (∀ r', (r.insert firstIndex data isLast).Leaves r' → r'.Sized ∧ r'.Inside) ∧
    (r.curIndex < 2 ^ 64 → ((∃ r', r.insert firstIndex data isLast = .ok r') ↔
      (r.output.isClosed = true → r.output.bytesPushed ≤ r.storageCapacity →
        r.curIndex + min (firstIndex + data.length - r.curIndex) r.output.availableCapacity ≤
          r.storageBitmap.length))) := by
  obtain ⟨xs, heq, hlen⟩ := h.insert_eq_finish hi data isLast
  have hx := h.pushNow xs
  rw [heq]
  refine ⟨fun r' hl => ?_, fun hword => ?_⟩
  · by_cases hin' : (r.pushNow xs).Inside
    · obtain ⟨r'', hr'', hr⟩ := hx.finish hin' firstIndex data isLast
      rw [hr''] at hl
      exact Outcome.leaves_ok.1 hl ▸ hr
    · rw [hx.finish_pastEnd hin'] at hl
      exact absurd hl Outcome.not_leaves_undefined
  · rw [hx.finish_iff, h.inside_pushNow hin, hlen (.inl hword)]
    rfl

/-! ### Strings not yet made -/

/-- The strings are as long as the capacity when they are made. -/
theorem Blank.sized_init (h : r.Blank) (hG : 0 < r.output.getCapacity) :
    ∃ t b, r.init = .ok { r with storage := t, storageBitmap := b } ∧
      Sized { r with storage := t, storageBitmap := b } ∧
      Inside { r with storage := t, storageBitmap := b } := by
  obtain ⟨t, b, hinit, hm, -⟩ := h.models_init hG
  have hbounds := getCapacity_bounds r.output
  have hS := ofInt_of_nonneg hG.le (by omega)
  rw [← h.storageCapacity] at hS
  have hinv := hm.inv
  refine ⟨t, b, hinit, ⟨hinv.stream, hinv.pos_capacity, hS, hinv.last, hinv.strings, hinv.size,
    fun hlt => hinv.flat (Nat.le_of_lt hlt), fun _ _ => hinv.sync⟩, fun _ => ?_⟩
  show r.curIndex ≤ _
  rw [h.curIndex]
  exact Nat.zero_le _

/-- With a capacity of zero as an `int` only an insert of nothing at index 0 goes through. -/
theorem Blank.insert_zero_iff (h : r.Blank) (hS : r.storageCapacity = 0)
    (hcap : 0 < r.output.capacity) (firstIndex : Nat) (data : Bytes) (isLast : Bool) :
    (∀ r', (r.insert firstIndex data isLast).Leaves r' → r'.Blank ∧
      r'.output.capacity = r.output.capacity) ∧
    ((∃ r', r.insert firstIndex data isLast = .ok r') ↔ firstIndex = 0 ∧ data = []) := by
  rw [h.insert_eq hS]
  by_cases h0 : firstIndex = 0
  swap
  · rw [if_neg h0]
    exact ⟨fun r' hl => absurd hl Outcome.not_leaves_undefined,
      ⟨fun ⟨_, hr⟩ => (by cases hr), fun hx => absurd hx.1 h0⟩⟩
  rw [if_pos h0]
  by_cases hd : data = []
  · rw [hd, pushNow_nil List.take_nil, h.finish_eq]
    refine ⟨fun r' hl => ?_, fun _ => ⟨h0, rfl⟩, fun _ => ⟨_, rfl⟩⟩
    obtain rfl := Outcome.leaves_ok.1 hl
    exact ⟨h.closeAtEnd, by rw [closeAtEnd_eq]⟩
  · have hroom : data.take r.output.availableCapacity ≠ [] := by
      have := h.stream.availableCapacity_eq
      have := h.stream.pushed
      have := h.totalPushed
      rw [Ne, List.take_eq_nil_iff, not_or]
      exact ⟨by omega, hd⟩
    obtain ⟨u, hu⟩ := h.finish_pushNow hS hroom 0 data isLast
    rw [hu]
    exact ⟨fun r' hl => absurd hl Outcome.not_leaves_undefined,
      ⟨fun ⟨_, hr⟩ => (by cases hr), fun hx => absurd hx.2 hd⟩⟩

theorem Sized.pop {o : ByteStream} {len : Nat} (h : r.Sized) (hpop : Popped r.output len o) :
    Sized { r with output := o } := by
  have hP := hpop.totalPushed
  refine ⟨hpop.wf, h.pos_capacity, h.int.trans (getCapacity_congr hpop.capacity).symm, h.last,
    h.strings, h.size, fun hlt => h.flat (hP ▸ hlt), fun hc hlt => ?_⟩
  exact (h.sync (hpop.isClosed ▸ hc) (hP ▸ hlt)).trans hP.symm

/-! ### Whole runs -/

/-- A reassembler between two calls. -/
def Steady (r : Reassembler) : Prop :=
  (r.Blank ∧ 0 < r.output.capacity ∧ (0 < r.output.getCapacity → r.output.isClosed = false)) ∨
    (r.Sized ∧ r.Inside)

theorem Sized.admits_iff (h : r.Sized) : r.Admits firstIndex data ↔
    if r.curIndex < firstIndex then
      r.output.bytesPushed < r.storageCapacity → firstIndex < r.curIndex + r.storageCapacity →
        firstIndex ≤ r.storageCapacity
    else
      r.output.isClosed = true → r.output.bytesPushed ≤ r.storageCapacity →
        r.curIndex + min (firstIndex + data.length - r.curIndex) r.output.availableCapacity ≤
          r.storageBitmap.length := by
  have hint := h.int
  have hS := h.pos_capacity
  rw [Admits, if_neg (Nat.ne_of_gt hS)]
  exact and_iff_right (by omega)

theorem Sized.insert_spec (h : r.Sized) (hin : r.Inside) (firstIndex : Nat) (data : Bytes)
    (isLast : Bool) :
    (∀ r', (r.insert firstIndex data isLast).Leaves r' → r'.Sized ∧ r'.Inside) ∧
    (r.curIndex < 2 ^ 64 →
      ((∃ r', r.insert firstIndex data isLast = .ok r') ↔ r.Admits firstIndex data)) := by
  rw [h.admits_iff]
  split
  next hi => exact (h.insert_ahead hin hi).imp_right fun hiff _ => hiff
  next hi => exact h.insert_reached hin hi

theorem Steady.insert_spec (h : r.Steady) (firstIndex : Nat) (data : Bytes) (isLast : Bool) :
    (∀ r', (r.insert firstIndex data isLast).Leaves r' → r'.Steady) ∧
    (r.curIndex < 2 ^ 64 →
      ((∃ r', r.insert firstIndex data isLast = .ok r') ↔ r.Admits firstIndex data)) := by
  rcases h with ⟨hb, hcap, hopen⟩ | ⟨hsz, hin⟩
  swap
  · exact (hsz.insert_spec hin _ _ _).imp_left fun hl r' hr => .inr (hl r' hr)
  rcases Int.lt_trichotomy r.output.getCapacity 0 with hneg | hzero | hpos
  · have hthrow : r.insert firstIndex data isLast = .throws .lengthError r := by
      unfold insert; rw [hb.init_of_neg hneg]; rfl
    rw [hthrow]
    refine ⟨fun r' hl => Outcome.leaves_throws.1 hl ▸ .inl ⟨hb, hcap, hopen⟩, fun _ => ?_⟩
    exact ⟨fun ⟨_, hr⟩ => (by cases hr), fun hx => absurd hx.1 (Int.not_le.2 hneg)⟩
  · have hS : r.storageCapacity = 0 := by rw [hb.storageCapacity, hzero]; rfl
    obtain ⟨hl, hiff⟩ := hb.insert_zero_iff hS hcap firstIndex data isLast
    refine ⟨fun r' hr => ?_, fun _ => ?_⟩
    · obtain ⟨hb', hcap'⟩ := hl r' hr
      have hG := getCapacity_congr hcap'
      exact .inl ⟨hb', hcap' ▸ hcap, fun hp => by omega⟩
    · rw [hiff, Admits, if_pos hS]
      exact (and_iff_right hzero.ge).symm
  · obtain ⟨t, b, hinit, hsz, hin⟩ := hb.sized_init hpos
    rw [init_init hinit hsz.init_eq]
    obtain ⟨hl, hiff⟩ := hsz.insert_spec hin firstIndex data isLast
    refine ⟨fun r' hr => .inr (hl r' hr), fun hword => (hiff hword).trans ?_⟩
    -- the length of the strings matters only once the output is closed
    rw [Admits, Admits]
    simp only [hopen hpos, Bool.false_eq_true, false_imp_iff]

theorem Steady.pop {o : ByteStream} {len : Nat} (h : r.Steady) (hpop : Popped r.output len o) :
    Steady { r with output := o } := by
  rcases h with ⟨hb, hcap, hopen⟩ | ⟨hsz, hin⟩
  · refine .inl ⟨hb.pop hpop, ?_, ?_⟩
    · exact hpop.capacity ▸ hcap
    · show 0 < o.getCapacity → o.isClosed = false
      rw [getCapacity_congr hpop.capacity, hpop.isClosed]
      exact hopen
  · refine .inr ⟨hsz.pop hpop, ?_⟩
    show o.totalPushed ≤ _ → _
    rw [hpop.totalPushed]
    exact hin

theorem Steady.stream (h : r.Steady) : r.output.Wf := by
  rcases h with ⟨hb, -⟩ | ⟨hsz, -⟩
  · exact hb.stream
  · exact hsz.stream

theorem Steady.setError (h : r.Steady) : Steady { r with output := r.output.setError } := by
  rcases h with ⟨hb, hcap, hopen⟩ | ⟨hsz, hin⟩
  · exact .inl ⟨⟨hb.stream.setError, hb.storage, hb.storageBitmap, hb.curIndex, hb.totalPushed,
      hb.storageCapacity, hb.finalIndex⟩, hcap, hopen⟩
  · exact .inr ⟨⟨hsz.stream.setError, hsz.pos_capacity, hsz.int, hsz.last, hsz.strings, hsz.size,
      hsz.flat, hsz.sync⟩, hin⟩

/-- In the first lap a substring that ends within the strings goes through, whatever the state. -/
theorem Steady.insert_fits (h : r.Steady) (hint : r.output.capacity < 2 ^ 31)
    (hpushed : r.output.totalPushed < r.output.capacity)
    (hfit : firstIndex + data.length ≤ r.output.capacity) (isLast : Bool) :
    ∃ r', r.insert firstIndex data isLast = .ok r' := by
  have hG : r.output.getCapacity = r.output.capacity := by
    unfold ByteStream.getCapacity
    rw [Int.bmod_eq_of_le (by omega) (by omega)]
  have hS : r.storageCapacity = r.output.capacity := by
    rcases h with ⟨hb, -⟩ | ⟨hsz, -⟩
    · have := ofInt_of_nonneg (i := r.output.getCapacity) (by omega) (by omega)
      have := hb.storageCapacity
      omega
    · have := hsz.int
      omega
  have hcur : r.curIndex ≤ r.output.capacity ∧
      (r.output.isClosed = true → r.storageBitmap.length = r.output.capacity) := by
    rcases h with ⟨hb, -, hopen⟩ | ⟨hsz, hin⟩
    · refine ⟨hb.curIndex ▸ Nat.zero_le _, fun hc => ?_⟩
      rw [hopen (by omega)] at hc; cases hc
    · have hflat := hsz.flat (hS ▸ hpushed)
      exact ⟨hS ▸ hflat ▸ hin (hS ▸ Nat.le_of_lt hpushed), fun _ => hflat.trans hS⟩
  refine ((h.insert_spec firstIndex data isLast).2 (by omega)).2 ⟨by omega, ?_⟩
  rw [if_neg (by omega)]
  split
  · intro _ _
    omega
  · intro hc _
    have := hcur.2 hc
    omega

theorem AnyRun.steady (hpos : 0 < capacity) (hword : capacity < 2 ^ 64) (h : AnyRun capacity r) :
    r.Steady := by
  induction h with
  | start => exact .inl ⟨blank_ofStream hword, hpos, fun _ => rfl⟩
  | insert firstIndex data isLast _ _ hl ih => exact (ih.insert_spec firstIndex data isLast).1 _ hl
  | pop len _ hlen hpop ih => exact ih.pop (ih.stream.popped hlen hpop)

/-- A call completes exactly if the reassembler admits it. -/
theorem insert_completes_iff (hpos : 0 < capacity) (hword : capacity < 2 ^ 64)
    (h : AnyRun capacity r) (hcur : r.curIndex < 2 ^ 64) :
    (∃ r', r.insert firstIndex data isLast = .ok r') ↔ r.Admits firstIndex data :=
  ((h.steady hpos hword).insert_spec firstIndex data isLast).2 hcur

/-- Capacity 4, two bytes in and read: a substring at index 4 is taken in. -/
theorem insert_completes_iff_ab :
    ∃ r, AnyRun 4 r ∧ ∃ r', r.insert 4 [5] false = .ok r' := by
  have h₀ : AnyRun 4 _ := .start
  have h₁ := h₀.insert 0 [1, 2] false (by decide) (.inl rfl)
  have h₂ := h₁.pop 2 (by decide) rfl
  exact ⟨_, h₂, (insert_completes_iff (by decide) (by decide) h₂ (by decide)).2 (by decide)⟩

/-- Capacity 4, two bytes in: index 5 is less than the capacity ahead of the next one, so the check
lets it pass, but the strings end at 4. -/
theorem insert_fails :
    ∃ r r', AnyRun 4 r ∧ r.insert 5 [9] false = .throws .outOfRange r' := by
  have h₀ : AnyRun 4 _ := .start
  have h₁ := h₀.insert 0 [1, 2] false (by decide) (.inl rfl)
  exact ⟨_, _, h₁, rfl⟩

end Minnow.Reassembler
