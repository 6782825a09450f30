import Minnow.ReassemblerClose
import Minnow.ReassemblerPrefix
import Minnow.ReassemblerTotal

/-!
# When the strings keep their size and the counters agree

`Regular` is what the source means its members to satisfy between two calls. Three things break it: a
substring that is stored at the last position is not cut, and lengthens the strings; and a drain moves
`cur_index` by what it offers the output, whether it has room for that or not, which matters where marks
lie past the window or a substring lands at the next position itself. A call that does none of this is
`Tidy` (`regular_of_tidy`).
-/

namespace Minnow.Reassembler
open Prog ByteStream

/-- The representation invariant, once the strings have been made. -/
structure Regular (capacity : Nat) (r : Reassembler) : Prop where
  storage : r.storage.length = capacity
  bitmap : r.storageBitmap.length = capacity
  sync : r.curIndex = r.output.bytesPushed
  ahead : ∀ q, r.Marked q → r.output.bytesPushed < r.base + q
  pending : r.bytesPending ≤ capacity - 1

/-- Where the second half of a call looks for index `k`. -/
def position (r : Reassembler) (k : Nat) : Nat :=
  if k ≤ r.storageCapacity then k else k % r.storageCapacity

/-- What the drain offers has room: behind a substring at or behind `cur_index`, of which `n` bytes are
pushed at once, and where one ahead lands at the next position itself. And nothing longer than a byte is
stored at the last position. -/
def Tidy (r : Reassembler) (firstIndex : Nat) (data : Bytes) : Prop :=
  if firstIndex ≤ r.curIndex then
    let n := min (firstIndex + data.length - r.curIndex) r.output.availableCapacity
    r.runLength (r.position (r.curIndex + n)) ≤ r.output.availableCapacity - n
  else r.storageCapacity ≤ r.output.bytesPushed →
    (firstIndex % r.storageCapacity + 1 = r.storageCapacity → data.length ≤ 1) ∧
    (r.storageCapacity < r.output.bytesPushed →
      firstIndex % r.storageCapacity = r.curIndex % r.storageCapacity →
      let n := (r.clip firstIndex data).length
      n + r.runLength (firstIndex % r.storageCapacity + n) ≤ r.output.availableCapacity)

instance (r : Reassembler) (firstIndex : Nat) (data : Bytes) : Decidable (r.Tidy firstIndex data) :=
  inferInstanceAs (Decidable (ite _ _ (_ → _ ∧ (_ → _ → _))))

variable {r r' : Reassembler} {D data out : Bytes} {q n firstIndex capacity : Nat} {isLast : Bool}
  {calls : List Call}

theorem Regular.not_marked_pos (h : r.Regular capacity) : ¬ r.Marked r.pos := by
  intro hm
  have := h.ahead _ hm
  have := r.base_add_pos
  rw [bytesPushed] at *
  omega

theorem pos_eq_position (hsync : r.curIndex = r.output.totalPushed) :
    r.pos = r.position r.curIndex := by
  rw [position, hsync]
  split
  next hle => exact pos_of_le hle
  next hlt => exact pos_of_lt (Nat.lt_of_not_le hlt)

/-- Marks that are all ahead leave the first position free. -/
theorem pending_le (hpos : 0 < capacity) (hlen : r.storageBitmap.length = capacity)
    (hahead : ∀ q, r.Marked q → r.pos < q) : r.bytesPending ≤ capacity - 1 := by
  rw [bytesPending, count_true_eq_countP_range (n := 1 + (capacity - 1))]
  · refine countP_range_le fun q hq => decide_eq_false fun hm => ?_
    have := hahead q hm
    omega
  · intro q hm
    have := Marked.lt (r := r) hm
    omega

theorem runLength_add (h : ∀ j < n, r.Marked (q + j)) : r.runLength q = n + r.runLength (q + n) := by
  induction n generalizing q with
  | zero => rw [Nat.zero_add, Nat.add_zero]
  | succ n ih =>
    have hfirst : r.Marked q := h 0 (by omega)
    have hrest := ih (q := q + 1) fun j hj => by
      have := h (j + 1) (by omega)
      rwa [show q + (j + 1) = q + 1 + j by omega] at this
    rw [runLength_of_marked hfirst, hrest, show q + 1 + n = q + (n + 1) by omega]
    omega

/-- Marks from `q` on that are the same make the same run. -/
theorem runLength_congr {b : List Bool}
    (h : ∀ p, q ≤ p → b[p]? = r.storageBitmap[p]?) :
    runLength { r with storageBitmap := b } q = r.runLength q := by
  have hdrop : b.drop q = r.storageBitmap.drop q :=
    List.ext_getElem? fun i => by rw [List.getElem?_drop, List.getElem?_drop, h _ (Nat.le_add_right q i)]
  simp only [runLength, hdrop]

/-! ### The second half of a call -/

theorem Sized.pos_le_length (h : r.Sized) : r.pos ≤ r.storageBitmap.length := by
  have hS := h.pos_capacity
  have hsize := h.size
  by_cases hle : r.output.totalPushed ≤ r.storageCapacity
  · rw [pos_of_le hle]; omega
  · rw [pos_of_lt (by omega)]
    have := Nat.mod_lt r.output.totalPushed hS
    omega

/-- What the second half of a call does, whether or not the output has room for `ready`. -/
structure Offered (r r' : Reassembler) : Prop where
  storage : r'.storage = r.storage
  storageCapacity : r'.storageCapacity = r.storageCapacity
  length : r'.storageBitmap.length = r.storageBitmap.length
  curIndex : r'.curIndex = r.curIndex + r.runLength r.pos
  totalPushed : r'.output.totalPushed = r.output.totalPushed + (r.output.taken r.ready).length
  marked : ∀ q, r'.Marked q → r.pos + r.runLength r.pos < q ∧ r.Marked q

theorem Sized.finish_offers (h : r.Sized) (hsync : r.curIndex = r.output.totalPushed)
    (firstIndex : Nat) (data : Bytes) (isLast : Bool) :
    ∃ r', r.finish firstIndex data isLast = .ok r' ∧ Offered r r' := by
  obtain ⟨b, hdc, hbl, hbq⟩ := drain_cleanUp_eq h.pos_le_length h.strings
  have hready := length_ready h.pos_le_length h.strings
  have hend := r.not_marked_runLength r.pos
  let r₁ : Reassembler := { r with
    output := r.output.push r.ready, storageBitmap := b, curIndex := r.curIndex + r.ready.length }
  refine ⟨r₁.closeAtEnd firstIndex data isLast, ?_, ?_⟩
  · simp only [Reassembler.finish, newCurIndex_eq h.pos_capacity hsync, hdc]
    rfl
  rw [closeAtEnd_eq]
  refine ⟨rfl, rfl, hbl, by rw [← hready], (push_pushed r.output r.ready).totalPushed, fun q hm => ?_⟩
  have hm' : b[q]? = some true := hm
  rw [hbq, hready] at hm'
  split at hm'
  · cases hm'
  next hq =>
    have hlt := Marked.lt (r := r) hm'
    have hne : q ≠ r.pos + r.runLength r.pos := fun he => hend (he ▸ hm')
    exact ⟨by omega, hm'⟩

/-- Marks past the drained bytes lie in the lap where those end. -/
theorem Offered.ahead (h : Offered r r') (hlen : r.storageBitmap.length = r.storageCapacity)
    (hP : r'.output.totalPushed = r.output.totalPushed + r.runLength r.pos) (hm : r'.Marked q) :
    r'.pos < q := by
  obtain ⟨hq, hm⟩ := h.marked q hm
  have hlt := hm.lt
  have hpos := r.base_add_pos
  have hpos' := r'.base_add_pos
  have hbase : r'.base = r.base := by
    refine base_eq_of_lt h.storageCapacity hP ?_
    by_cases hle : r.output.totalPushed ≤ r.storageCapacity
    · have := pos_of_le hle
      exact .inl (by omega)
    · exact .inr ⟨by omega, by omega⟩
  omega

/-- The counters stay in step exactly if the output has room for what it is offered. -/
theorem Sized.finish_regular (h : r.Sized) (hcap : r.storageCapacity = capacity)
    (hsync : r.curIndex = r.output.totalPushed)
    (hopen : r.output.isClosed = false ∨ ¬ r.Marked r.pos) (firstIndex : Nat) (data : Bytes)
    (isLast : Bool) :
    ∃ r', r.finish firstIndex data isLast = .ok r' ∧ (r'.Regular capacity ↔
      r.storageBitmap.length = capacity ∧ r.runLength r.pos ≤ r.output.availableCapacity) := by
  obtain ⟨r', hr', ho⟩ := h.finish_offers hsync firstIndex data isLast
  have hready := length_ready h.pos_le_length h.strings
  have hroom : (r.output.taken r.ready).length = r.runLength r.pos ↔
      r.runLength r.pos ≤ r.output.availableCapacity := by
    rw [← hready]
    unfold taken
    rcases hopen with hc | hm
    · rw [hc, if_neg Bool.false_ne_true, List.length_take]
      omega
    · rw [runLength_of_not_marked hm] at hready
      rw [List.length_eq_zero_iff.1 hready]
      simp
  have hP := ho.totalPushed
  have hcur := ho.curIndex
  refine ⟨r', hr', fun hr => ?_, fun ⟨hlen, hfit⟩ => ?_⟩
  · have hs := hr.sync
    rw [bytesPushed] at hs
    exact ⟨ho.length.symm.trans hr.bitmap, hroom.1 (by omega)⟩
  · rw [hroom.2 hfit] at hP
    have hahead : ∀ q, r'.Marked q → r'.pos < q := fun q => ho.ahead (hlen.trans hcap.symm) hP
    have hbase := r'.base_add_pos
    refine ⟨ho.storage ▸ h.strings.trans hlen, ho.length.trans hlen, ?_, fun q hm => ?_,
      pending_le (hcap ▸ h.pos_capacity) (ho.length.trans hlen) hahead⟩
    · rw [bytesPushed]; omega
    · have := hahead q hm
      rw [bytesPushed]; omega

/-! ### A substring at or behind `cur_index` -/

/-- What is pushed at once keeps the counters in step. -/
theorem Sized.pushNow_counts (h : r.Sized) (hr : r.Regular capacity)
    (hopen : r.output.isClosed = false ∨ data = []) :
    (r.pushNow data).curIndex = (r.pushNow data).output.totalPushed ∧
      (r.pushNow data).pos =
        r.position (r.curIndex + min data.length r.output.availableCapacity) ∧
      (r.pushNow data).output.availableCapacity =
        r.output.availableCapacity - min data.length r.output.availableCapacity ∧
      ((r.pushNow data).output.isClosed = false ∨
        ¬ (r.pushNow data).Marked (r.pushNow data).pos) := by
  have hp := r.pushNow_pushed hopen
  have hn : (data.take r.output.availableCapacity).length =
      min data.length r.output.availableCapacity := by
    rw [List.length_take, Nat.min_comm]
  have hcur : (r.pushNow data).curIndex =
      r.curIndex + min data.length r.output.availableCapacity := hn ▸ rfl
  have hsync : (r.pushNow data).curIndex = (r.pushNow data).output.totalPushed := by
    rw [hcur, hp.totalPushed, hn, hr.sync, bytesPushed]
  refine ⟨hsync, ?_, ?_, ?_⟩
  · rw [← hcur]
    exact pos_eq_position hsync
  · have hdeck := hp.bytesInDeck
    have hc := hp.capacity
    have hav := h.stream.availableCapacity_eq
    have hav' := (h.pushNow data).stream.availableCapacity_eq
    omega
  · rcases hopen with hc | rfl
    · exact .inl (hp.isClosed.trans hc)
    · rw [pushNow_nil List.take_nil]
      exact .inr hr.not_marked_pos

theorem Sized.regular_reached (h : r.Sized) (hcap : r.storageCapacity = capacity)
    (hr : r.Regular capacity) (hi : firstIndex ≤ r.curIndex)
    (hword : firstIndex + data.length < 2 ^ 64)
    (hopen : r.output.isClosed = false ∨ firstIndex + data.length ≤ r.curIndex) (isLast : Bool) :
    ∃ r', r.insert firstIndex data isLast = .ok r' ∧
      (r'.Regular capacity ↔ r.Tidy firstIndex data) := by
  obtain ⟨xs, heq, hlen⟩ := h.insert_eq_finish (Nat.not_lt.2 hi) data isLast
  have hxs := hlen (.inr hword)
  have hopen' : r.output.isClosed = false ∨ xs = [] :=
    hopen.imp_right fun hle => List.length_eq_zero_iff.1 (by omega)
  obtain ⟨hsync, hpos, hroom, hend⟩ := h.pushNow_counts hr hopen'
  obtain ⟨r', hr', hiff⟩ := (h.pushNow xs).finish_regular hcap hsync hend firstIndex data isLast
  refine ⟨r', heq.trans hr', hiff.trans ?_⟩
  rw [Tidy, if_pos hi, hpos, hroom, hxs]
  exact and_iff_right hr.bitmap

/-! ### A substring ahead of `cur_index` -/

/-- The strings keep their length unless more than a byte is stored at the last position. -/
theorem stored_length_iff (hS : 0 < r.storageCapacity) (hword : r.storageCapacity < 2 ^ 64)
    (hlast : r.finalIndex = r.storageCapacity - 1) (hP : r.storageCapacity ≤ r.output.totalPushed)
    (hdata : data.length < 2 ^ 64) :
    r.slot firstIndex + (r.clip firstIndex data).length ≤ r.storageCapacity ↔
      (firstIndex % r.storageCapacity + 1 = r.storageCapacity → data.length ≤ 1) := by
  have hslot : r.slot firstIndex = _ := slot_of_le hP
  have hlt := Nat.mod_lt firstIndex hS
  constructor
  · intro hle hend
    have hclip : (r.clip firstIndex data).length = data.length := by
      rw [clip, bytesPushed, if_neg (Nat.not_lt.2 hP), List.length_take, lastIndex, hlast, hend,
        sub64_of_lt (by omega) hword]
      omega
    omega
  · intro hone
    by_contra hlong
    have hend := slot_add_length_clip hS hword hlast hP (Nat.lt_of_not_le hlong)
    have hclip : (r.clip firstIndex data).length ≤ data.length := by
      unfold clip
      split <;> exact List.length_take_le' _ _
    have := hone (hslot ▸ hend)
    omega

/-- A substring that lands at the next position is drained with the marks that follow it. -/
theorem runLength_stored {b : List Bool} (hq : r.pos ≤ q)
    (hb : ∀ p, b[p]? = if q ≤ p ∧ p < q + n then some true else r.storageBitmap[p]?)
    (hfree : ¬ r.Marked r.pos) : runLength { r with storageBitmap := b } r.pos =
      if q = r.pos then n + r.runLength (r.pos + n) else 0 := by
  split
  next he =>
    subst he
    rw [runLength_add (n := n) fun j hj => by
      show b[r.pos + j]? = some true
      rw [hb, if_pos (by omega)]]
    rw [runLength_congr fun p hp => by rw [hb, if_neg (by omega)]]
  next hne =>
    refine runLength_of_not_marked fun hm => hfree ?_
    have hm' : b[r.pos]? = some true := hm
    rwa [hb, if_neg (by omega)] at hm'

/-- Storing a substring, and the second half of the call. -/
theorem Sized.store_regular (h : r.Sized) (hcap : r.storageCapacity = capacity)
    (hr : r.Regular capacity) (hopen : r.output.isClosed = false) (data : Bytes) (isLast : Bool)
    (hfit : r.output.totalPushed < r.storageCapacity → firstIndex ≤ r.storageCapacity) :
    ∃ b r', ((r.store firstIndex data).bind fun r => r.finish firstIndex data isLast) = .ok r' ∧
      b.length = max r.storageCapacity (r.slot firstIndex + (r.clip firstIndex data).length) ∧
      (∀ p, b[p]? = if r.slot firstIndex ≤ p ∧
          p < r.slot firstIndex + (r.clip firstIndex data).length then some true
        else r.storageBitmap[p]?) ∧
      (r'.Regular capacity ↔
        r.slot firstIndex + (r.clip firstIndex data).length ≤ r.storageCapacity ∧
        runLength { r with storageBitmap := b } r.pos ≤ r.output.availableCapacity) := by
  have hlen := hr.bitmap.trans hcap.symm
  have hslot : r.slot firstIndex ≤ r.storageBitmap.length := by
    rw [hlen]
    unfold slot
    split
    next hlt => exact hfit hlt
    next => exact (Nat.mod_lt _ h.pos_capacity).le
  obtain ⟨t, b, hst, -, hbl, hbq⟩ := store_eq data hslot h.strings
  obtain ⟨t', b', hst', hsz, -⟩ := h.store data hfit
  cases hst.symm.trans hst'
  obtain ⟨r', hr', hiff⟩ := hsz.finish_regular hcap hr.sync (.inl hopen) firstIndex data isLast
  rw [hlen] at hbl
  refine ⟨b, r', by rw [hst]; exact hr', hbl, hbq, hiff.trans (and_congr ?_ Iff.rfl)⟩
  show b.length = capacity ↔ _
  omega

/-- In the first lap a substring is dropped, refused or cut. -/
theorem Sized.regular_flat (h : r.Sized) (hcap : r.storageCapacity = capacity)
    (hr : r.Regular capacity) (hi : r.curIndex < firstIndex) (hopen : r.output.isClosed = false)
    (hlt : r.output.totalPushed < r.storageCapacity)
    (hl : (r.insert firstIndex data isLast).Leaves r') : r'.Regular capacity := by
  have hword := Nat.lt_of_le_of_lt h.capacity_le h.stream.word
  have hsync := hr.sync
  have hpos := pos_of_le hlt.le
  have hslot : r.slot firstIndex = firstIndex := slot_of_lt hlt
  obtain ⟨valid, hv, -⟩ := h.isValidIndex hi
  rw [h.insert_eq_store hi hv] at hl
  cases valid with
  | false => exact Outcome.leaves_ok.1 hl ▸ hr
  | true =>
    rw [if_pos rfl] at hl
    by_cases hfit : firstIndex ≤ r.storageCapacity
    · obtain ⟨b, r₁, hr₁, -, hbq, hiff⟩ := h.store_regular hcap hr hopen data isLast fun _ => hfit
      rw [hr₁] at hl
      rw [bytesPushed] at hsync
      rw [Outcome.leaves_ok.1 hl, hiff, runLength_stored (by omega) hbq hr.not_marked_pos,
        if_neg (by omega), hslot]
      exact ⟨add_length_clip data h.last h.pos_capacity hword hlt hfit, Nat.zero_le _⟩
    · rw [store_pastEnd (by rw [hslot, hr.storage, ← hcap]; omega)] at hl
      exact Outcome.leaves_throws.1 hl ▸ hr

/-- In a later lap what is stored may lengthen the strings, and the drain may offer more than has room. -/
theorem Sized.regular_lap (h : r.Sized) (hcap : r.storageCapacity = capacity)
    (hr : r.Regular capacity) (hopen : r.output.isClosed = false)
    (hge : r.storageCapacity ≤ r.output.totalPushed)
    (habove : r.curIndex % r.storageCapacity ≤ firstIndex % r.storageCapacity)
    (hl : ((r.store firstIndex data).bind fun r => r.finish firstIndex data isLast).Leaves r') :
    r'.Regular capacity ↔
      r.slot firstIndex + (r.clip firstIndex data).length ≤ r.storageCapacity ∧
      (r.storageCapacity < r.output.totalPushed →
        firstIndex % r.storageCapacity = r.curIndex % r.storageCapacity →
        let n := (r.clip firstIndex data).length
        n + r.runLength (firstIndex % r.storageCapacity + n) ≤ r.output.availableCapacity) := by
  have hslot : r.slot firstIndex = firstIndex % r.storageCapacity := slot_of_le hge
  have hmod := Nat.mod_lt r.curIndex h.pos_capacity
  obtain ⟨b, r₁, hr₁, hbl, hbq, hiff⟩ :=
    h.store_regular hcap hr hopen data isLast fun hlt => absurd hlt (Nat.not_lt.2 hge)
  rw [hr₁] at hl
  rw [Outcome.leaves_ok.1 hl, hiff]
  refine and_congr_right fun hle => ?_
  rcases Nat.eq_or_lt_of_le hge with heq | hgt
  · -- with the strings full to the brim the drain looks past their end
    refine iff_of_true ?_ fun hgt => absurd heq hgt.ne
    rw [runLength_of_not_marked fun hm => ?_]
    · exact Nat.zero_le _
    · have := Marked.lt (r := { r with storageBitmap := b }) hm
      have := pos_of_le heq.ge
      dsimp only at *
      omega
  · have hpos := pos_of_lt hgt
    have hsync : r.curIndex = r.output.totalPushed := hr.sync
    rw [← hsync] at hpos
    rw [imp_iff_right hgt, runLength_stored (by omega) hbq hr.not_marked_pos, hslot, hpos]
    by_cases he : firstIndex % r.storageCapacity = r.curIndex % r.storageCapacity
    · rw [if_pos he, imp_iff_right he, he]
    · rw [if_neg he]
      exact iff_of_true (Nat.zero_le _) fun he' => absurd he' he

theorem Sized.regular_ahead (h : r.Sized) (hcap : r.storageCapacity = capacity)
    (hr : r.Regular capacity) (hi : r.curIndex < firstIndex) (hdata : data.length < 2 ^ 64)
    (hopen : r.output.isClosed = false) (hl : (r.insert firstIndex data isLast).Leaves r') :
    r'.Regular capacity ↔ r.Tidy firstIndex data := by
  have hS := h.pos_capacity
  have hword := Nat.lt_of_le_of_lt h.capacity_le h.stream.word
  rw [Tidy, if_neg (Nat.not_le.2 hi), bytesPushed]
  rcases Nat.lt_or_ge r.output.totalPushed r.storageCapacity with hlt | hge
  · exact iff_of_true (h.regular_flat hcap hr hi hopen hlt hl) fun hle =>
      absurd hlt (Nat.not_lt.2 hle)
  rw [imp_iff_right hge, ← stored_length_iff hS hword h.last hge hdata]
  obtain ⟨valid, hv, -, hlap⟩ := h.isValidIndex hi
  rw [h.insert_eq_store hi hv] at hl
  cases valid with
  | true =>
    rw [if_pos rfl] at hl
    exact h.regular_lap hcap hr hopen hge ((hlap hge).1 rfl) hl
  | false =>
    -- a dropped substring is neither at the last position nor at the next
    have hbelow := mt (hlap hge).2 Bool.false_ne_true
    have hmod := Nat.mod_lt r.curIndex hS
    refine iff_of_true (Outcome.leaves_ok.1 hl ▸ hr) ⟨?_, fun _ _ => by omega⟩
    rw [stored_length_iff hS hword h.last hge hdata]
    omega

/-! ### Whole calls and runs -/

/-- With no mark and room in the strings any call is tidy. -/
theorem tidy_of_unmarked (hm : ∀ q, ¬ r.Marked q) (hlt : r.output.bytesPushed < r.storageCapacity)
    (firstIndex : Nat) (data : Bytes) : r.Tidy firstIndex data := by
  unfold Tidy
  split
  · dsimp only
    rw [runLength_of_not_marked (hm _)]
    exact Nat.zero_le _
  · exact fun hle => absurd hlt (Nat.not_lt.2 hle)

theorem Sized.regular_insert (h : r.Sized) (hcap : r.storageCapacity = capacity)
    (hr : r.Regular capacity) (he : r.EndsAt D.length) (hD : D.length < 2 ^ 64)
    (hp : Piece D firstIndex data) (hl : (r.insert firstIndex data isLast).Leaves r') :
    r'.Regular capacity ↔ r.Tidy firstIndex data := by
  have hbound := hp.bound
  have hsync := hr.sync
  rw [bytesPushed] at hsync
  have hclosed : r.output.isClosed = true → r.curIndex = D.length := fun hc =>
    hsync.trans (he.closed hc).2
  by_cases hi : r.curIndex < firstIndex
  · refine h.regular_ahead hcap hr hi (by omega) (Bool.eq_false_iff.2 fun hc => ?_) hl
    have := hclosed hc
    omega
  · obtain ⟨r₁, hr₁, hiff⟩ := h.regular_reached hcap hr (Nat.le_of_not_lt hi)
      (by omega : firstIndex + data.length < 2 ^ 64) (by
        cases hc : r.output.isClosed with
        | false => exact .inl rfl
        | true => have := hclosed hc; exact .inr (by omega)) isLast
    rw [hr₁] at hl
    rw [Outcome.leaves_ok.1 hl, hiff]

theorem Regular.inside (h : r.Regular capacity) (hcap : r.storageCapacity = capacity) : r.Inside := by
  intro hle
  have hsync := h.sync
  have hlen := h.bitmap
  rw [bytesPushed] at hsync
  omega

/-- The first call makes the strings as long as an `int` can tell, and is tidy. -/
theorem Blank.regular_init (h : r.Blank) (hG : 0 < r.output.getCapacity) :
    ∃ t b, r.init = .ok { r with storage := t, storageBitmap := b } ∧
      Sized { r with storage := t, storageBitmap := b } ∧
      Regular r.storageCapacity { r with storage := t, storageBitmap := b } ∧
      ∀ q, ¬ Marked { r with storage := t, storageBitmap := b } q := by
  obtain ⟨t, b, hinit, hm, hfalse⟩ := h.models_init hG
  obtain ⟨t', b', hinit', hsz, -⟩ := h.sized_init hG
  cases hinit.symm.trans hinit'
  have hinv := hm.inv
  have hfree : ∀ q, ¬ Marked { r with storage := t, storageBitmap := b } q := by
    intro q hq
    cases hfalse true (List.mem_iff_getElem?.2 ⟨q, hq⟩)
  have hlen : b.length = r.storageCapacity := hinv.flat (by
    show r.output.totalPushed ≤ _
    rw [h.totalPushed]
    exact Nat.zero_le _)
  exact ⟨t, b, hinit, hsz, ⟨hinv.strings.trans hlen, hlen, hinv.sync, fun q hq => absurd hq (hfree q),
    pending_le hinv.pos_capacity hlen fun q hq => absurd hq (hfree q)⟩, hfree⟩

theorem Blank.regular_insert (h : r.Blank) (hpos : 0 < r.output.capacity) (he : r.EndsAt D.length)
    (hD : D.length < 2 ^ 64) (hp : Piece D firstIndex data)
    (hl : (r.insert firstIndex data isLast).Leaves r') :
    (r'.Regular r.output.capacity ↔ r.output.capacity < 2 ^ 31) ∧
      (r.output.capacity < 2 ^ 31 → r'.Sized) := by
  have hbounds := getCapacity_bounds r.output
  have hint : r.output.capacity < 2 ^ 31 → r.output.getCapacity = r.output.capacity :=
    getCapacity_of_lt
  -- without strings nothing is as long as the capacity
  have hnone : r'.Blank → ¬ r'.Regular r.output.capacity := by
    intro hb hr
    have hlen := hr.bitmap
    rw [hb.storageBitmap, List.length_nil] at hlen
    omega
  rcases Int.lt_trichotomy r.output.getCapacity 0 with hneg | hzero | hG
  · have hthrow : r.insert firstIndex data isLast = .throws .lengthError r := by
      unfold insert; rw [h.init_of_neg hneg]; rfl
    rw [hthrow] at hl
    exact ⟨iff_of_false (hnone (Outcome.leaves_throws.1 hl ▸ h)) (by omega), by omega⟩
  · have hS : r.storageCapacity = 0 := by rw [h.storageCapacity, hzero]; rfl
    have hb := ((h.insert_zero_iff hS hpos firstIndex data isLast).1 r' hl).1
    exact ⟨iff_of_false (hnone hb) (by omega), by omega⟩
  · obtain ⟨t, b, hinit, hsz, hr, hfree⟩ := h.regular_init hG
    rw [init_init hinit hsz.init_eq] at hl
    have hlt : r.output.bytesPushed < r.storageCapacity := by
      rw [bytesPushed, h.totalPushed]
      exact hsz.pos_capacity
    have hr' := (hsz.regular_insert rfl hr ⟨he.totalLen, he.closed⟩ hD hp hl).2
      (tidy_of_unmarked hfree hlt _ _)
    have hcap : (r.storageCapacity : Int) = r.output.getCapacity := hsz.int
    refine ⟨⟨fun hreg => ?_, fun hlt => ?_⟩,
      fun _ => ((hsz.insert_spec (hr.inside rfl) _ _ _).1 r' hl).1⟩
    · have := hreg.bitmap.symm.trans hr'.bitmap
      dsimp only at this
      omega
    · have := hint hlt
      rwa [show r.output.capacity = r.storageCapacity by omega]

/-- A reassembler in a run of tidy calls. -/
structure Kempt (capacity : Nat) (D : Bytes) (r : Reassembler) (calls : List Call) : Prop where
  room : r.output.capacity = capacity
  ends : r.EndsAt D.length
  strings : (calls = [] ∧ r.Blank) ∨ (capacity < 2 ^ 31 ∧ r.Sized ∧ r.Regular capacity)

theorem Sized.storageCapacity_eq (h : r.Sized) (hint : r.output.capacity < 2 ^ 31) :
    r.storageCapacity = r.output.capacity := by
  have := h.int
  have := getCapacity_of_lt hint
  omega

theorem Kempt.insert {c : Call} (h : Kempt capacity D r calls) (hpos : 1 ≤ capacity)
    (hD : D.length < 2 ^ 64) (hc : c.Fits D)
    (hl : (r.insert c.firstIndex c.data c.isLast).Leaves r') :
    (r'.Regular capacity ↔ capacity < 2 ^ 31 ∧ r.Tidy c.firstIndex c.data) ∧
      (capacity < 2 ^ 31 → r'.Sized) := by
  have hcap := h.room
  rcases h.strings with ⟨-, hb⟩ | ⟨hint, hsz, hr⟩
  · obtain ⟨hiff, hsz⟩ := hb.regular_insert (hcap ▸ hpos) h.ends hD hc.piece hl
    rw [hcap] at hiff hsz
    refine ⟨hiff.trans (and_iff_left_of_imp fun hint => ?_).symm, hsz⟩
    refine tidy_of_unmarked (fun q hq => ?_) ?_ _ _
    · rw [Marked, hb.storageBitmap, List.getElem?_nil] at hq
      cases hq
    · have hG := getCapacity_of_lt (s := r.output) (hcap ▸ hint)
      have hS := ofInt_of_nonneg (i := r.output.getCapacity) (by omega) (by omega)
      rw [bytesPushed, hb.totalPushed, hb.storageCapacity]
      omega
  · have hS := (hsz.storageCapacity_eq (hcap ▸ hint)).trans hcap
    exact ⟨(hsz.regular_insert hS hr h.ends hD hc.piece hl).trans (and_iff_right hint).symm,
      fun _ => ((hsz.insert_spec (hr.inside hS) _ _ _).1 r' hl).1⟩

theorem Kempt.stream (h : Kempt capacity D r calls) : r.output.Wf := by
  rcases h.strings with ⟨-, hb⟩ | ⟨-, hsz, -⟩
  · exact hb.stream
  · exact hsz.stream

theorem Regular.pop {o : ByteStream} {len : Nat} (h : r.Regular capacity)
    (hpop : Popped r.output len o) : Regular capacity { r with output := o } := by
  have hP := hpop.totalPushed
  have hbase : base { r with output := o } = r.base := by simp only [base, hP]
  refine ⟨h.storage, h.bitmap, h.sync.trans hP.symm, fun q hm => ?_, h.pending⟩
  show o.totalPushed < _
  rw [hP, hbase]
  exact h.ahead q hm

theorem Kempt.pop {o : ByteStream} {len : Nat} (h : Kempt capacity D r calls)
    (hpop : Popped r.output len o) : Kempt capacity D { r with output := o } calls := by
  have hends := h.ends
  refine ⟨hpop.capacity.trans h.room, ⟨fun hc => hends.totalLen (hpop.isClosed ▸ hc), fun hc => ?_⟩, ?_⟩
  · obtain ⟨hs, hP⟩ := hends.closed (hpop.isClosed ▸ hc)
    exact ⟨hs, hpop.totalPushed.trans hP⟩
  · rcases h.strings with ⟨hnil, hb⟩ | ⟨hint, hsz, hr⟩
    · exact .inl ⟨hnil, hb.pop hpop⟩
    · exact .inr ⟨hint, hsz.pop hpop, hr.pop hpop⟩

theorem PieceRun.kempt (hpos : 1 ≤ capacity) (hword : capacity < 2 ^ 64) (hD : D.length < 2 ^ 64)
    (h : PieceRun capacity D (fun r c => capacity < 2 ^ 31 ∧ r.Tidy c.firstIndex c.data) r calls out) :
    Kempt capacity D r calls := by
  induction h with
  | start =>
    exact ⟨rfl, ⟨fun _ hs => (by cases hs), fun hc => (by cases hc)⟩, .inl ⟨rfl, blank_ofStream hword⟩⟩
  | insert c _ hfits hok hl ih =>
    have hends := ends_insert hl
    obtain ⟨hiff, hsz⟩ := ih.insert hpos hD hfits hl
    refine ⟨hends.capacity.trans ih.room, ih.ends.insert hends fun _ hlast => ?_,
      .inr ⟨hok.1, hsz hok.1, hiff.2 hok⟩⟩
    have := hfits.last hlast
    rw [add64_of_lt (by omega), this]
  | pop len _ hlen hpop ih => exact ih.pop (ih.stream.popped hlen hpop)

/-- Where every call is tidy and the capacity an `int`, the representation invariant holds from the first
call on, and a further call keeps it exactly if it is tidy, too. -/
theorem regular_of_tidy (hpos : 1 ≤ capacity) (hword : capacity < 2 ^ 64) (hD : D.length < 2 ^ 64)
    (h : PieceRun capacity D (fun r c => capacity < 2 ^ 31 ∧ r.Tidy c.firstIndex c.data) r calls out) :
    (calls ≠ [] → r.Regular capacity) ∧
    ∀ (c : Call) r', c.Fits D → (r.insert c.firstIndex c.data c.isLast).Leaves r' →
      (r'.Regular capacity ↔ capacity < 2 ^ 31 ∧ r.Tidy c.firstIndex c.data) := by
  have hk := h.kempt hpos hword hD
  refine ⟨fun hne => ?_, fun c r' hc hl => (hk.insert hpos hD hc hl).1⟩
  rcases hk.strings with ⟨hnil, -⟩ | ⟨-, -, hr⟩
  · exact absurd hnil hne
  · exact hr

/-- Capacity 3: a piece ahead, the piece before it, a read, and a piece in the second lap. -/
theorem regular_of_tidy_abcde : ∃ r calls out, PieceRun 3 [1, 2, 3, 4, 5]
    (fun r c => 3 < 2 ^ 31 ∧ r.Tidy c.firstIndex c.data) r calls out ∧ calls.length = 3 ∧
    r.Regular 3 := by
  have h₀ : PieceRun 3 [1, 2, 3, 4, 5]
    (fun r c => 3 < 2 ^ 31 ∧ r.Tidy c.firstIndex c.data) _ _ _ := .start
  have h₁ := h₀.insert ⟨1, [2, 3], false⟩ ⟨⟨by decide, by decide⟩, by decide⟩ (by decide) (.inl rfl)
  have h₂ := h₁.insert ⟨0, [1], false⟩ ⟨⟨by decide, by decide⟩, by decide⟩ (by decide) (.inl rfl)
  have h₃ := h₂.pop 2 (by decide) rfl
  have h₄ := h₃.insert ⟨3, [4, 5], true⟩ ⟨⟨by decide, by decide⟩, by decide⟩ (by decide) (.inl rfl)
  exact ⟨_, _, _, h₄, rfl, (regular_of_tidy (by decide) (by decide) (by decide) h₄).1 (by simp)⟩

/-- Capacity 2, full to the brim: two bytes are stored at the last position, and the strings have three
characters from then on. -/
theorem regular_fails : ∃ r calls out, PieceRun 2 [1, 2, 3, 4, 5] (fun _ _ => True) r calls out ∧
    calls ≠ [] ∧ r.storage.length = 3 ∧ ¬ r.Regular 2 := by
  have h₀ : PieceRun 2 [1, 2, 3, 4, 5] (fun _ _ => True) _ _ _ := .start
  have h₁ := h₀.insert ⟨0, [1, 2], false⟩ ⟨⟨by decide, by decide⟩, by decide⟩ trivial (.inl rfl)
  have h₂ := h₁.insert ⟨3, [4, 5], false⟩ ⟨⟨by decide, by decide⟩, by decide⟩ trivial (.inl rfl)
  exact ⟨_, _, _, h₂, by simp, rfl, fun h => absurd h.storage (by decide)⟩

end Minnow.Reassembler
