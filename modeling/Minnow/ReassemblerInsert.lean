import Minnow.ReassemblerInv

/-!
# One call of `insert`

`accepted` are the bytes of a substring that a call takes in. `Safe` rules out the calls that put
bytes where other bytes belong: once a capacity's worth has been pushed the strings are addressed
modulo the capacity, and neither the place nor the length of what is stored is then checked against
the window, nor is anything that is left over from the lap before removed when `cur_index` jumps into
the next one. A safe call absorbs what it accepts (`insert_spec`).
-/

namespace Minnow.Reassembler
open Prog ByteStream

/-- The index after the last byte that a call takes in, if it takes in any. Of a substring ahead it
takes in nothing when exactly a capacity's worth has been pushed: the clean-up wipes all of it. -/
def takenTo (r : Reassembler) (firstIndex : Nat) (data : Bytes) : Nat :=
  if firstIndex ≤ r.curIndex then
    min (firstIndex + data.length) (r.curIndex + r.output.availableCapacity)
  else if r.output.bytesPushed = r.storageCapacity then firstIndex
  else firstIndex + (r.clip firstIndex data).length

def accepted (r : Reassembler) (firstIndex : Nat) (data : Bytes) (k : Nat) : Option Byte :=
  if max firstIndex r.curIndex ≤ k ∧ k < r.takenTo firstIndex data then data[k - firstIndex]?
  else none

/-- No mark is left from the lap before when a substring at `cur_index` reaches into the next. -/
def LapSafe (r : Reassembler) (firstIndex : Nat) (data : Bytes) : Prop :=
  let e := max r.curIndex (r.takenTo firstIndex data)
  r.storageCapacity < e → e / r.storageCapacity ≠ r.curIndex / r.storageCapacity →
    ∀ b ∈ r.storageBitmap.drop (e % r.storageCapacity), b = false

/-- A substring that is stored under an index reduced modulo the capacity lies in the same lap and
inside the window; with the strings full to the brim it only has to stay inside them. -/
def StoreSafe (r : Reassembler) (firstIndex : Nat) (data : Bytes) : Prop :=
  let n := (r.clip firstIndex data).length
  r.storageCapacity ≤ r.output.bytesPushed → r.isValidIndex firstIndex = some true →
    if r.output.bytesPushed = r.storageCapacity then
      firstIndex % r.storageCapacity + n ≤ r.storageCapacity
    else n = 0 ∨ (firstIndex < r.curIndex + r.storageCapacity ∧
      firstIndex + n ≤ r.output.bytesPopped + r.output.capacity)

def Safe (r : Reassembler) (firstIndex : Nat) (data : Bytes) : Prop :=
  if firstIndex ≤ r.curIndex then r.LapSafe firstIndex data else r.StoreSafe firstIndex data

instance (r : Reassembler) (firstIndex : Nat) (data : Bytes) :
    Decidable (r.LapSafe firstIndex data) :=
  inferInstanceAs (Decidable (_ → _ → _))

instance (r : Reassembler) (firstIndex : Nat) (data : Bytes) :
    Decidable (r.StoreSafe firstIndex data) :=
  inferInstanceAs (Decidable (_ → _ → _))

instance (r : Reassembler) (firstIndex : Nat) (data : Bytes) :
    Decidable (r.Safe firstIndex data) :=
  inferInstanceAs (Decidable (ite _ _ _))

variable {r r' : Reassembler} {a a' : Assembly Byte} {q k n firstIndex : Nat} {data xs : Bytes}
  {isLast : Bool}

theorem accepted_nil (r : Reassembler) (firstIndex k : Nat) : r.accepted firstIndex [] k = none := by
  unfold accepted
  split <;> simp

/-! ### A substring at or behind `cur_index` -/

theorem findCur_eq_some (hcur : r.curIndex < 2 ^ 64) (hlt : firstIndex < r.curIndex)
    (hreach : r.curIndex < firstIndex + data.length) :
    r.findCur firstIndex data = some (r.curIndex - firstIndex) := by
  refine List.find?_range_eq_some.2 ⟨?_, ?_, fun j hj => ?_⟩
  · simp only [decide_eq_true_eq]; rw [add64_of_lt (by omega)]; omega
  · rw [List.mem_range]; omega
  · simp only [Bool.not_eq_true', decide_eq_false_iff_not]; rw [add64_of_lt (by omega)]; omega

theorem findCur_eq_none (hlt : firstIndex < r.curIndex)
    (hlen : data.length ≤ 2 ^ 64) (hreach : firstIndex + data.length ≤ r.curIndex) :
    r.findCur firstIndex data = none := by
  refine List.find?_eq_none.2 fun j hj => ?_
  have := List.mem_range.1 hj
  simp only [decide_eq_true_eq]
  unfold add64; omega

theorem base_mono (hS : r'.storageCapacity = r.storageCapacity)
    (hP : r'.output.totalPushed = r.output.totalPushed + n) : r.base ≤ r'.base := by
  simp only [base, hS]
  split
  · exact Nat.zero_le _
  · rw [if_neg (by omega)]
    exact Nat.mul_le_mul_right _ (Nat.div_le_div_right (by omega))

/-- Pushing past the marks keeps the base, or there are no marks ahead. -/
theorem Inv.base_push (h : r.Inv) (hS : r'.storageCapacity = r.storageCapacity)
    (hP : r'.output.totalPushed = r.output.totalPushed + n)
    (hlap : r.storageCapacity < r'.output.totalPushed →
      r'.output.totalPushed / r.storageCapacity ≠ r.output.totalPushed / r.storageCapacity →
      ∀ q, r'.output.totalPushed % r.storageCapacity ≤ q → ¬ r.Marked q) :
    r'.base = r.base ∨ ∀ q, r'.pos ≤ q → ¬ r.Marked q := by
  by_cases hle : r'.output.totalPushed ≤ r.storageCapacity
  · exact .inl (base_eq_of_lt hS hP (.inl hle))
  have hpos' : r'.pos = r'.output.totalPushed % r.storageCapacity := by
    rw [pos_of_lt (by omega), hS]
  have hS0 := h.pos_capacity
  rw [hpos']
  rcases Nat.lt_trichotomy r.output.totalPushed r.storageCapacity with hlt | heq | hgt
  · refine .inr (hlap (by omega) ?_)
    rw [Nat.div_eq_of_lt hlt]
    have := Nat.div_pos (show r.storageCapacity ≤ r'.output.totalPushed by omega) hS0
    omega
  · -- with the strings full to the brim nothing lies ahead of the next byte
    refine .inr fun q _ hm => ?_
    have := h.ahead q hm
    have := hm.lt
    have := h.flat (by omega)
    have := pos_of_le (r := r) (by omega)
    omega
  · by_cases hn : r.pos + n < r.storageCapacity
    · exact .inl (base_eq_of_lt hS hP (.inr ⟨hgt, hn⟩))
    · refine .inr (hlap (by omega) ?_)
      have hadd := r.base_add_pos
      rw [base, if_neg (by omega)] at hadd
      have : (r.output.totalPushed / r.storageCapacity + 1) * r.storageCapacity ≤
          r'.output.totalPushed := by rw [Nat.add_mul]; omega
      have := (Nat.le_div_iff_mul_le hS0).2 this
      omega

/-- An open output takes what is cut to its room. -/
theorem pushNow_pushed (r : Reassembler) (hopen : r.output.isClosed = false ∨ data = []) :
    Pushed r.output (data.take r.output.availableCapacity) (r.pushNow data).output := by
  have hp := push_pushed r.output (data.take r.output.availableCapacity)
  have htake : r.output.taken (data.take r.output.availableCapacity) =
      data.take r.output.availableCapacity := by
    rcases hopen with hc | rfl <;> simp [taken, *]
  rwa [htake] at hp

theorem Inv.pushNow (h : r.Inv) (data : Bytes) (hopen : r.output.isClosed = false ∨ data = [])
    (hlap : r.storageCapacity < (r.pushNow data).curIndex →
      (r.pushNow data).curIndex / r.storageCapacity ≠ r.output.totalPushed / r.storageCapacity →
      ∀ q, (r.pushNow data).curIndex % r.storageCapacity ≤ q → ¬ r.Marked q) :
    (r.pushNow data).Shape ∧ Moves r (data.take r.output.availableCapacity) (r.pushNow data) ∧
      (∀ k, (r.pushNow data).output.totalPushed ≤ k → (r.pushNow data).held k = r.held k) ∧
      ((r.pushNow data).output.isClosed = false ∨
        ¬ (r.pushNow data).Marked (r.pushNow data).pos) := by
  have hp := r.pushNow_pushed hopen
  have hcur : (r.pushNow data).curIndex = (r.pushNow data).output.totalPushed := by
    show r.curIndex + _ = _; rw [h.sync]; exact hp.totalPushed.symm
  rw [hcur] at hlap
  have hP : (r.pushNow data).output.totalPushed =
      r.output.totalPushed + (data.take r.output.availableCapacity).length := hp.totalPushed
  have hbase := h.base_push (rfl : (r.pushNow data).storageCapacity = _) hP hlap
  have hmono : r.base ≤ (r.pushNow data).base := base_mono rfl hP
  have hpos := r.base_add_pos
  have hpos' := (r.pushNow data).base_add_pos
  have hm : ∀ q, (r.pushNow data).Marked q ↔ r.Marked q := fun _ => Iff.rfl
  have hS : (r.pushNow data).Shape := by
    refine ⟨h.stream.push _, hcur, h.pos_capacity, hp.capacity ▸ h.capacity_le, h.last, h.strings,
      h.size, fun hle => h.flat ?_, fun q hq hq' => ?_, h.run⟩
    · have hle' : (r.pushNow data).output.totalPushed ≤ r.storageCapacity := hle
      omega
    · rcases hbase with hb | hb
      · have := h.fits q (by omega) hq'
        rw [hb, hp.totalPopped, hp.capacity]; exact this
      · exact absurd hq' (hb q hq)
  refine ⟨hS, ⟨hp.queued, hp.totalPushed, hp.totalPopped, hp.capacity, hp.error, rfl⟩,
    fun k hk => ?_, ?_⟩
  · rcases hbase with hb | hb
    · unfold held; rw [hb]; rfl
    · have hn : ¬ ((r.pushNow data).held k).isSome := by
        rw [hS.isSome_held]; rintro ⟨-, h2⟩; exact hb _ (by omega) h2
      have hn' : ¬ (r.held k).isSome := by
        rw [h.isSome_held]; rintro ⟨-, h2⟩; exact hb _ (by omega) h2
      rw [Option.not_isSome_iff_eq_none.1 hn, Option.not_isSome_iff_eq_none.1 hn']
  · rcases hopen with hc | rfl
    · exact .inl (hp.isClosed.trans hc)
    · refine .inr fun hmk => ?_
      rw [List.take_nil, List.length_nil, Nat.add_zero] at hP
      have := h.ahead _ hmk
      have : (r.pushNow []).base = r.base := by simp only [base, hP]; rfl
      omega

/-! ### A substring ahead of `cur_index` -/

/-- Both strings after `str` has been written at position `q`, and the marks that this sets. -/
theorem exists_overwrite (hq : q ≤ r.storageBitmap.length)
    (hstr : r.storage.length = r.storageBitmap.length) (str : Bytes) :
    ∃ t b, replace r.storage q str.length str = some t ∧
      replace r.storageBitmap q str.length (List.replicate str.length true) = some b ∧
      t.length = b.length ∧ b.length = max r.storageBitmap.length (q + str.length) ∧
      (∀ p, t[p]? = if q ≤ p ∧ p < q + str.length then str[p - q]? else r.storage[p]?) ∧
      ∀ p, b[p]? = if q ≤ p ∧ p < q + str.length then some true else r.storageBitmap[p]? := by
  obtain ⟨t, ht, htl, htq⟩ := exists_replace (hstr ▸ hq) str
  obtain ⟨b, hb, hbl, hbq⟩ := exists_replace hq (List.replicate str.length true)
  rw [List.length_replicate] at hb hbl
  simp only [List.length_replicate] at hbq
  refine ⟨t, b, ht, hb, by rw [htl, hbl, hstr], hbl, htq, fun p => ?_⟩
  rw [hbq]
  refine if_ctx_congr Iff.rfl (fun hin => ?_) fun _ => rfl
  rw [List.getElem?_replicate, if_pos (by omega)]

theorem Inv.shape_overwrite (h : r.Inv) {t : Bytes} {b : List Bool} (htb : t.length = b.length)
    (hbl : b.length = max r.storageBitmap.length (q + n))
    (hm : ∀ p, b[p]? = some true ↔ (q ≤ p ∧ p < q + n) ∨ r.Marked p)
    (hflat : r.output.totalPushed ≤ r.storageCapacity → q + n ≤ r.storageCapacity)
    (hfits : ∀ j < n, r.pos ≤ q + j → r.base + (q + j) < r.output.totalPopped + r.output.capacity)
    (hrun : r.storageCapacity < q + n → q + 1 = r.storageCapacity) :
    Shape { r with storage := t, storageBitmap := b } := by
  refine ⟨h.stream, h.sync, h.pos_capacity, h.capacity_le, h.last, htb, ?_, ?_, ?_, ?_⟩
  · show _ ≤ b.length; rw [hbl]; exact h.size.trans (Nat.le_max_left _ _)
  · intro hle
    show b.length = _
    rw [hbl, h.flat hle, Nat.max_eq_left (hflat hle)]
  · intro p hp hmp
    rcases (hm p).1 hmp with hin | hold
    · have := hfits (p - q) (by omega) (by rw [Nat.add_sub_cancel' hin.1]; exact hp)
      rw [Nat.add_sub_cancel' hin.1] at this; exact this
    · exact h.fits p hp hold
  · intro p hmp hSp p' h1 h2
    have hSp' : r.storageCapacity ≤ p := hSp
    have h1' : r.storageCapacity - 1 ≤ p' := h1
    rcases (hm p).1 hmp with hin | hold
    · exact (hm p').2 (.inl (by have := hrun (by omega); omega))
    · exact (hm p').2 (.inr (h.run p hold hSp p' h1 h2))

/-- Writing `str` at position `q` of both strings, clear of the next byte to push. -/
theorem Inv.overwrite (h : r.Inv) {str : Bytes} (hq : q ≤ r.storageBitmap.length)
    (hflat : r.output.totalPushed ≤ r.storageCapacity → q + str.length ≤ r.storageCapacity)
    (hfits : ∀ j < str.length, r.pos ≤ q + j →
      r.base + (q + j) < r.output.totalPopped + r.output.capacity)
    (hrun : r.storageCapacity < q + str.length → q + 1 = r.storageCapacity)
    (hpos : r.pos < q ∨ q + str.length ≤ r.pos) :
    ∃ t b, replace r.storage q str.length str = some t ∧
      replace r.storageBitmap q str.length (List.replicate str.length true) = some b ∧
      Shape { r with storage := t, storageBitmap := b } ∧
      ¬ Marked { r with storage := t, storageBitmap := b } r.pos ∧
      ∀ k, r.base ≤ k → held { r with storage := t, storageBitmap := b } k =
        if r.base + q ≤ k ∧ k < r.base + q + str.length then str[k - (r.base + q)]?
        else r.held k := by
  obtain ⟨t, b, ht, hb, htb, hbl, htq, hbq⟩ := exists_overwrite hq h.strings str
  have hm : ∀ p, b[p]? = some true ↔ (q ≤ p ∧ p < q + str.length) ∨ r.Marked p := by
    intro p
    rw [hbq]
    split
    next hp => simp [hp]
    next hp => simp [Marked, hp]
  refine ⟨t, b, ht, hb, h.shape_overwrite htb hbl hm hflat hfits hrun, fun hmp => ?_, fun k hk => ?_⟩
  · rcases (hm r.pos).1 hmp with hin | hold
    · omega
    · exact absurd (h.ahead _ hold) (Nat.lt_irrefl _)
  · show (if r.base ≤ k ∧ b[k - r.base]? = some true then t[k - r.base]? else none) = _
    have hmk := hm (k - r.base)
    rw [htq]
    by_cases hin : q ≤ k - r.base ∧ k - r.base < q + str.length
    · rw [if_pos ⟨hk, hmk.2 (.inl hin)⟩, if_pos hin, if_pos (by omega), Nat.sub_sub]
    · rw [if_neg hin, if_neg (c := r.base + q ≤ k ∧ k < r.base + q + str.length) (by omega)]
      exact if_congr (and_congr_right fun _ => hmk.trans (or_iff_right hin)) rfl rfl

/-- Positions ahead of the next byte in the same lap stand for their own index. -/
theorem Inv.base_add_mod (h : r.Inv) (hlt : r.storageCapacity < r.output.totalPushed)
    (hahead : r.output.totalPushed < firstIndex)
    (hnear : firstIndex < r.output.totalPushed + r.storageCapacity)
    (hmod : r.output.totalPushed % r.storageCapacity ≤ firstIndex % r.storageCapacity) :
    r.base + firstIndex % r.storageCapacity = firstIndex := by
  have hP := Nat.div_add_mod r.output.totalPushed r.storageCapacity
  have hi := Nat.div_add_mod firstIndex r.storageCapacity
  have hil := Nat.mod_lt firstIndex h.pos_capacity
  have hdiv : firstIndex / r.storageCapacity = r.output.totalPushed / r.storageCapacity := by
    refine Nat.le_antisymm (Nat.le_of_not_lt fun hgt => ?_) (Nat.div_le_div_right hahead.le)
    have := Nat.mul_le_mul_left r.storageCapacity (Nat.succ_le_of_lt hgt)
    rw [Nat.mul_succ] at this
    omega
  rw [base, if_neg (by omega), Nat.mul_comm, ← hdiv]; exact hi

theorem isValidIndex_eq (h : r.Inv) (firstIndex : Nat) :
    r.isValidIndex firstIndex = some (if r.output.totalPushed < r.storageCapacity then
      decide (r.output.totalPushed ≤ firstIndex ∧
        firstIndex < r.output.totalPushed + r.storageCapacity)
      else decide (r.output.totalPushed % r.storageCapacity ≤ firstIndex % r.storageCapacity)) := by
  have hS := h.pos_capacity
  have := Nat.mod_lt firstIndex hS
  unfold isValidIndex
  simp only [bytesPushed, h.sync]
  split
  · rfl
  · rw [if_neg (by omega)]
    simp only [Option.some.injEq, decide_eq_decide]
    omega

/-- What the third branch of `insert` leaves for the second half of the call. -/
structure Stored (r : Reassembler) (firstIndex : Nat) (data : Bytes) (r₁ : Reassembler) : Prop where
  shape : r₁.Shape
  output : r₁.output = r.output
  rest : r₁.storageCapacity = r.storageCapacity ∧ r₁.seenLast = r.seenLast ∧
    r₁.totalLen = r.totalLen
  clear : ¬ r₁.Marked r₁.pos
  held : ∀ k, r.output.totalPushed ≤ k →
    r₁.held k = (r.accepted firstIndex data k).or (r.held k)

theorem getElem?_clip {j : Nat} (h : j < (r.clip firstIndex data).length) :
    (r.clip firstIndex data)[j]? = data[j]? := by
  have hp : r.clip firstIndex data <+: data := by
    unfold clip; split <;> exact List.take_prefix _ _
  rw [List.prefix_iff_getElem?.1 hp _ h, List.getElem?_eq_getElem h]

theorem takenTo_ahead (hi : r.curIndex < firstIndex) : r.takenTo firstIndex data =
    if r.output.totalPushed = r.storageCapacity then firstIndex
    else firstIndex + (r.clip firstIndex data).length :=
  if_neg (Nat.not_le.2 hi)

theorem accepted_ahead (hi : r.curIndex < firstIndex) (hP : r.output.totalPushed ≠ r.storageCapacity) :
    r.accepted firstIndex data k =
      if firstIndex ≤ k ∧ k < firstIndex + (r.clip firstIndex data).length then
        (r.clip firstIndex data)[k - firstIndex]?
      else none := by
  unfold accepted
  rw [takenTo_ahead hi, Nat.max_eq_left hi.le, if_neg hP]
  split
  next hk => exact (getElem?_clip (by omega)).symm
  next => rfl

theorem accepted_brim (hi : r.curIndex < firstIndex) (hP : r.output.totalPushed = r.storageCapacity) :
    r.accepted firstIndex data k = none := by
  have htk : r.takenTo firstIndex data = _ := takenTo_ahead hi
  rw [if_pos hP] at htk
  exact if_neg (by omega)

theorem slot_of_lt (hP : r.output.totalPushed < r.storageCapacity) :
    r.slot firstIndex = firstIndex := if_pos hP

theorem slot_of_le (hP : r.storageCapacity ≤ r.output.totalPushed) :
    r.slot firstIndex = firstIndex % r.storageCapacity := if_neg (Nat.not_lt.2 hP)

/-- The last branch cuts a substring before the last position, unless it starts there. -/
theorem slot_add_length_clip (hS : 0 < r.storageCapacity) (hword : r.storageCapacity < 2 ^ 64)
    (hlast : r.finalIndex = r.storageCapacity - 1) (hP : r.storageCapacity ≤ r.output.totalPushed)
    (hlong : r.storageCapacity < r.slot firstIndex + (r.clip firstIndex data).length) :
    r.slot firstIndex + 1 = r.storageCapacity := by
  have hlt := Nat.mod_lt firstIndex hS
  rw [slot_of_le hP, clip, bytesPushed, if_neg (Nat.not_lt.2 hP), List.length_take, lastIndex,
    hlast] at hlong
  rw [slot_of_le hP]
  by_contra hne
  rw [sub64_of_le (by omega) (by omega)] at hlong
  omega

/-- Before a capacity's worth has been pushed a substring is cut where the strings end. -/
theorem add_length_clip (data : Bytes) (hlast : r.finalIndex = r.storageCapacity - 1)
    (hS : 0 < r.storageCapacity) (hword : r.storageCapacity < 2 ^ 64)
    (hP : r.output.totalPushed < r.storageCapacity) (hi : firstIndex ≤ r.storageCapacity) :
    firstIndex + (r.clip firstIndex data).length ≤ r.storageCapacity := by
  rw [clip, bytesPushed, if_pos hP, List.length_take, lastIndex, hlast,
    add64_sub64_one (by omega) (by omega)]
  omega

/-- `replace` throws where the substring would start past the end of the strings. -/
theorem store_pastEnd (h : r.storage.length < r.slot firstIndex) :
    r.store firstIndex data = .throws .outOfRange r := by
  have hnone : replace r.storage (r.slot firstIndex) (r.clip firstIndex data).length
      (r.clip firstIndex data) = none := replace_eq_none.2 h
  simp only [store, hnone]

/-- The strings after a substring has been stored, and the marks that it sets. -/
theorem store_eq (data : Bytes) (hq : r.slot firstIndex ≤ r.storageBitmap.length)
    (hstr : r.storage.length = r.storageBitmap.length) :
    ∃ t b, r.store firstIndex data = .ok { r with storage := t, storageBitmap := b } ∧
      t.length = b.length ∧
      b.length = max r.storageBitmap.length
        (r.slot firstIndex + (r.clip firstIndex data).length) ∧
      ∀ q, b[q]? = if r.slot firstIndex ≤ q ∧
          q < r.slot firstIndex + (r.clip firstIndex data).length then some true
        else r.storageBitmap[q]? := by
  obtain ⟨t, b, ht, hb, htb, hbl, -, hbq⟩ := exists_overwrite hq hstr (r.clip firstIndex data)
  exact ⟨t, b, by simp only [store, ht, hb], htb, hbl, hbq⟩

/-- What `overwrite` makes of `store`. -/
theorem Inv.store_of_overwrite (h : r.Inv)
    (hq : r.slot firstIndex ≤ r.storageBitmap.length)
    (hflat : r.output.totalPushed ≤ r.storageCapacity →
      r.slot firstIndex + (r.clip firstIndex data).length ≤ r.storageCapacity)
    (hfits : ∀ j < (r.clip firstIndex data).length, r.pos ≤ r.slot firstIndex + j →
      r.base + (r.slot firstIndex + j) < r.output.totalPopped + r.output.capacity)
    (hrun : r.storageCapacity < r.slot firstIndex + (r.clip firstIndex data).length →
      r.slot firstIndex + 1 = r.storageCapacity)
    (hpos : r.pos < r.slot firstIndex ∨
      r.slot firstIndex + (r.clip firstIndex data).length ≤ r.pos)
    (hacc : ∀ k, r.output.totalPushed ≤ k → r.accepted firstIndex data k =
      if r.base + r.slot firstIndex ≤ k ∧
          k < r.base + r.slot firstIndex + (r.clip firstIndex data).length then
        (r.clip firstIndex data)[k - (r.base + r.slot firstIndex)]?
      else none) :
    ∃ r₁, r.store firstIndex data = .ok r₁ ∧ Stored r firstIndex data r₁ := by
  obtain ⟨t, b, ht, hb, hS, hclear, hheld⟩ := h.overwrite hq hflat hfits hrun hpos
  refine ⟨{ r with storage := t, storageBitmap := b }, ?_, hS, rfl, ⟨rfl, rfl, rfl⟩, hclear,
    fun k hk => ?_⟩
  · unfold store; simp only [ht, hb]
  · rw [hheld k (r.base_le.trans hk), hacc k hk]
    split
    next hin => rw [List.getElem?_eq_getElem (by omega), Option.some_or]
    next => rw [Option.none_or]

theorem Inv.store_spec (h : r.Inv) (hi : r.curIndex < firstIndex)
    (hvalid : r.isValidIndex firstIndex = some true) (hsafe : r.StoreSafe firstIndex data)
    (hfit : r.output.totalPushed < r.storageCapacity → firstIndex ≤ r.storageCapacity) :
    ∃ r₁, r.store firstIndex data = .ok r₁ ∧ Stored r firstIndex data r₁ := by
  have hS := h.pos_capacity
  have hadd := r.base_add_pos
  have hmod := Nat.mod_lt firstIndex hS
  have hsync := h.sync
  have hcap := h.capacity_le
  have hsize := h.size
  rcases Nat.lt_trichotomy r.output.totalPushed r.storageCapacity with hlt | heq | hgt
  · have hslot : r.slot firstIndex = _ := slot_of_lt hlt
    have hbase : r.base = 0 := if_pos hlt.le
    have hn : _ + (r.clip firstIndex data).length ≤ _ :=
      add_length_clip data h.last hS (Nat.lt_of_le_of_lt hcap h.stream.word) hlt (hfit hlt)
    refine h.store_of_overwrite ?_ ?_ ?_ ?_ ?_ fun k _ => ?_
    · have := hfit hlt; omega
    · omega
    · intro j hj _; omega
    · omega
    · have := pos_of_le (r := r) hlt.le; omega
    · rw [accepted_ahead hi (by omega), hslot, hbase, Nat.zero_add]
  · have hslot : r.slot firstIndex = _ := slot_of_le heq.ge
    have hn := hsafe heq.ge hvalid
    rw [bytesPushed, if_pos heq, ← hslot] at hn
    have hpos := pos_of_le (r := r) heq.le
    refine h.store_of_overwrite (by omega) (fun _ => hn) (fun j _ _ => by omega) (by omega)
      (.inr (by omega)) fun k hk => ?_
    rw [accepted_brim hi heq, if_neg (by omega)]
  · have hslot : r.slot firstIndex = _ := slot_of_le hgt.le
    have hn := hsafe hgt.le hvalid
    rw [bytesPushed, if_neg (by omega)] at hn
    rcases hn with hn | ⟨hnear, hwin⟩
    · refine h.store_of_overwrite (by omega) (by omega) (fun j hj => by omega) (by omega)
        (by omega) fun k _ => ?_
      rw [accepted_ahead hi (by omega), if_neg (by omega), if_neg (by omega)]
    · rw [isValidIndex_eq h, if_neg (by omega), Option.some.injEq, decide_eq_true_eq] at hvalid
      have hplace := h.base_add_mod hgt (hsync ▸ hi) (hsync ▸ hnear) hvalid
      rw [← hslot] at hplace
      rw [bytesPopped] at hwin
      refine h.store_of_overwrite (by omega) (by omega) (fun j hj _ => by omega)
        (slot_add_length_clip hS
        (Nat.lt_of_le_of_lt hcap h.stream.word) h.last hgt.le) (.inl (by omega)) fun k _ => ?_
      rw [accepted_ahead hi (by omega), hplace]

/-! ### The whole call -/

/-- Before its first call, and for good where the capacity is zero or negative as an `int`. -/
structure Blank (r : Reassembler) : Prop where
  stream : r.output.Wf
  storage : r.storage = []
  storageBitmap : r.storageBitmap = []
  curIndex : r.curIndex = 0
  totalPushed : r.output.totalPushed = 0
  storageCapacity : r.storageCapacity = ofInt r.output.getCapacity
  finalIndex : r.finalIndex = ofInt (r.output.getCapacity - 1)

/-- A reassembler at any time between two calls, read as an assembly. -/
def Tracks (r : Reassembler) (a : Assembly Byte) : Prop :=
  (r.Blank ∧ a = .empty) ∨ r.Models a

/-- Everything a call does that goes through to its end. -/
structure Inserted (r : Reassembler) (a : Assembly Byte) (firstIndex : Nat) (data : Bytes)
    (isLast : Bool) (r' : Reassembler) (a' : Assembly Byte) (xs : Bytes) : Prop where
  tracks : r'.Tracks a'
  absorbs : Assembly.Absorbs a (r.accepted firstIndex data) a'
  out : a'.out = a.out ++ xs
  moves : Moves r xs r'
  seenLast : r'.seenLast = (r.seenLast || isLast)
  totalLen : r'.totalLen = r.endAfter firstIndex data isLast
  isClosed : r'.output.isClosed =
    (r.output.isClosed || (r'.seenLast && decide (r'.output.totalPushed = r'.totalLen)))

theorem Finished.inserted {r₁ : Reassembler} {t : Bytes} (hm : r.Models a)
    (hfin : Finished r₁ firstIndex data isLast r') (hmoves : Moves r t r₁)
    (hclosed : r₁.output.isClosed = r.output.isClosed)
    (hrest : r₁.seenLast = r.seenLast ∧ r₁.totalLen = r.totalLen)
    (hnew : ∀ j < t.length, r.accepted firstIndex data (r.output.totalPushed + j) = t[j]?)
    (hheld : ∀ k, r₁.output.totalPushed ≤ k →
      r₁.held k = (r.accepted firstIndex data k).or (r.held k)) :
    ∃ a', Inserted r a firstIndex data isLast r' a' (t ++ r₁.ready) := by
  have hP₁ := hmoves.totalPushed
  have hP' := hfin.moves.totalPushed
  have hlen := hm.length
  have hmerge : ∀ k, r₁.output.totalPushed ≤ k →
      a.merge (r.accepted firstIndex data) k = r₁.held k := by
    intro k hk
    rw [Assembly.merge, if_neg (by omega), hm.held, hheld k hk]
  let a' : Assembly Byte := ⟨a.out ++ (t ++ r₁.ready), r'.held, fun k hk =>
    hfin.inv.held_eq_none (by simp only [List.length_append] at hk; omega)⟩
  have hlen' : a'.out.length = r'.output.totalPushed := by
    simp only [a', List.length_append]; omega
  refine ⟨a', .inr ⟨hfin.inv, hlen', fun _ => rfl⟩, ⟨⟨_, rfl, fun j hj => ?_⟩, fun k => ?_⟩, rfl,
    hmoves.trans hfin.moves, ?_, ?_, ?_⟩
  · rw [hlen]
    rcases Nat.lt_or_ge j t.length with hj' | hj'
    · rw [Assembly.merge, if_neg (by omega), hnew j hj', List.getElem?_append_left hj',
        List.getElem?_eq_getElem hj', Option.some_or]
    · rw [List.length_append] at hj
      have := hfin.ready (j - t.length) (by omega)
      rw [hmerge _ (by omega), List.getElem?_append_right hj', ← this]
      congr 1; omega
  · rw [hlen']
    show r'.held k = _
    rw [hfin.held]
    split
    next => rfl
    next => exact (hmerge k (by omega)).symm
  · rw [hfin.seenLast, hrest.1]
  · rw [hfin.totalLen, endAfter, endAfter, hrest.2]
  · rw [hfin.isClosed, hclosed]

theorem Models.init_eq (h : r.Models a) : r.init = .ok r := by
  unfold init
  rw [if_neg]
  rintro ⟨-, hb⟩
  have := h.inv.size
  have := h.inv.pos_capacity
  rw [hb, List.length_nil] at *
  omega

/-- A substring ahead goes into the strings, unless it starts past their end. -/
theorem Models.store_spec (h : r.Models a) (isLast : Bool) (hi : r.curIndex < firstIndex)
    (hvalid : r.isValidIndex firstIndex = some true) (hsafe : r.StoreSafe firstIndex data) :
    ((r.output.totalPushed < r.storageCapacity → firstIndex ≤ r.storageCapacity) ∧
      ∃ r₁ r' a' xs, r.store firstIndex data = .ok r₁ ∧
      r₁.finish firstIndex data isLast = .ok r' ∧
      Inserted r a firstIndex data isLast r' a' xs) ∨
    (r.output.totalPushed < r.storageCapacity ∧ r.storageCapacity < firstIndex ∧
      r.store firstIndex data = .throws .outOfRange r) := by
  have hinv := h.inv
  by_cases hfit : r.output.totalPushed < r.storageCapacity → firstIndex ≤ r.storageCapacity
  · obtain ⟨r₁, hr₁, hst⟩ := hinv.store_spec hi hvalid hsafe hfit
    obtain ⟨r', hr', hfin⟩ := hst.shape.finish_spec firstIndex data isLast (.inr hst.clear)
    have hout := hst.output
    have hmoves : Moves r [] r₁ :=
      ⟨by rw [hout, List.append_nil], by rw [hout]; rfl, by rw [hout], by rw [hout], by rw [hout],
        hst.rest.1⟩
    obtain ⟨a', ha'⟩ := hfin.inserted h hmoves (by rw [hout]) hst.rest.2
      (fun j hj => absurd hj (Nat.not_lt_zero j)) (fun k hk => hst.held k (by rwa [hout] at hk))
    exact .inl ⟨hfit, r₁, r', a', _, hr₁, hr', ha'⟩
  · have hfar : r.output.totalPushed < r.storageCapacity ∧ r.storageCapacity < firstIndex := by
      omega
    refine .inr ⟨hfar.1, hfar.2, store_pastEnd ?_⟩
    rw [slot_of_lt hfar.1, hinv.strings, hinv.flat hfar.1.le]
    exact hfar.2

/-- A substring at `cur_index`, or one that reaches it from behind: both branches push the part of
`data` from `cur_index` on, if there is one. -/
theorem Models.pushNow_spec (h : r.Models a) (isLast : Bool) (hi : firstIndex ≤ r.curIndex)
    (hreach : r.curIndex ≤ firstIndex + data.length) (hlap : r.LapSafe firstIndex data)
    (hopen : r.output.isClosed = false ∨ firstIndex + data.length ≤ r.curIndex) :
    ∃ r' a' xs, (r.pushNow (data.drop (r.curIndex - firstIndex))).finish firstIndex data isLast =
      .ok r' ∧ Inserted r a firstIndex data isLast r' a' xs := by
  have hsync := h.inv.sync
  have htk : r.takenTo firstIndex data =
      min (firstIndex + data.length) (r.curIndex + r.output.availableCapacity) := if_pos hi
  have hend : (r.pushNow (data.drop (r.curIndex - firstIndex))).curIndex =
      max r.curIndex (r.takenTo firstIndex data) := by
    rw [pushNow, htk]
    simp only [List.length_take, List.length_drop]; omega
  have hopen' : r.output.isClosed = false ∨ data.drop (r.curIndex - firstIndex) = [] :=
    hopen.imp_right fun hle => List.drop_eq_nil_iff.2 (by omega)
  obtain ⟨hS, hmoves, hheld, hclear⟩ := h.inv.pushNow _ hopen' (by
    rw [hend]
    intro h1 h2 q hq hmk
    have hmem := List.mem_iff_getElem?.2
      ⟨q - max r.curIndex (r.takenTo firstIndex data) % r.storageCapacity, by
        rw [List.getElem?_drop, Nat.add_sub_cancel' hq]; exact hmk⟩
    cases hlap h1 (hsync ▸ h2) true hmem)
  obtain ⟨r', hr', hfin⟩ := hS.finish_spec firstIndex data isLast hclear
  have hP := hmoves.totalPushed
  obtain ⟨a', ha'⟩ := hfin.inserted h hmoves (push_pushed _ _).isClosed ⟨rfl, rfl⟩
    (fun j hj => by
      rw [List.length_take, List.length_drop] at hj
      rw [accepted, if_pos (by omega), List.getElem?_take_of_lt (by omega), List.getElem?_drop]
      congr 1; omega)
    (fun k hk => by
      rw [hheld k hk, accepted, if_neg, Option.none_or]
      rw [List.length_take, List.length_drop] at hP
      omega)
  exact ⟨r', a', _, hr', ha'⟩

/-- A substring that lies behind `cur_index` altogether brings nothing new. -/
theorem Models.behind_spec (h : r.Models a) (isLast : Bool) (hi : firstIndex ≤ r.curIndex)
    (hbehind : firstIndex + data.length ≤ r.curIndex) :
    ∃ r' a' xs, r.finish firstIndex data isLast = .ok r' ∧
      Inserted r a firstIndex data isLast r' a' xs := by
  obtain ⟨r', hr', hfin⟩ := h.inv.toShape.finish_spec firstIndex data isLast
    (.inr fun hmk => absurd (h.inv.ahead _ hmk) (Nat.lt_irrefl _))
  have htk : r.takenTo firstIndex data =
      min (firstIndex + data.length) (r.curIndex + r.output.availableCapacity) := if_pos hi
  obtain ⟨a', ha'⟩ := hfin.inserted h Moves.refl rfl ⟨rfl, rfl⟩
    (fun j hj => absurd hj (Nat.not_lt_zero j))
    (fun k hk => by rw [accepted, if_neg (by omega), Option.none_or])
  exact ⟨r', a', _, hr', ha'⟩

/-- A substring ahead gets into the strings. -/
def Takes (r : Reassembler) (firstIndex : Nat) : Prop :=
  r.curIndex < firstIndex → r.isValidIndex firstIndex = some true ∧
    (r.output.totalPushed < r.storageCapacity → firstIndex ≤ r.storageCapacity)

/-- A call on strings that have been made. -/
theorem Models.insert_spec (h : r.Models a) (isLast : Bool) (hsafe : r.Safe firstIndex data)
    (hlen : data.length ≤ 2 ^ 64) (hcur : r.curIndex < 2 ^ 64)
    (hopen : r.output.isClosed = false ∨ r.curIndex < firstIndex ∨
      firstIndex + data.length ≤ r.curIndex) :
    (r.Takes firstIndex ∧ ∃ r' a' xs, r.insert firstIndex data isLast = .ok r' ∧
      Inserted r a firstIndex data isLast r' a' xs) ∨
    (r.curIndex < firstIndex ∧ r.isValidIndex firstIndex = some false ∧
      r.insert firstIndex data isLast = .ok r) ∨
    (r.curIndex < firstIndex ∧ r.output.totalPushed < r.storageCapacity ∧
      r.storageCapacity < firstIndex ∧
      r.insert firstIndex data isLast = .throws .outOfRange r) := by
  unfold insert
  rw [h.init_eq]
  simp only [Outcome.bind]
  rcases Nat.lt_or_ge r.curIndex firstIndex with hi | hi
  · rw [Safe, if_neg (Nat.not_le.2 hi)] at hsafe
    rw [if_neg (by omega), if_neg (by omega)]
    cases hv : r.isValidIndex firstIndex with
    | none => simp [isValidIndex_eq h.inv] at hv
    | some valid =>
      cases valid with
      | false => exact .inr (.inl ⟨hi, rfl, rfl⟩)
      | true =>
        rcases h.store_spec isLast hi hv hsafe with
          ⟨hfit, r₁, r', a', xs, hr₁, hr', ha'⟩ | ⟨h1, h2, hr⟩
        · exact .inl ⟨fun _ => ⟨hv, hfit⟩, r', a', xs, by simp only [hr₁, hr'], ha'⟩
        · exact .inr (.inr ⟨hi, h1, h2, by simp only [hr]⟩)
  · rw [Safe, if_pos hi] at hsafe
    have hopen' := hopen.imp_right fun h => h.resolve_left (Nat.not_lt.2 hi)
    refine .inl ⟨fun hlt => absurd hlt (Nat.not_lt.2 hi), ?_⟩
    rcases Nat.lt_or_ge firstIndex r.curIndex with hlt | hge
    · rw [if_neg (by omega), if_pos hlt]
      rcases Nat.lt_or_ge r.curIndex (firstIndex + data.length) with hreach | hbehind
      · rw [findCur_eq_some hcur hlt hreach]
        exact h.pushNow_spec isLast hi hreach.le hsafe hopen'
      · rw [findCur_eq_none hlt hlen hbehind]
        exact h.behind_spec isLast hi hbehind
    · have heq : firstIndex = r.curIndex := by omega
      have := h.pushNow_spec isLast hi (by omega) hsafe hopen'
      rw [← heq, Nat.sub_self, List.drop_zero] at this
      rwa [if_pos heq]

end Minnow.Reassembler
