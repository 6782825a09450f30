import Minnow.ReassemblerInsert

/-!
# Any call, on strings made or not yet made

The two strings are made on the first call, from a capacity that went through an `int`. With a
positive one a fresh reassembler `Models` the empty assembly from then on; with a negative one every
call throws, and with zero every call with something to push divides by zero (`Tracks.insert_spec`).
-/

namespace Minnow.Reassembler
open Prog ByteStream

variable {r r' : Reassembler} {a a' : Assembly Byte} {q k n firstIndex : Nat} {data xs : Bytes}
  {isLast : Bool}

theorem ofInt_of_nonneg {i : Int} (h : 0 ≤ i) (hlt : i < 2 ^ 64) : (ofInt i : Int) = i := by
  unfold ofInt; omega

theorem getCapacity_bounds (s : ByteStream) :
    -2 ^ 31 ≤ s.getCapacity ∧ s.getCapacity < 2 ^ 31 :=
  ⟨Int.le_bmod (by decide), Int.bmod_lt (by decide)⟩

theorem getCapacity_le (s : ByteStream) : s.getCapacity ≤ s.capacity := by
  unfold getCapacity Int.bmod
  dsimp only
  split <;> omega

theorem getCapacity_congr {s s' : ByteStream} (h : s'.capacity = s.capacity) :
    s'.getCapacity = s.getCapacity := by
  unfold getCapacity; rw [h]

/-- The strings of a fresh reassembler hold nothing, and are as long as the capacity. -/
theorem Blank.models_init (h : r.Blank) (hG : 0 < r.output.getCapacity) :
    ∃ t b, r.init = .ok { r with storage := t, storageBitmap := b } ∧
      Models { r with storage := t, storageBitmap := b } .empty ∧ ∀ x ∈ b, x = false := by
  have hbounds := getCapacity_bounds r.output
  have hle := getCapacity_le r.output
  have hS := ofInt_of_nonneg hG.le (by omega)
  rw [← h.storageCapacity] at hS
  have hF := ofInt_of_nonneg (i := r.output.getCapacity - 1) (by omega) (by omega)
  rw [← h.finalIndex] at hF
  have hpos : 0 < r.storageCapacity := by omega
  have hcap : r.storageCapacity ≤ r.output.capacity := by omega
  have hlast : r.finalIndex = r.storageCapacity - 1 := by omega
  have hn : ((r.storageCapacity : Int).bmod (2 ^ 32)).toNat = r.storageCapacity := by
    rw [Int.bmod_eq_of_le (by omega) (by omega)]; rfl
  have hfalse : ∀ q : Nat, (List.replicate r.storageCapacity false)[q]? ≠ some true := by
    intro q; rw [List.getElem?_replicate]; split <;> simp
  refine ⟨List.replicate r.storageCapacity 48, List.replicate r.storageCapacity false, ?_,
    ⟨⟨⟨h.stream, ?_, hpos, hcap, hlast, ?_, ?_, ?_, ?_, ?_⟩, ?_⟩, ?_, ?_⟩,
    fun x hx => (List.mem_replicate.1 hx).2⟩
  · unfold init
    rw [if_pos ⟨h.storage, h.storageBitmap⟩]
    simp only [hn]
    rw [if_neg (by rw [Int.bmod_eq_of_le (by omega) (by omega)]; omega)]
  · show r.curIndex = r.output.totalPushed
    rw [h.curIndex, h.totalPushed]
  · show (List.replicate _ _).length = (List.replicate _ _).length
    rw [List.length_replicate, List.length_replicate]
  · show _ ≤ (List.replicate _ _).length
    rw [List.length_replicate]
  · intro _
    exact List.length_replicate
  · exact fun q _ hq => absurd hq (hfalse q)
  · exact fun q hq => absurd hq (hfalse q)
  · exact fun q hq => absurd hq (hfalse q)
  · exact h.totalPushed.symm
  · intro k
    refine (if_neg ?_).symm
    exact fun hk => hfalse _ hk.2

theorem Blank.init_of_neg (h : r.Blank) (hG : r.output.getCapacity < 0) :
    r.init = .throws .lengthError r := by
  have hb := getCapacity_bounds r.output
  have hn : (r.storageCapacity : Int).bmod (2 ^ 32) < 0 := by
    rw [h.storageCapacity, ofInt]
    unfold Int.bmod
    dsimp only
    split <;> omega
  unfold init
  rw [if_pos ⟨h.storage, h.storageBitmap⟩]
  simp only [if_pos hn]

theorem init_init {r₁ : Reassembler} (h : r.init = .ok r₁) (h₁ : r₁.init = .ok r₁) :
    r.insert firstIndex data isLast = r₁.insert firstIndex data isLast := by
  unfold insert; rw [h, h₁]

theorem Blank.init_of_zero (h : r.Blank) (hS : r.storageCapacity = 0) : r.init = .ok r := by
  have hn : (r.storageCapacity : Int).bmod (2 ^ 32) = 0 := by rw [hS]; exact Int.zero_bmod
  obtain ⟨o, S, c, f, tl, sl, st, b⟩ := r
  obtain ⟨rfl, rfl⟩ : st = [] ∧ b = [] := ⟨h.storage, h.storageBitmap⟩
  unfold init
  simp only [and_self, if_true, hn, Int.lt_irrefl, if_false]
  rfl

/-- Without strings the second half of a call only looks at the counters. -/
theorem Blank.finish_eq (h : r.Blank) :
    r.finish firstIndex data isLast = .ok (r.closeAtEnd firstIndex data isLast) := by
  have hdc : (r.drain 0).bind (fun r => r.cleanUp 0) = .ok r := by
    unfold drain
    rw [if_neg (by omega), h.storageBitmap]
    simp only [List.getElem?_nil, reduceCtorEq, if_false, Outcome.bind, cleanUp]
    rw [h.storageBitmap]
    obtain ⟨o, S, c, f, tl, sl, st, b⟩ := r
    have h2 := h.storageBitmap
    dsimp only at h2
    subst h2
    rfl
  have hnew : r.newCurIndex = some 0 := by
    have := h.totalPushed
    unfold newCurIndex
    rw [bytesPushed, if_neg (by omega), h.curIndex]
  rw [finish, hnew]
  simp only [hdc]
  rfl

theorem Blank.closeAtEnd (h : r.Blank) : (r.closeAtEnd firstIndex data isLast).Blank := by
  have hwf := h.stream
  rw [closeAtEnd_eq]
  exact ⟨⟨hwf.word, hwf.buffered, hwf.fits, hwf.chunks, hwf.pushed⟩, h.storage, h.storageBitmap,
    h.curIndex, h.totalPushed, h.storageCapacity, h.finalIndex⟩

theorem pushNow_nil (hnil : data.take r.output.availableCapacity = []) : r.pushNow data = r := by
  simp only [pushNow, hnil, push_nil, List.length_nil, Nat.add_zero]

/-- With no room in the strings a call ahead of `cur_index` divides by zero. -/
theorem Blank.insert_eq (h : r.Blank) (hS : r.storageCapacity = 0) :
    r.insert firstIndex data isLast =
      if firstIndex = 0 then (r.pushNow data).finish 0 data isLast else .undefined .divByZero := by
  have hcur := h.curIndex
  unfold insert
  rw [h.init_of_zero hS]
  simp only [Outcome.bind, hcur]
  split
  next h0 => rw [h0]
  next h0 =>
    rw [if_neg (Nat.not_lt_zero _), isValidIndex, bytesPushed, hS, if_neg (Nat.not_lt_zero _),
      if_pos rfl]

/-- A call that moves `cur_index` divides by zero if it pushes what it moves over, and reads past
the end of the strings if the output is closed. -/
theorem Blank.finish_pushNow (h : r.Blank) (hS : r.storageCapacity = 0)
    (hne : data.take r.output.availableCapacity ≠ []) (firstIndex : Nat) (xs : Bytes)
    (isLast : Bool) :
    ∃ u, (r.pushNow data).finish firstIndex xs isLast = .undefined u := by
  have hpos : 0 < (data.take r.output.availableCapacity).length := List.length_pos_iff.2 hne
  have hP := (push_pushed r.output (data.take r.output.availableCapacity)).totalPushed
  have hS' : (r.pushNow data).storageCapacity = 0 := hS
  by_cases hz : (r.pushNow data).output.totalPushed = 0
  · have hnew : (r.pushNow data).newCurIndex = some (r.pushNow data).curIndex := by
      rw [newCurIndex, bytesPushed, if_neg (by omega)]
    have hend : (r.pushNow data).storageBitmap.length < (r.pushNow data).curIndex := by
      show r.storageBitmap.length < r.curIndex + (data.take r.output.availableCapacity).length
      rw [h.storageBitmap, List.length_nil]
      omega
    exact ⟨.pastEnd, by simp only [finish, hnew, drain, if_pos hend, Outcome.bind]⟩
  · have hnew : (r.pushNow data).newCurIndex = none := by
      rw [newCurIndex, bytesPushed, if_pos (by omega), if_pos hS']
    exact ⟨.divByZero, by rw [finish, hnew]⟩

/-- What remains are calls at index 0 with nothing to push. -/
theorem Blank.insert_zero (h : r.Blank) (hG : r.output.getCapacity = 0)
    (hl : (r.insert firstIndex data isLast).Leaves r') :
    r.insert firstIndex data isLast = .ok r' ∧
      Inserted r .empty firstIndex data isLast r' .empty [] := by
  have hS : r.storageCapacity = 0 := by rw [h.storageCapacity, hG]; rfl
  have hcur := h.curIndex
  rw [h.insert_eq hS] at hl ⊢
  by_cases hi : firstIndex = 0
  swap
  · rw [if_neg hi] at hl
    exact absurd hl Outcome.not_leaves_undefined
  subst hi
  rw [if_pos rfl] at hl ⊢
  by_cases hnil : data.take r.output.availableCapacity = []
  swap
  · obtain ⟨u, hu⟩ := h.finish_pushNow hS hnil 0 data isLast
    rw [hu] at hl
    exact absurd hl Outcome.not_leaves_undefined
  rw [pushNow_nil hnil, h.finish_eq] at hl ⊢
  obtain rfl := Outcome.leaves_ok.1 hl
  have htk : r.takenTo 0 data = 0 := by
    have hlen : min r.output.availableCapacity data.length = 0 := by
      rw [← List.length_take, hnil]; rfl
    unfold takenTo
    rw [if_pos (Nat.zero_le _), hcur]; omega
  have hacc : ∀ k, r.accepted 0 data k = none := by
    intro k
    rw [accepted, if_neg (by omega)]
  refine ⟨rfl, .inl ⟨h.closeAtEnd, rfl⟩, ⟨⟨[], rfl, fun j hj => absurd hj (Nat.not_lt_zero j)⟩,
    fun k => ?_⟩, rfl, ?_, ?_, ?_, ?_⟩
  · simp [Assembly.empty, Assembly.merge, hacc]
  all_goals rw [closeAtEnd_eq]
  exact ⟨(List.append_nil _).symm, rfl, rfl, rfl, rfl, rfl⟩

theorem Tracks.sync (h : r.Tracks a) : r.curIndex = r.output.totalPushed := by
  rcases h with ⟨hb, -⟩ | hm
  · rw [hb.curIndex, hb.totalPushed]
  · exact hm.inv.sync

theorem Tracks.length (h : r.Tracks a) : a.out.length = r.output.totalPushed := by
  rcases h with ⟨hb, rfl⟩ | hm
  · rw [hb.totalPushed]; rfl
  · exact hm.length

/-- With a capacity that `int` can represent, the last position is the one the constructor sets. -/
theorem Tracks.finalIndex (h : r.Tracks a) (hG : 0 < r.output.getCapacity)
    (hS : (r.storageCapacity : Int) = r.output.getCapacity) :
    r.finalIndex = r.storageCapacity - 1 := by
  rcases h with ⟨hb, -⟩ | hm
  · have hbounds := getCapacity_bounds r.output
    have := ofInt_of_nonneg (i := r.output.getCapacity - 1) (by omega) (by omega)
    rw [hb.finalIndex]; omega
  · exact hm.inv.last

theorem Tracks.stream (h : r.Tracks a) : r.output.Wf := by
  rcases h with ⟨hb, -⟩ | hm
  · exact hb.stream
  · exact hm.inv.stream

theorem Tracks.held (h : r.Tracks a) (k : Nat) : a.held k = r.held k := by
  rcases h with ⟨hb, rfl⟩ | hm
  · simp [Reassembler.held, hb.storageBitmap, Assembly.empty]
  · exact hm.held k

/-- In the first lap a position stands for itself. -/
theorem Tracks.marked_iff (h : r.Tracks a) (hP : r.output.totalPushed ≤ r.storageCapacity) :
    r.Marked q ↔ (a.held q).isSome := by
  rcases h with ⟨hb, rfl⟩ | hm
  · simp [Marked, hb.storageBitmap, Assembly.empty]
  · have hbase : r.base = 0 := if_pos hP
    rw [hm.held, hm.inv.isSome_held, hbase]
    simp

/-- A call that changes nothing a caller can see. -/
structure Skipped (r r' : Reassembler) : Prop where
  output : r'.output = r.output
  curIndex : r'.curIndex = r.curIndex
  storageCapacity : r'.storageCapacity = r.storageCapacity
  seenLast : r'.seenLast = r.seenLast
  totalLen : r'.totalLen = r.totalLen

theorem Skipped.refl (r : Reassembler) : Skipped r r := ⟨rfl, rfl, rfl, rfl, rfl⟩

/-- A call makes the strings if it has to, and then does what it does on a reassembler that has
them. -/
theorem Tracks.strings (h : r.Tracks a) (hG : 0 < r.output.getCapacity) :
    ∃ t b, (∀ firstIndex data isLast, r.insert firstIndex data isLast =
        insert { r with storage := t, storageBitmap := b } firstIndex data isLast) ∧
      Models { r with storage := t, storageBitmap := b } a ∧
      ∀ firstIndex data, r.Safe firstIndex data →
        Safe { r with storage := t, storageBitmap := b } firstIndex data := by
  rcases h with ⟨hb, rfl⟩ | hm
  · obtain ⟨t, b, hinit, hm, hfalse⟩ := hb.models_init hG
    refine ⟨t, b, fun _ _ _ => init_init hinit hm.init_eq, hm, fun firstIndex data hsafe => ?_⟩
    unfold Safe at hsafe ⊢
    split
    next hi => exact fun _ _ x hx => hfalse x (List.mem_of_mem_drop hx)
    next hi => rw [if_neg hi] at hsafe; exact hsafe
  · exact ⟨r.storage, r.storageBitmap, fun _ _ _ => rfl, hm, fun _ _ hsafe => hsafe⟩

theorem Inserted.of_strings {t : Bytes} {b : List Bool}
    (h : Inserted { r with storage := t, storageBitmap := b } a firstIndex data isLast r' a' xs) :
    Inserted r a firstIndex data isLast r' a' xs :=
  ⟨h.tracks, h.absorbs, h.out, ⟨h.moves.queued, h.moves.totalPushed, h.moves.totalPopped,
    h.moves.capacity, h.moves.error, h.moves.storageCapacity⟩, h.seenLast, h.totalLen, h.isClosed⟩

/-- However a call ends, short of undefined behaviour: it absorbs what it accepts, or it refuses a
substring too far ahead, or it cannot make the strings. -/
theorem Tracks.insert_spec (h : r.Tracks a) (hsafe : r.Safe firstIndex data)
    (hlen : data.length ≤ 2 ^ 64) (hcur : r.curIndex < 2 ^ 64)
    (hopen : r.output.isClosed = false ∨ r.curIndex < firstIndex ∨
      firstIndex + data.length ≤ r.curIndex)
    (hl : (r.insert firstIndex data isLast).Leaves r') :
    (r.insert firstIndex data isLast = .ok r' ∧
      ∃ a' xs, Inserted r a firstIndex data isLast r' a' xs) ∨
    (Skipped r r' ∧ r'.Tracks a ∧ (r.curIndex < firstIndex ∨
      (r.output.getCapacity < 0 ∧ r.insert firstIndex data isLast = .throws .lengthError r'))) := by
  have models : ∀ {t b}, let r₁ : Reassembler := { r with storage := t, storageBitmap := b }
      r.insert firstIndex data isLast = r₁.insert firstIndex data isLast → r₁.Models a →
      r₁.Safe firstIndex data →
      (r.insert firstIndex data isLast = .ok r' ∧
        ∃ a' xs, Inserted r a firstIndex data isLast r' a' xs) ∨
      (Skipped r r' ∧ r'.Tracks a ∧ (r.curIndex < firstIndex ∨
        (r.output.getCapacity < 0 ∧ r.insert firstIndex data isLast = .throws .lengthError r'))) := by
    intro t b r₁ heq hm hs
    rw [heq] at hl ⊢
    rcases hm.insert_spec isLast hs hlen hcur hopen with
      ⟨-, r'', a', xs, hr, hi⟩ | ⟨hi, -, hr⟩ | ⟨hi, -, -, hr⟩ <;> rw [hr] at hl
    · obtain rfl := Outcome.leaves_ok.1 hl
      exact .inl ⟨hr, a', xs, hi.of_strings⟩
    · obtain rfl := Outcome.leaves_ok.1 hl
      exact .inr ⟨⟨rfl, rfl, rfl, rfl, rfl⟩, .inr hm, .inl hi⟩
    · obtain rfl := Outcome.leaves_throws.1 hl
      exact .inr ⟨⟨rfl, rfl, rfl, rfl, rfl⟩, .inr hm, .inl hi⟩
  rcases h with ⟨hb, rfl⟩ | hm
  · rcases Int.lt_trichotomy r.output.getCapacity 0 with hneg | hzero | hpos
    · have hthrow : r.insert firstIndex data isLast = .throws .lengthError r := by
        unfold insert; rw [hb.init_of_neg hneg]; rfl
      rw [hthrow] at hl
      obtain rfl := Outcome.leaves_throws.1 hl
      exact .inr ⟨.refl _, .inl ⟨hb, rfl⟩, .inr ⟨hneg, hthrow⟩⟩
    · exact .inl ((hb.insert_zero hzero hl).imp_right fun hi => ⟨_, _, hi⟩)
    · obtain ⟨t, b, heq, hm, hs⟩ := Tracks.strings (.inl ⟨hb, rfl⟩) hpos
      exact models (heq _ _ _) hm (hs _ _ hsafe)
  · exact models (t := r.storage) (b := r.storageBitmap) rfl hm hsafe

theorem Blank.pop {o : ByteStream} {len : Nat} (h : r.Blank) (hpop : Popped r.output len o) :
    Blank { r with output := o } := by
  refine ⟨hpop.wf, h.storage, h.storageBitmap, h.curIndex, hpop.totalPushed.trans h.totalPushed,
    ?_, ?_⟩
  · show _ = ofInt o.getCapacity
    rw [getCapacity_congr hpop.capacity]; exact h.storageCapacity
  · show _ = ofInt (o.getCapacity - 1)
    rw [getCapacity_congr hpop.capacity]; exact h.finalIndex

/-- Popping buffered bytes leaves the strings as they are. -/
theorem Tracks.pop {o : ByteStream} {len : Nat} (h : r.Tracks a) (hpop : Popped r.output len o) :
    Tracks { r with output := o } a := by
  rcases h with ⟨hb, rfl⟩ | ⟨hinv, hlen, hheld⟩
  · exact .inl ⟨hb.pop hpop, rfl⟩
  · have hP := hpop.totalPushed
    have hbase : base { r with output := o } = r.base := by simp only [base, hP]
    have hpos : pos { r with output := o } = r.pos := by simp only [pos, hbase, hP]
    refine .inr ⟨⟨⟨hpop.wf, hinv.sync.trans hP.symm, hinv.pos_capacity,
      hpop.capacity ▸ hinv.capacity_le, hinv.last, hinv.strings, hinv.size,
      fun hle => hinv.flat (hP ▸ hle), fun q hq hmk => ?_, hinv.run⟩,
      fun q hmk => hpos ▸ hinv.ahead q hmk⟩, hlen.trans hP.symm, fun k => ?_⟩
    · have := hinv.fits q (hpos ▸ hq) hmk
      show _ < o.totalPopped + o.capacity
      rw [hbase, hpop.totalPopped, hpop.capacity]; omega
    · rw [hheld, Reassembler.held, Reassembler.held, hbase]

theorem Tracks.setError (h : r.Tracks a) :
    Tracks { r with output := r.output.setError } a := by
  rcases h with ⟨hb, rfl⟩ | ⟨hinv, hlen, hheld⟩
  · exact .inl ⟨⟨hb.stream.setError, hb.storage, hb.storageBitmap, hb.curIndex, hb.totalPushed,
      hb.storageCapacity, hb.finalIndex⟩, rfl⟩
  · exact .inr ⟨⟨⟨hinv.stream.setError, hinv.sync, hinv.pos_capacity, hinv.capacity_le, hinv.last,
      hinv.strings, hinv.size, hinv.flat, hinv.fits, hinv.run⟩, hinv.ahead⟩, hlen, hheld⟩

/-- An insert of nothing puts nothing anywhere. -/
theorem Tracks.safe_nil (h : r.Tracks a) (firstIndex : Nat) : r.Safe firstIndex [] := by
  have hclip : r.clip firstIndex [] = [] := by unfold clip; split <;> exact List.take_nil
  unfold Safe
  split
  next hi =>
    have htk : r.takenTo firstIndex [] ≤ r.curIndex := by
      unfold takenTo
      rw [if_pos hi, List.length_nil]; omega
    intro _ hne
    rw [Nat.max_eq_left htk] at hne
    exact absurd rfl hne
  next hi =>
    intro _ hv
    rw [hclip, List.length_nil]
    split
    · have hS : 0 < r.storageCapacity := by
        rcases h with ⟨hb, -⟩ | hm
        · have := hb.totalPushed
          rw [bytesPushed] at *
          rw [isValidIndex, if_neg (by rw [bytesPushed]; omega), if_pos (by omega)] at hv
          cases hv
        · exact hm.inv.pos_capacity
      exact (Nat.mod_lt _ hS).le
    · exact .inl rfl

theorem blank_ofStream {capacity : Nat} (h : capacity < 2 ^ 64) : Blank (ofStream { capacity }) :=
  ⟨wf_new h, rfl, rfl, rfl, rfl, by rw [ofStream], by rw [ofStream]⟩

theorem tracks_ofStream {capacity : Nat} (h : capacity < 2 ^ 64) :
    Tracks (ofStream { capacity }) .empty :=
  .inl ⟨blank_ofStream h, rfl⟩

theorem getCapacity_of_lt {s : ByteStream} (h : s.capacity < 2 ^ 31) : s.getCapacity = s.capacity := by
  unfold ByteStream.getCapacity
  exact Int.bmod_eq_of_le (by show -((2 : Int) ^ 32 / 2) ≤ (s.capacity : Int); omega)
    (by show (s.capacity : Int) < _; omega)

theorem storageCapacity_ofStream {capacity : Nat} (h : capacity < 2 ^ 31) :
    (ofStream { capacity }).storageCapacity = capacity := by
  have hS := ofInt_of_nonneg (i := (capacity : Int)) (by omega) (by omega)
  rw [ofStream, getCapacity_of_lt (s := { capacity }) h]
  exact Int.ofNat_inj.1 hS

end Minnow.Reassembler
