import Minnow.ParserSplit
import Minnow.TCPSegment

/-!
# Which bytes `TCPSegment::parse` accepts

The checksum is summed over the bytes as they came in, and each integer read checks that its bytes are
there. What comes between the fixed header and the payload is skipped without such a check, so a data
offset that points past the end is accepted (`parse_grammar_iff`).
-/

namespace Minnow.TCPSegment
open Prog

/-- The data offset in the header, in 32-bit words. -/
def dataOffset (bytes : Bytes) : Nat := (bytes.getD 12 0).toNat / 16

/-- What the bytes are decoded to, before the checks. -/
def ofBytes (bytes : Bytes) : TCPSegment where
  message :=
    { sender :=
        { seqno := ⟨UInt32.ofNat (field bytes 4 4)⟩
          SYN := decide (UInt8.ofNat (field bytes 13 1) &&& 0b00000010 ≠ 0)
          payload := bytes.drop (4 * dataOffset bytes)
          FIN := decide (UInt8.ofNat (field bytes 13 1) &&& 0b00000001 ≠ 0)
          RST := decide (UInt8.ofNat (field bytes 13 1) &&& 0b00000100 ≠ 0) }
      receiver :=
        { ackno :=
            if UInt8.ofNat (field bytes 13 1) &&& 0b00010000 = 0 then none
            else some ⟨UInt32.ofNat (field bytes 8 4)⟩
          windowSize := UInt16.ofNat (field bytes 14 2)
          RST := decide (UInt8.ofNat (field bytes 13 1) &&& 0b00000100 ≠ 0) } }
  udinfo :=
    { srcPort := UInt16.ofNat (field bytes 0 2)
      dstPort := UInt16.ofNat (field bytes 2 2)
      cksum := UInt16.ofNat (field bytes 16 2) }

/-- The ones' complement sum of pseudo-header and bytes. -/
def Verifies (pseudo : Nat) (bytes : Bytes) : Prop := foldCarry (pseudo + pairSum false bytes) = 0xffff

instance (pseudo : Nat) (bytes : Bytes) : Decidable (Verifies pseudo bytes) :=
  decidable_of_iff _ foldCarry_eq_iff.symm

/-- What a segment is: the checksum is right, the fixed header is there, and the data offset points
behind it and not past the end. -/
structure Grammatical (pseudo : Nat) (bytes : Bytes) : Prop where
  checksum : Verifies pseudo bytes
  header : 20 ≤ bytes.length
  above : 20 ≤ 4 * dataOffset bytes
  inside : 4 * dataOffset bytes ≤ bytes.length

variable {p : Parser} {pseudo i : Nat} {b : Byte} {bytes : Bytes}
  {bufs : List Bytes}

/-- The checksum test, while 32 bits hold the sum. -/
theorem value_eq_zero_iff (hlt : pseudo + 65280 * bytes.length < 2 ^ 32) :
    (InternetChecksum.add { sum := pseudo } bytes).value = 0 ↔ Verifies pseudo bytes := by
  have hle := pairSum_le false bytes
  rw [InternetChecksum.value_eq_zero_iff, ← foldCarry_eq_iff,
    InternetChecksum.sum_add (by dsimp only; omega)]
  rfl

/-! ### The data offset -/

theorem toNat_dataOffset (b : Byte) : (b >>> 4).toUInt32.toNat = b.toNat / 16 := by
  rw [UInt8.toNat_toUInt32, UInt8.toNat_shiftRight]
  exact Nat.shiftRight_eq_div_pow _ 4

theorem dataOffset_lt : (b >>> 4).toUInt32 < TCPHeaderMinLen ↔ b.toNat / 16 < 5 := by
  rw [UInt32.lt_iff_toNat_lt, toNat_dataOffset]
  rfl

/-- From an offset of 5 on the subtraction does not wrap. -/
theorem dataOffset_skip (h : 5 ≤ b.toNat / 16) :
    (UInt8.toUInt32 (b >>> 4) * 4 - TCPHeaderMinLen * 4).toNat = 4 * (b.toNat / 16) - 20 := by
  have hb := b.toNat_lt
  have hm : ((b >>> 4).toUInt32 * 4).toNat = 4 * (b.toNat / 16) := by
    rw [UInt32.toNat_mul, toNat_dataOffset]
    show b.toNat / 16 * 4 % 2 ^ 32 = _
    omega
  have hle : TCPHeaderMinLen * (4 : UInt32) ≤ (b >>> 4).toUInt32 * (4 : UInt32) := by
    rw [UInt32.le_iff_toNat_le, hm]
    show 20 ≤ _
    omega
  rw [UInt32.toNat_sub_of_le _ _ hle, hm]
  rfl

/-! ### `parse`, after the checksum has been verified -/

/-- The reads of the fixed header leave an error if it is not all there. -/
theorem parse_short (seg : TCPSegment)
    (hvalue : (InternetChecksum.addAll { sum := pseudo } p.buffer).value = 0)
    (hp : p.Reads bytes) (hlen : bytes.length < 20) :
    ∃ r, parse pseudo seg p = some r ∧ r.2.hasError = true := by
  have hs : p.Short 20 := ⟨_, hp.standsAt, .inr hlen⟩
  obtain ⟨_, p₁, h₁, hs⟩ := hs.integer 2 seg.udinfo.srcPort.toNat
  obtain ⟨_, p₂, h₂, hs⟩ := hs.integer 2 seg.udinfo.dstPort.toNat
  obtain ⟨_, p₃, h₃, hs⟩ := hs.integer 4 0
  obtain ⟨_, p₄, h₄, hs⟩ := hs.integer 4 _
  obtain ⟨_, p₅, h₅, hs⟩ := hs.integer 1 0
  obtain ⟨_, p₆, h₆, hs⟩ := hs.integer 1 _
  obtain ⟨_, p₇, h₇, hs⟩ := hs.integer 2 seg.message.receiver.windowSize.toNat
  obtain ⟨_, p₈, h₈, hs⟩ := hs.integer 2 seg.udinfo.cksum.toNat
  obtain ⟨_, p₉, h₉, hs⟩ := hs.integer 2 0
  unfold parse
  dsimp only
  rw [if_neg (not_not_intro hvalue)]
  refine exists_bind h₁ <| exists_bind h₂ <| exists_bind h₃ <| exists_bind h₄ <| exists_bind h₅ <|
    exists_bind h₆ <| exists_bind h₇ <| exists_bind h₈ <| exists_bind h₉ <| ⟨_, rfl, ?_⟩
  dsimp only [Parser.hasError, Parser.removePrefix]
  split
  · rfl
  · exact hs.error

/-- With the fixed header there, an error is left if the data offset points into it, and otherwise the
segment is what the bytes are decoded to. -/
theorem parse_long (seg : TCPSegment)
    (hvalue : (InternetChecksum.addAll { sum := pseudo } p.buffer).value = 0)
    (hp : p.Reads bytes) (hlen : 20 ≤ bytes.length) :
    ∃ r, parse pseudo seg p = some r ∧ (r.2.hasError = true ↔ dataOffset bytes < 5) ∧
      (5 ≤ dataOffset bytes → r.1 = ofBytes bytes) := by
  have hp : p.Reads (bytes.drop 0) := hp
  obtain ⟨p₁, h₁, hp⟩ := hp.integer_at (show 0 + 2 ≤ _ by omega) seg.udinfo.srcPort.toNat
  obtain ⟨p₂, h₂, hp⟩ := hp.integer_at (show 2 + 2 ≤ _ by omega) seg.udinfo.dstPort.toNat
  obtain ⟨p₃, h₃, hp⟩ := hp.integer_at (show 4 + 4 ≤ _ by omega) 0
  obtain ⟨p₄, h₄, hp⟩ := hp.integer_at (show 8 + 4 ≤ _ by omega) _
  obtain ⟨p₅, h₅, hp⟩ := hp.integer_at (show 12 + 1 ≤ _ by omega) 0
  obtain ⟨p₆, h₆, hp⟩ := hp.integer_at (show 13 + 1 ≤ _ by omega) _
  obtain ⟨p₇, h₇, hp⟩ := hp.integer_at (show 14 + 2 ≤ _ by omega)
    seg.message.receiver.windowSize.toNat
  obtain ⟨p₈, h₈, hp⟩ := hp.integer_at (show 16 + 2 ≤ _ by omega) seg.udinfo.cksum.toNat
  obtain ⟨p₉, h₉, hp⟩ := hp.integer_at (show 18 + 2 ≤ _ by omega) 0
  unfold parse
  dsimp only
  rw [if_neg (not_not_intro hvalue)]
  refine exists_bind h₁ <| exists_bind h₂ <| exists_bind h₃ <| exists_bind h₄ <| exists_bind h₅ <|
    exists_bind h₆ <| exists_bind h₇ <| exists_bind h₈ <| exists_bind h₉ <| ⟨_, rfl, ?_⟩
  dsimp only
  rw [octet_eq (by omega)]
  by_cases hd : dataOffset bytes < 5
  · rw [if_pos (dataOffset_lt.2 hd)]
    exact ⟨iff_of_true rfl hd, fun h5 => absurd hd (Nat.not_lt.2 h5)⟩
  · rw [if_neg (mt dataOffset_lt.1 hd), dataOffset_skip (Nat.le_of_not_lt hd)]
    refine ⟨iff_of_false ?_ hd, fun h5 => ?_⟩
    · rw [Parser.hasError, Parser.removePrefix, hp.error]
      exact Bool.false_ne_true
    · have hpay := (hp.removePrefix (4 * dataOffset bytes - 20)).allRemaining.1
      rw [List.drop_drop, show 18 + 2 + (4 * dataOffset bytes - 20) = 4 * dataOffset bytes by omega]
        at hpay
      rw [show (bytes.getD 12 0).toNat / 16 = dataOffset bytes from rfl, hpay]
      rfl

/-- `parse` never reads from an empty buffer. -/
theorem parse_isSome (pseudo : Nat) (seg : TCPSegment) (hp : p.Reads bytes) :
    ∃ r, parse pseudo seg p = some r := by
  by_cases hvalue : (InternetChecksum.addAll { sum := pseudo } p.buffer).value = 0
  swap
  · unfold parse
    dsimp only
    exact ⟨_, if_pos hvalue⟩
  rcases Nat.lt_or_ge bytes.length 20 with hlen | hlen
  · obtain ⟨r, hr, -⟩ := parse_short seg hvalue hp hlen
    exact ⟨r, hr⟩
  · obtain ⟨r, hr, -⟩ := parse_long seg hvalue hp hlen
    exact ⟨r, hr⟩

/-- `parse` on a list of buffers: what it accepts, and the segment it gives. -/
theorem parse_spec (seg : TCPSegment) (hne : ∀ b ∈ bufs, b ≠ [])
    (hlt : pseudo + 65280 * bufs.flatten.length < 2 ^ 32) :
    ∃ r, parse pseudo seg (.ofBuffers bufs) = some r ∧
      (r.2.hasError = false ↔ Verifies pseudo bufs.flatten ∧ 20 ≤ bufs.flatten.length ∧
        5 ≤ dataOffset bufs.flatten) ∧
      (r.2.hasError = false → r.1 = ofBytes bufs.flatten) := by
  have hp := Parser.reads_ofBuffers hne
  have hiff := value_eq_zero_iff hlt
  rw [← hp.buffer.1, ← InternetChecksum.addAll_eq, hp.buffer.1] at hiff
  by_cases hv : Verifies pseudo bufs.flatten
  swap
  · refine ⟨(seg, (Parser.ofBuffers bufs).setError), ?_, ?_⟩
    · unfold parse
      dsimp only
      rw [if_pos (mt hiff.1 hv)]
    · exact ⟨iff_of_false nofun fun h => hv h.1, nofun⟩
  rcases Nat.lt_or_ge bufs.flatten.length 20 with hlen | hlen
  · obtain ⟨r, hr, herr⟩ := parse_short seg (hiff.2 hv) hp hlen
    refine ⟨r, hr, iff_of_false (by rw [herr]; exact nofun) fun h => ?_, fun h => ?_⟩
    · omega
    · rw [herr] at h; cases h
  · obtain ⟨r, hr, herr, hseg⟩ := parse_long seg (hiff.2 hv) hp hlen
    have hok : r.2.hasError = false ↔ 5 ≤ dataOffset bufs.flatten := by
      rw [← Bool.not_eq_true, herr, Nat.not_lt]
    exact ⟨r, hr, hok.trans ⟨fun h5 => ⟨hv, hlen, h5⟩, fun h => h.2.2⟩, fun h => hseg (hok.1 h)⟩

/-! ### What is accepted, and what ought to be -/

/-- `parse` accepts the segments and gives their payload, unless the data offset points past the end of
bytes that are otherwise right. -/
theorem parse_grammar_iff (h : IPv4Header) (seg : TCPSegment) (hne : ∀ b ∈ bufs, b ≠ [])
    (hlen : bufs.flatten.length ≤ 65535) :
    (∃ seg' p', parse h.pseudoChecksum seg (.ofBuffers bufs) = some (seg', p') ∧
      (p'.hasError = false ↔ Grammatical h.pseudoChecksum bufs.flatten) ∧
      (p'.hasError = false →
        seg'.message.sender.payload = bufs.flatten.drop (4 * dataOffset bufs.flatten))) ↔
    (Verifies h.pseudoChecksum bufs.flatten → 20 ≤ bufs.flatten.length →
      4 * dataOffset bufs.flatten ≤ bufs.flatten.length) := by
  have hle := h.pseudoChecksum_le
  have hlt : h.pseudoChecksum + 65280 * bufs.flatten.length < 2 ^ 32 := by omega
  obtain ⟨⟨seg', p'⟩, hr, hacc, hseg⟩ := parse_spec seg hne hlt
  constructor
  · rintro ⟨seg₁, p₁, hr₁, hacc₁, -⟩ hv h20
    cases hr.symm.trans hr₁
    by_contra hout
    have hok := hacc.2 ⟨hv, h20, by omega⟩
    exact hout (hacc₁.1 hok).inside
  · intro hin
    refine ⟨seg', p', hr, hacc.trans ⟨fun hok => ?_, fun hg => ?_⟩,
      fun hok => congrArg (·.message.sender.payload) (hseg hok)⟩
    · exact ⟨hok.1, hok.2.1, by omega, hin hok.1 hok.2.1⟩
    · exact ⟨hg.checksum, hg.header, by have := hg.above; omega⟩

/-- Four bytes of options and one of payload, in two buffers. -/
theorem parse_grammar_iff_options : ∃ h : IPv4Header, ∃ bufs : List Bytes, ∃ seg' p',
    bufs.length = 2 ∧ parse h.pseudoChecksum {} (.ofBuffers bufs) = some (seg', p') ∧
    p'.hasError = false ∧ seg'.message.sender.payload = [7] := by
  let h : IPv4Header := { len := 45 }
  let bufs : List Bytes := [[0, 0, 0, 0, 0, 0, 0, 0, 0, 0, 0, 0, 0x60],
    [0, 0, 0, 0x96, 0xdf, 0, 0, 1, 1, 1, 0, 7]]
  obtain ⟨seg', p', hr, hacc, hpay⟩ := (parse_grammar_iff h {} (show ∀ b ∈ bufs, b ≠ [] by decide)
    (by decide)).2 (fun _ _ => by decide)
  have hok : p'.hasError = false := hacc.2 ⟨by decide, by decide, by decide, by decide⟩
  exact ⟨h, bufs, seg', p', rfl, hr, hok, (hpay hok).trans (by decide)⟩

/-- A bare header of 20 bytes whose data offset points to byte 60. -/
theorem parse_overlong : ∃ h : IPv4Header, ∃ bufs : List Bytes, (∀ b ∈ bufs, b ≠ []) ∧
    bufs.flatten.length = 20 ∧ dataOffset bufs.flatten = 15 ∧
    (∃ r, parse h.pseudoChecksum {} (.ofBuffers bufs) = some r ∧ r.2.hasError = false) ∧
    ¬ ∃ seg' p', parse h.pseudoChecksum {} (.ofBuffers bufs) = some (seg', p') ∧
      (p'.hasError = false ↔ Grammatical h.pseudoChecksum bufs.flatten) ∧
      (p'.hasError = false →
        seg'.message.sender.payload = bufs.flatten.drop (4 * dataOffset bufs.flatten)) := by
  let h : IPv4Header := { len := 40 }
  let bufs : List Bytes := [[0, 0, 0, 0, 0, 0, 0, 0, 0, 0, 0, 0, 0xf0, 0, 0, 0, 0x0f, 0xe5, 0, 0]]
  have hne : ∀ b ∈ bufs, b ≠ [] := by decide
  obtain ⟨r, hr, hacc, -⟩ := parse_spec {} hne (show h.pseudoChecksum + _ < _ by decide)
  have hok : r.2.hasError = false := hacc.2 ⟨by decide, by decide, by decide⟩
  refine ⟨h, bufs, hne, rfl, by decide, ⟨r, hr, hok⟩, ?_⟩
  rintro ⟨seg', p', hr', hacc', -⟩
  cases hr.symm.trans hr'
  exact absurd (hacc'.1 hok).inside (by decide)

/-! ### A byte that has changed on the way -/

/-- If one byte of a segment with a computed checksum is another one when it comes in, `parse` reports
an error. -/
theorem corrupt_detected {seg : TCPSegment} {h : IPv4Header} {x : Byte} (seg₀ : TCPSegment)
    (hlen : (seg.serialize {}).output.flatten.length ≤ 65535)
    (hx : ((seg.computeChecksum h.pseudoChecksum).serialize {}).output.flatten[i]? = some x)
    (hne : x ≠ b) (hbufs : ∀ buf ∈ bufs, buf ≠ [])
    (hflat : bufs.flatten =
      ((seg.computeChecksum h.pseudoChecksum).serialize {}).output.flatten.set i b) :
    ∃ seg' p', parse h.pseudoChecksum seg₀ (.ofBuffers bufs) = some (seg', p') ∧
      p'.hasError = true := by
  have hbytes : ∀ seg : TCPSegment, (seg.serialize {}).output.flatten = seg.bytes := by
    intro seg
    rw [Serializer.flatten_output, content_serialize]
    rfl
  rw [hbytes] at hlen hx hflat
  have hsame : (seg.computeChecksum h.pseudoChecksum).bytes.length = seg.bytes.length := by
    rw [length_bytes, length_bytes]
    rfl
  have hle := h.pseudoChecksum_le
  have hlt : h.pseudoChecksum + 65280 * bufs.flatten.length < 2 ^ 32 := by
    rw [hflat, List.length_set, hsame]
    omega
  have hgood : Verifies h.pseudoChecksum (seg.computeChecksum h.pseudoChecksum).bytes := by
    refine (value_eq_zero_iff (by omega)).1 (value_computeChecksum ?_)
    rw [length_bytes] at hlen
    omega
  have hbad : ¬ Verifies h.pseudoChecksum bufs.flatten := by
    intro hv
    rw [hflat] at hv
    exact pairSum_set_mod_ne false hx hne h.pseudoChecksum
      ((foldCarry_eq_iff.1 hv).2.trans (foldCarry_eq_iff.1 hgood).2.symm)
  obtain ⟨⟨seg', p'⟩, hr, hacc, -⟩ := parse_spec seg₀ hbufs hlt
  refine ⟨seg', p', hr, ?_⟩
  by_contra herr
  exact hbad (hacc.1 (Bool.eq_false_iff.2 herr)).1

/-- The only byte of a payload, in buffers of a byte each. -/
theorem corrupt_detected_a : ∃ (seg : TCPSegment) (h : IPv4Header), ∃ seg' p',
    parse h.pseudoChecksum {} (.ofBuffers <|
      (((seg.computeChecksum h.pseudoChecksum).serialize {}).output.flatten.set 20 2).map
        fun b => [b]) = some (seg', p') ∧ p'.hasError = true := by
  let seg : TCPSegment := { message := { sender := { seqno := ⟨7⟩, payload := [1] } } }
  let h : IPv4Header := { len := 41 }
  have hlen : (seg.serialize {}).output.flatten.length ≤ 65535 := by decide
  have hx : ((seg.computeChecksum h.pseudoChecksum).serialize {}).output.flatten[20]? = some 1 := by
    decide
  have hne : (1 : Byte) ≠ 2 := by decide
  refine ⟨seg, h, corrupt_detected {} hlen hx hne (fun buf hbuf => ?_)
    (by rw [← List.flatMap_def, List.flatMap_singleton'])⟩
  obtain ⟨x, -, rfl⟩ := List.mem_map.1 hbuf
  exact List.cons_ne_nil _ _

end Minnow.TCPSegment
