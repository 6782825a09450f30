import Minnow.IPv4Header
import Minnow.ParserSplit

/-!
# Which bytes `IPv4Header::parse` accepts

The checksum is not summed over the bytes as they came in: the decoded fields are serialized again, and
the checksum computed from that is compared with the one given. The reserved bit of the flags has no
field, so it is lost on the way, and a checksum of `0xffff` is never computed (`parse_exact_iff`).
-/

namespace Minnow.IPv4Header
open Prog

/-- The version in the first byte. -/
def version (bytes : Bytes) : Nat := (bytes.getD 0 0).toNat / 16

/-- The header length in the first byte, in 32-bit words. -/
def ihl (bytes : Bytes) : Nat := (bytes.getD 0 0).toNat % 16

/-- The ones' complement sum of the bytes. -/
def Verifies (bytes : Bytes) : Prop := foldCarry (pairSum false bytes) = 0xffff

instance (bytes : Bytes) : Decidable (Verifies bytes) := decidable_of_iff _ foldCarry_eq_iff.symm

/-- The first of the three flags is set. -/
def Reserved (bytes : Bytes) : Prop := 128 ≤ (bytes.getD 6 0).toNat

instance (bytes : Bytes) : Decidable (Reserved bytes) := inferInstanceAs (Decidable (_ ≤ _))

def clearReserved (bytes : Bytes) : Bytes := bytes.set 6 (bytes.getD 6 0 &&& 0x7f)

/-- What the fields are decoded to, before the checks. -/
def ofBytes (bytes : Bytes) : IPv4Header where
  ver := UInt8.ofNat (field bytes 0 1) >>> 4
  hlen := UInt8.ofNat (field bytes 0 1) &&& 0x0f
  tos := UInt8.ofNat (field bytes 1 1)
  len := UInt16.ofNat (field bytes 2 2)
  id := UInt16.ofNat (field bytes 4 2)
  df := decide (UInt16.ofNat (field bytes 6 2) &&& 0x4000 ≠ 0)
  mf := decide (UInt16.ofNat (field bytes 6 2) &&& 0x2000 ≠ 0)
  offset := UInt16.ofNat (field bytes 6 2) &&& 0x1fff
  ttl := UInt8.ofNat (field bytes 8 1)
  proto := UInt8.ofNat (field bytes 9 1)
  cksum := UInt16.ofNat (field bytes 10 2)
  src := UInt32.ofNat (field bytes 12 4)
  dst := UInt32.ofNat (field bytes 16 4)

variable {h : IPv4Header}

/-! ### The checksum -/

theorem length_bytes (h : IPv4Header) : h.bytes.length = 20 := by
  simp only [bytes, List.length_append, length_bigEndian]

/-- The bytes before the checksum, and those after it. -/
theorem bytes_cut (h : IPv4Header) : ∃ before after : Bytes, before.length = 10 ∧ ∀ cksum : UInt16,
    bytes { h with cksum } = before ++ (bigEndian 2 cksum.toNat ++ after) := by
  refine ⟨bigEndian 1 h.firstByte.toNat ++ bigEndian 1 h.tos.toNat ++ bigEndian 2 h.len.toNat ++
    bigEndian 2 h.id.toNat ++ bigEndian 2 h.foVal.toNat ++ bigEndian 1 h.ttl.toNat ++
    bigEndian 1 h.proto.toNat, bigEndian 4 h.src.toNat ++ bigEndian 4 h.dst.toNat, ?_, ?_⟩
  · simp only [List.length_append, length_bigEndian]
  · intro cksum
    simp only [bytes, List.append_assoc]
    rfl

/-- The checksum adds to the sum as it is. -/
theorem pairSum_bytes (h : IPv4Header) : pairSum false h.bytes =
    pairSum false (bytes { h with cksum := 0 }) + h.cksum.toNat := by
  obtain ⟨before, after, hlen, heq⟩ := h.bytes_cut
  have hcut : ∀ cksum : UInt16, pairSum false (bytes { h with cksum }) =
      pairSum false before + (cksum.toNat + pairSum false after) := by
    intro cksum
    rw [heq]
    exact pairSum_cut (by rw [hlen]) cksum.toNat_lt
  rw [show h.bytes = bytes { h with cksum := h.cksum } from rfl, hcut, hcut]
  show _ = pairSum false before + (0 + pairSum false after) + _
  omega

theorem pairSum_bytes_pos (hv : h.ver = 4) : 0 < pairSum false h.bytes := by
  refine pairSum_pos false (b := h.firstByte) ?_ fun h0 => ?_
  · have hmem : h.firstByte ∈ bigEndian 1 h.firstByte.toNat := by
      rw [bigEndian_succ, Nat.zero_mul, Nat.shiftRight_zero, UInt8.ofNat_toNat]
      exact List.mem_cons_self
    simp only [bytes, List.mem_append, hmem, true_or]
  · rw [firstByte, hv] at h0
    exact absurd (UInt8.or_eq_zero_iff.1 h0).1 (by decide)

/-- The computed checksum is the one that is there if the bytes verify, unless that is `0xffff`. -/
theorem computeChecksum_iff (hv : h.ver = 4) : ∃ cksum, h.computeChecksum = some { h with cksum } ∧
    (cksum = h.cksum ↔ Verifies h.bytes ∧ h.cksum ≠ 0xffff) := by
  have hv0 : ({ h with cksum := 0 } : IPv4Header).ver = 4 := hv
  obtain ⟨s, hs, hc, -⟩ := serialize_spec hv0 Serializer.wf_new
  refine ⟨_, bind_of_eq_some hs, ?_⟩
  have hle := pairSum_le false (bytes { h with cksum := 0 })
  rw [length_bytes] at hle
  have hsum : (InternetChecksum.addAll {} s.output).sum = pairSum false (bytes { h with cksum := 0 }) := by
    rw [InternetChecksum.addAll_eq, Serializer.flatten_output, hc, InternetChecksum.sum_add]
    · exact Nat.zero_add _
    · show 0 + pairSum false (bytes { h with cksum := 0 }) < _
      omega
  have hg := h.cksum.toNat_lt
  rw [← UInt16.toNat_inj, InternetChecksum.toNat_value, hsum,
    eq_complement_iff (pairSum_bytes_pos hv0) (by omega), ← pairSum_bytes, Ne, Ne, ← UInt16.toNat_inj]
  rfl

/-! ### The decoded fields, and what they are serialized to -/

variable {p : Parser} {bytes : Bytes} {bufs : List Bytes}

theorem firstByte_ofBytes (hlen : 20 ≤ bytes.length) : (ofBytes bytes).firstByte = bytes.getD 0 0 := by
  have hnibbles : ∀ x : BitVec 8, (x >>> 4) <<< 4 ||| (x &&& 0x0f#8) &&& 0xf#8 = x := by decide
  have hfirst : UInt8.ofNat (field bytes 0 1) = bytes.getD 0 0 := octet_eq (by omega)
  rw [firstByte, ofBytes, hfirst]
  exact UInt8.toBitVec_inj.1 (hnibbles _)

theorem ver_ofBytes (hlen : 20 ≤ bytes.length) : (ofBytes bytes).ver = 4 ↔ version bytes = 4 := by
  have hfirst : UInt8.ofNat (field bytes 0 1) = bytes.getD 0 0 := octet_eq (by omega)
  rw [ofBytes, hfirst, ← UInt8.toNat_inj, UInt8.toNat_shiftRight, version,
    ← show (bytes.getD 0 0).toNat >>> 4 = _ from Nat.shiftRight_eq_div_pow _ 4]
  rfl

theorem hlen_ofBytes (hlen : 20 ≤ bytes.length) : (ofBytes bytes).hlen = 5 ↔ ihl bytes = 5 := by
  have hfirst : UInt8.ofNat (field bytes 0 1) = bytes.getD 0 0 := octet_eq (by omega)
  rw [ofBytes, hfirst, ← UInt8.toNat_inj, UInt8.toNat_and, ihl,
    ← show (bytes.getD 0 0).toNat &&& 0xf = _ from Nat.and_two_pow_sub_one_eq_mod _ 4]
  rfl

/-- The two flags and the offset are written back, the reserved bit is not. -/
theorem foVal_ofBytes (bytes : Bytes) :
    (ofBytes bytes).foVal = UInt16.ofNat (field bytes 6 2) &&& 0x7fff := by
  have and_or : ∀ x y z : UInt16, x &&& y ||| x &&& z = x &&& (y ||| z) := fun x y z =>
    UInt16.toBitVec_inj.1 BitVec.and_or_distrib_left.symm
  have hbit : ∀ (x : UInt16) (i : Nat) (m : UInt16), m.toBitVec = BitVec.twoPow 16 i →
      (if decide (x &&& m ≠ 0) then m else 0) = x &&& m := by
    intro x i m hm
    have hand : x &&& m = if x.toBitVec.getLsbD i then m else 0 := by
      refine UInt16.toBitVec_inj.1 ?_
      rw [UInt16.toBitVec_and, hm, BitVec.and_twoPow]
      split
      · exact hm.symm
      · rfl
    by_cases h0 : x &&& m = 0
    · simp [h0]
    · rw [if_pos (by simpa using h0), hand, if_pos]
      by_contra hnot
      exact h0 (hand.trans (if_neg hnot))
  rw [foVal, ofBytes]
  dsimp only
  rw [hbit _ 14 0x4000 rfl, hbit _ 13 0x2000 rfl, UInt16.and_assoc, and_or, and_or]
  rfl

theorem toNat_clearBit (b : Byte) : (b &&& 0x7f).toNat = b.toNat % 128 := by
  rw [UInt8.toNat_and]
  exact Nat.and_two_pow_sub_one_eq_mod _ 7

theorem bigEndian_foVal (hlen : 20 ≤ bytes.length) : bigEndian 2 (ofBytes bytes).foVal.toNat =
    (bytes.getD 6 0 &&& 0x7f) :: (bytes.drop 7).take 1 := by
  have h6 : 6 < bytes.length := by omega
  have h7 : 7 < bytes.length := by omega
  have hslice : (bytes.drop 6).take 2 = [bytes[6], bytes[7]] := by
    rw [List.drop_eq_getElem_cons h6, List.drop_eq_getElem_cons h7]
    rfl
  have hnext : (bytes.drop 7).take 1 = [bytes[7]] := by
    rw [List.drop_eq_getElem_cons h7]
    rfl
  have hget : bytes.getD 6 0 = bytes[6] := by
    rw [List.getD_eq_getElem?_getD, List.getElem?_eq_getElem h6]
    rfl
  have hfo : (ofBytes bytes).foVal.toNat = ofBigEndian 0 [bytes[6] &&& 0x7f, bytes[7]] := by
    have h0 := bytes[6].toNat_lt
    have h1 := bytes[7].toNat_lt
    have hfield : field bytes 6 2 = bytes[6].toNat * 256 + bytes[7].toNat := by
      rw [field, hslice, ofBigEndian_cons, ofBigEndian_cons, Nat.zero_mul, Nat.zero_add]
      rfl
    rw [foVal_ofBytes, UInt16.toNat_and, UInt16.toNat_ofNat', hfield, ofBigEndian_cons,
      ofBigEndian_cons, toNat_clearBit, Nat.zero_mul, Nat.zero_add]
    refine (Nat.and_two_pow_sub_one_eq_mod _ 15).trans ?_
    show _ = bytes[6].toNat % 128 * 256 + bytes[7].toNat
    omega
  rw [hfo, hnext, hget]
  exact bigEndian_ofBigEndian 0 [bytes[6] &&& 0x7f, bytes[7]]

/-- A word that has been read is written back. -/
theorem bigEndian_field {i len m : Nat} (hm : 256 ^ len = m) (h : i + len ≤ bytes.length) :
    bigEndian len (field bytes i len % m) = (bytes.drop i).take len := by
  subst hm
  rw [field, Nat.mod_eq_of_lt (ofBigEndian_take_lt (bytes.drop i) len)]
  exact bigEndian_slice h

theorem drop_take_append (bytes : Bytes) (i a b : Nat) :
    (bytes.drop i).take a ++ (bytes.drop (i + a)).take b = (bytes.drop i).take (a + b) := by
  rw [List.take_add, List.drop_drop]

theorem clearReserved_take (hlen : 20 ≤ bytes.length) : clearReserved (bytes.take 20) =
    (bytes.drop 0).take 6 ++ ((bytes.getD 6 0 &&& 0x7f) :: (bytes.drop 7).take 13) := by
  have hget : (bytes.take 20).getD 6 0 = bytes.getD 6 0 := by
    rw [List.getD_eq_getElem?_getD, List.getElem?_take_of_lt (by omega), List.getD_eq_getElem?_getD]
  rw [clearReserved, hget, List.set_eq_take_append_cons_drop,
    if_pos (by rw [List.length_take]; omega), List.take_take, List.drop_take]
  rfl

/-- The fields up to the flags, and those from the second byte of the offset on. -/
theorem slices_before (bytes : Bytes) : (bytes.drop 0).take 6 = (bytes.drop 0).take 1 ++
    ((bytes.drop 1).take 1 ++ ((bytes.drop 2).take 2 ++ (bytes.drop 4).take 2)) := by
  rw [drop_take_append bytes 2 2 2, drop_take_append bytes 1 1 4, drop_take_append bytes 0 1 5]

theorem slices_after (bytes : Bytes) : (bytes.drop 7).take 13 = (bytes.drop 7).take 1 ++
    ((bytes.drop 8).take 1 ++ ((bytes.drop 9).take 1 ++ ((bytes.drop 10).take 2 ++
    ((bytes.drop 12).take 4 ++ (bytes.drop 16).take 4)))) := by
  rw [drop_take_append bytes 12 4 4, drop_take_append bytes 10 2 8, drop_take_append bytes 9 1 10,
    drop_take_append bytes 8 1 11, drop_take_append bytes 7 1 12]

/-- But for the reserved bit the first 20 bytes come back. -/
theorem bytes_ofBytes (hlen : 20 ≤ bytes.length) :
    (ofBytes bytes).bytes = clearReserved (bytes.take 20) := by
  have hfirst : bigEndian 1 (ofBytes bytes).firstByte.toNat = (bytes.drop 0).take 1 := by
    rw [firstByte_ofBytes hlen, ← octet_eq (show 0 < bytes.length by omega), UInt8.toNat_ofNat']
    exact bigEndian_field rfl (show 0 + 1 ≤ bytes.length by omega)
  have h8 : ∀ i, i + 1 ≤ 20 →
      bigEndian 1 (UInt8.ofNat (field bytes i 1)).toNat = (bytes.drop i).take 1 := by
    intro i hi
    rw [UInt8.toNat_ofNat']
    exact bigEndian_field rfl (by omega)
  have h16 : ∀ i, i + 2 ≤ 20 →
      bigEndian 2 (UInt16.ofNat (field bytes i 2)).toNat = (bytes.drop i).take 2 := by
    intro i hi
    rw [UInt16.toNat_ofNat']
    exact bigEndian_field rfl (by omega)
  have h32 : ∀ i, i + 4 ≤ 20 →
      bigEndian 4 (UInt32.ofNat (field bytes i 4)).toNat = (bytes.drop i).take 4 := by
    intro i hi
    rw [UInt32.toNat_ofNat']
    exact bigEndian_field rfl (by omega)
  rw [clearReserved_take hlen, slices_before, slices_after, IPv4Header.bytes, hfirst,
    bigEndian_foVal hlen, ofBytes]
  dsimp only
  rw [h8 1 (by omega), h16 2 (by omega), h16 4 (by omega), h8 8 (by omega), h8 9 (by omega),
    h16 10 (by omega), h32 12 (by omega), h32 16 (by omega)]
  simp only [List.append_assoc, List.cons_append]

/-! ### `parse` -/

/-- What `parse` does once it has read the fields. -/
def check (h : IPv4Header) (p : Parser) : Option (IPv4Header × Parser) :=
  let p := if h.ver ≠ 4 then p.setError else p
  let p := if h.hlen < 5 then p.setError else p
  if p.hasError then some (h, p)
  else
    let p := p.removePrefix (h.hlen.toNat * 4 - LENGTH)
    h.computeChecksum.bind fun h' => some (h', if h'.cksum ≠ h.cksum then p.setError else p)

theorem parse_eq_check (h₀ : IPv4Header) (hp : p.Reads bytes) (hlen : 20 ≤ bytes.length) :
    ∃ p', parse h₀ p = (ofBytes bytes).check p' ∧ p'.Reads (bytes.drop 20) := by
  have hp : p.Reads (bytes.drop 0) := hp
  obtain ⟨p₁, h₁, hp⟩ := hp.integer_at (show 0 + 1 ≤ _ by omega) 0
  obtain ⟨p₂, h₂, hp⟩ := hp.integer_at (show 1 + 1 ≤ _ by omega) h₀.tos.toNat
  obtain ⟨p₃, h₃, hp⟩ := hp.integer_at (show 2 + 2 ≤ _ by omega) h₀.len.toNat
  obtain ⟨p₄, h₄, hp⟩ := hp.integer_at (show 4 + 2 ≤ _ by omega) h₀.id.toNat
  obtain ⟨p₅, h₅, hp⟩ := hp.integer_at (show 6 + 2 ≤ _ by omega) 0
  obtain ⟨p₆, h₆, hp⟩ := hp.integer_at (show 8 + 1 ≤ _ by omega) h₀.ttl.toNat
  obtain ⟨p₇, h₇, hp⟩ := hp.integer_at (show 9 + 1 ≤ _ by omega) h₀.proto.toNat
  obtain ⟨p₈, h₈, hp⟩ := hp.integer_at (show 10 + 2 ≤ _ by omega) h₀.cksum.toNat
  obtain ⟨p₉, h₉, hp⟩ := hp.integer_at (show 12 + 4 ≤ _ by omega) h₀.src.toNat
  obtain ⟨p', h₁₀, hp⟩ := hp.integer_at (show 16 + 4 ≤ _ by omega) h₀.dst.toNat
  refine ⟨p', ?_, hp⟩
  unfold parse
  exact (bind_of_eq_some h₁).trans <| (bind_of_eq_some h₂).trans <| (bind_of_eq_some h₃).trans <|
    (bind_of_eq_some h₄).trans <| (bind_of_eq_some h₅).trans <| (bind_of_eq_some h₆).trans <|
    (bind_of_eq_some h₇).trans <| (bind_of_eq_some h₈).trans <| (bind_of_eq_some h₉).trans <|
    (bind_of_eq_some h₁₀).trans rfl

/-- A header without options passes if its version is 4, its bytes verify, and the checksum is not
`0xffff`. -/
theorem check_spec (hh : h.hlen = 5) (hp : p.error = false) : ∃ h' p', h.check p = some (h', p') ∧
    (p'.error = false ↔ h.ver = 4 ∧ Verifies h.bytes ∧ h.cksum ≠ 0xffff) ∧
    (p'.error = false → h' = h) := by
  have herr : ¬ true = false := by decide
  unfold check
  dsimp only
  rw [if_neg (show ¬ h.hlen < 5 by rw [hh]; decide)]
  by_cases hv : h.ver = 4
  swap
  · rw [if_pos hv]
    exact ⟨h, p.setError, rfl, iff_of_false herr fun h' => hv h'.1, fun h' => absurd h' herr⟩
  obtain ⟨cksum, hck, hiff⟩ := computeChecksum_iff hv
  rw [if_neg (not_not_intro hv), Parser.hasError, hp, if_neg Bool.false_ne_true, hck, Option.bind_some]
  dsimp only
  by_cases heq : cksum = h.cksum
  · rw [if_neg (not_not_intro heq)]
    exact ⟨_, _, rfl, iff_of_true hp ⟨hv, hiff.1 heq⟩, fun _ => by rw [heq]⟩
  · rw [if_pos heq]
    exact ⟨_, _, rfl, iff_of_false herr fun h' => heq (hiff.2 h'.2), fun h' => absurd h' herr⟩

/-- `parse` accepts version 4 with a checksum that the bytes without the reserved bit verify and that is
not `0xffff`. -/
theorem parse_spec (h₀ : IPv4Header) (hp : p.Reads bytes) (hlen : 20 ≤ bytes.length)
    (hihl : ihl bytes = 5) :
    ∃ h p', parse h₀ p = some (h, p') ∧
      (p'.error = false ↔ version bytes = 4 ∧ Verifies (clearReserved (bytes.take 20)) ∧
        field bytes 10 2 ≠ 0xffff) ∧
      (p'.error = false → h = ofBytes bytes) := by
  obtain ⟨p₁, hparse, hp₁⟩ := parse_eq_check h₀ hp hlen
  obtain ⟨h, p', hcheck, hiff, hsame⟩ := check_spec ((hlen_ofBytes hlen).2 hihl) hp₁.error
  have hlt : field bytes 10 2 < 2 ^ 16 := ofBigEndian_take_lt _ 2
  have hfield : (ofBytes bytes).cksum = 0xffff ↔ field bytes 10 2 = 0xffff := by
    rw [← UInt16.toNat_inj, ofBytes, UInt16.toNat_ofNat', Nat.mod_eq_of_lt hlt]
    rfl
  rw [ver_ofBytes hlen, bytes_ofBytes hlen, Ne, hfield] at hiff
  exact ⟨h, p', hparse.trans hcheck, hiff, hsame⟩

/-! ### Any header, and any bytes at all -/

theorem toNat_hlen_ofBytes (hlen : 20 ≤ bytes.length) : (ofBytes bytes).hlen.toNat = ihl bytes := by
  have hfirst : UInt8.ofNat (field bytes 0 1) = bytes.getD 0 0 := octet_eq (by omega)
  rw [ofBytes, hfirst, UInt8.toNat_and, ihl]
  exact Nat.and_two_pow_sub_one_eq_mod _ 4

/-- With options or without, a header that passes is the one that was read, and has been skipped. -/
theorem check_isSome {rest : Bytes} (hp : p.Reads rest) : ∃ h' p', h.check p = some (h', p') ∧
    (p'.error = false → h' = h ∧ h.ver = 4 ∧ 5 ≤ h.hlen.toNat ∧ Verifies h.bytes ∧
      p'.Reads (rest.drop (h.hlen.toNat * 4 - 20))) := by
  have herr : ¬ true = false := by decide
  unfold check
  dsimp only
  by_cases hv : h.ver = 4
  swap
  · rw [if_pos hv]
    split <;> exact ⟨h, _, rfl, fun h' => absurd h' herr⟩
  by_cases hh : h.hlen < 5
  · rw [if_pos hh]
    exact ⟨h, _, rfl, fun h' => absurd h' herr⟩
  obtain ⟨cksum, hck, hiff⟩ := computeChecksum_iff hv
  rw [if_neg hh, if_neg (not_not_intro hv), Parser.hasError, hp.error, if_neg Bool.false_ne_true, hck,
    Option.bind_some]
  dsimp only
  by_cases heq : cksum = h.cksum
  · rw [if_neg (not_not_intro heq), heq]
    have h5 : 5 ≤ h.hlen.toNat := Nat.not_lt.1 fun hlt => hh (UInt8.lt_iff_toNat_lt.2 hlt)
    exact ⟨_, _, rfl, fun _ => ⟨rfl, hv, h5, (hiff.1 heq).1, hp.removePrefix _⟩⟩
  · rw [if_pos heq]
    exact ⟨_, _, rfl, fun h' => absurd h' herr⟩

theorem parse_isSome (h₀ : IPv4Header) (hp : p.Reads bytes) (hlen : 20 ≤ bytes.length) :
    ∃ h p', parse h₀ p = some (h, p') ∧
      (p'.error = false → h = ofBytes bytes ∧ version bytes = 4 ∧ 5 ≤ ihl bytes ∧
        Verifies (clearReserved (bytes.take 20)) ∧ p'.Reads (bytes.drop (4 * ihl bytes))) := by
  obtain ⟨p₁, hparse, hp₁⟩ := parse_eq_check h₀ hp hlen
  obtain ⟨h, p', hcheck, hok⟩ := check_isSome (h := ofBytes bytes) hp₁
  refine ⟨h, p', hparse.trans hcheck, fun herr => ?_⟩
  obtain ⟨rfl, hv, h5, hver, hreads⟩ := hok herr
  rw [toNat_hlen_ofBytes hlen] at h5 hreads
  rw [bytes_ofBytes hlen] at hver
  rw [List.drop_drop, show 20 + (ihl bytes * 4 - 20) = 4 * ihl bytes by omega] at hreads
  exact ⟨rfl, (ver_ofBytes hlen).1 hv, h5, hver, hreads⟩

theorem check_nearEnd (h : IPv4Header) (hp : p.NearEnd 1) :
    ∃ r, h.check p = some r ∧ r.2.NearEnd 1 := by
  unfold check
  dsimp only
  by_cases hv : h.ver = 4
  swap
  · rw [if_pos hv]
    split
    · exact ⟨_, rfl, hp.setError.setError⟩
    · exact ⟨_, rfl, hp.setError⟩
  by_cases hh : h.hlen < 5
  · rw [if_pos hh, if_neg (not_not_intro hv)]
    exact ⟨_, rfl, hp.setError⟩
  rw [if_neg hh, if_neg (not_not_intro hv)]
  split
  · exact ⟨_, rfl, hp⟩
  obtain ⟨cksum, hck, -⟩ := computeChecksum_iff hv
  rw [hck, Option.bind_some]
  refine ⟨_, rfl, ?_⟩
  dsimp only
  split
  · exact (hp.removePrefix _).setError
  · exact hp.removePrefix _

/-- On no more than a header there is no undefined behaviour either, and nothing is left. -/
theorem parse_nearEnd (h₀ : IPv4Header) (hp : p.NearEnd 21) :
    ∃ r, parse h₀ p = some r ∧ r.2.NearEnd 1 := by
  obtain ⟨_, p₁, h₁, hp⟩ := hp.integer 1 0
  obtain ⟨_, p₂, h₂, hp⟩ := hp.integer 1 h₀.tos.toNat
  obtain ⟨_, p₃, h₃, hp⟩ := hp.integer 2 h₀.len.toNat
  obtain ⟨_, p₄, h₄, hp⟩ := hp.integer 2 h₀.id.toNat
  obtain ⟨_, p₅, h₅, hp⟩ := hp.integer 2 0
  obtain ⟨_, p₆, h₆, hp⟩ := hp.integer 1 h₀.ttl.toNat
  obtain ⟨_, p₇, h₇, hp⟩ := hp.integer 1 h₀.proto.toNat
  obtain ⟨_, p₈, h₈, hp⟩ := hp.integer 2 h₀.cksum.toNat
  obtain ⟨_, p₉, h₉, hp⟩ := hp.integer 4 h₀.src.toNat
  obtain ⟨_, p', h₁₀, hp⟩ := hp.integer 4 h₀.dst.toNat
  unfold parse
  exact exists_bind h₁ <| exists_bind h₂ <| exists_bind h₃ <| exists_bind h₄ <| exists_bind h₅ <|
    exists_bind h₆ <| exists_bind h₇ <| exists_bind h₈ <| exists_bind h₉ <| exists_bind h₁₀ <|
    check_nearEnd _ hp

/-! ### The reserved bit -/

/-- It makes a difference to the sum. -/
theorem not_verifies_clearReserved (h : Reserved bytes) (hv : Verifies bytes) :
    ¬ Verifies (clearReserved bytes) := by
  unfold Reserved at h
  have h6 : bytes[6]? = some (bytes.getD 6 0) := by
    rw [List.getD_eq_getElem?_getD] at h ⊢
    cases hb : bytes[6]? with
    | none => rw [hb] at h; exact absurd h (by decide)
    | some b => rfl
  have hne : bytes.getD 6 0 ≠ bytes.getD 6 0 &&& 0x7f := by
    intro heq
    rw [heq, toNat_clearBit] at h
    omega
  intro hv'
  have hmod := pairSum_set_mod_ne false h6 hne 0
  rw [Nat.zero_add, Nat.zero_add] at hmod
  exact hmod ((foldCarry_eq_iff.1 hv').2.trans (foldCarry_eq_iff.1 hv).2.symm)

theorem clearReserved_of_not (h : ¬ Reserved bytes) : clearReserved bytes = bytes := by
  have hbyte : bytes.getD 6 0 &&& 0x7f = bytes.getD 6 0 := by
    rw [← UInt8.toNat_inj, toNat_clearBit]
    exact Nat.mod_eq_of_lt (Nat.lt_of_not_le h)
  rw [clearReserved, hbyte]
  rcases Nat.lt_or_ge 6 bytes.length with hlt | hge
  · rw [List.getD_eq_getElem?_getD, List.getElem?_eq_getElem hlt]
    exact List.set_getElem_self hlt
  · exact List.set_eq_of_length_le hge

/-! ### What is accepted, and what ought to be -/

/-- `parse` accepts these buffers exactly if the version is 4 and their first 20 bytes verify, and an
accepted header is serialized to them. -/
def Exact (h₀ : IPv4Header) (bufs : List Bytes) : Prop :=
  ∃ h p, parse h₀ (.ofBuffers bufs) = some (h, p) ∧
    (p.hasError = false ↔ version bufs.flatten = 4 ∧ Verifies (bufs.flatten.take 20)) ∧
    (p.hasError = false →
      ∃ s, h.serialize {} = some s ∧ s.output.flatten = bufs.flatten.take 20)

/-- It does so unless the reserved bit is set or the checksum is `0xffff` where either matters. -/
theorem parse_exact_iff (h₀ : IPv4Header) (hne : ∀ b ∈ bufs, b ≠ []) (hlen : 20 ≤ bufs.flatten.length)
    (hihl : ihl bufs.flatten = 5) : Exact h₀ bufs ↔
      (version bufs.flatten = 4 →
        (Verifies (bufs.flatten.take 20) →
          ¬ Reserved (bufs.flatten.take 20) ∧ field bufs.flatten 10 2 ≠ 0xffff) ∧
        (Reserved (bufs.flatten.take 20) → Verifies (clearReserved (bufs.flatten.take 20)) →
          field bufs.flatten 10 2 = 0xffff)) := by
  obtain ⟨h, p, hparse, hiff, hsame⟩ := parse_spec h₀ (Parser.reads_ofBuffers hne) hlen hihl
  constructor
  · rintro ⟨h', p', hparse', hiff', -⟩ hv
    cases hparse.symm.trans hparse'
    have hcases := hiff.symm.trans hiff'
    refine ⟨fun hver => ?_, fun hres hclear => ?_⟩
    · obtain ⟨-, hclear, hfield⟩ := hcases.2 ⟨hv, hver⟩
      exact ⟨fun hres => not_verifies_clearReserved hres hver hclear, hfield⟩
    · by_contra hfield
      exact not_verifies_clearReserved hres (hcases.1 ⟨hv, hclear, hfield⟩).2 hclear
  · intro hcond
    -- what is accepted has the reserved bit clear
    have hplain : p.hasError = false → ¬ Reserved (bufs.flatten.take 20) := by
      intro herr hres
      obtain ⟨hv, hclear, hfield⟩ := hiff.1 herr
      exact hfield ((hcond hv).2 hres hclear)
    refine ⟨h, p, hparse, ⟨fun herr => ?_, fun ⟨hv, hver⟩ => hiff.2 ?_⟩, fun herr => ?_⟩
    · obtain ⟨hv, hclear, -⟩ := hiff.1 herr
      rw [clearReserved_of_not (hplain herr)] at hclear
      exact ⟨hv, hclear⟩
    · obtain ⟨hres, hfield⟩ := (hcond hv).1 hver
      exact ⟨hv, by rwa [clearReserved_of_not hres], hfield⟩
    · obtain ⟨s, hs, hc, -⟩ := serialize_spec ((ver_ofBytes hlen).2 (hiff.1 herr).1) Serializer.wf_new
      rw [hsame herr]
      refine ⟨s, hs, ?_⟩
      rw [Serializer.flatten_output, hc, bytes_ofBytes hlen, clearReserved_of_not (hplain herr)]
      rfl

/-- A header with the flag `df`, in buffers of 7 and 14 bytes, the last one of the payload. -/
theorem parse_exact_iff_df : ∃ bufs : List Bytes, bufs.length = 2 ∧ Exact {} bufs := by
  let bufs : List Bytes :=
    [[0x45, 0, 0, 21, 0, 0, 0x40], [0, 64, 6, 0x3a, 0xe4, 0, 0, 0, 0, 0, 0, 0, 0, 7]]
  exact ⟨bufs, rfl, (parse_exact_iff {} (show ∀ b ∈ bufs, b ≠ [] by decide) (by decide) (by decide)).2
    fun _ => ⟨fun _ => by decide, fun h => absurd h (by decide)⟩⟩

/-- A header in one buffer, with nothing behind it. -/
theorem parse_header (hlen : bytes.length = 20) (hihl : ihl bytes = 5) :
    ∃ r, parse {} (.ofBuffers [bytes]) = some r ∧
      (r.2.hasError = false ↔ version bytes = 4 ∧ Verifies (clearReserved bytes) ∧
        field bytes 10 2 ≠ 0xffff) ∧
      (Exact {} [bytes] → (r.2.hasError = false ↔ version bytes = 4 ∧ Verifies bytes)) := by
  have hflat : [bytes].flatten = bytes := List.append_nil bytes
  have hne : ∀ b ∈ [bytes], b ≠ [] := by
    intro b hb
    rw [List.mem_singleton.1 hb, ← List.length_pos_iff, hlen]
    decide
  have hp := Parser.reads_ofBuffers hne
  rw [hflat] at hp
  obtain ⟨h, p, hparse, hiff, -⟩ := parse_spec {} hp hlen.ge hihl
  have htake : bytes.take 20 = bytes := List.take_of_length_le hlen.le
  rw [htake] at hiff
  refine ⟨(h, p), hparse, hiff, ?_⟩
  rintro ⟨h', p', hparse', hiff', -⟩
  cases hparse.symm.trans hparse'
  rwa [hflat, htake] at hiff'

/-- The reserved bit with a checksum that is right without it: accepted, although the bytes do not
verify. With a checksum that is right with it: rejected, although they do. And so for `0xffff`. -/
theorem parse_inexact : ∃ without within ones : Bytes,
    (∀ bytes ∈ [without, within, ones], bytes.length = 20 ∧ ihl bytes = 5 ∧ ¬ Exact {} [bytes]) ∧
    ((∃ r, parse {} (.ofBuffers [without]) = some r ∧ r.2.hasError = false) ∧ ¬ Verifies without) ∧
    ∀ bytes ∈ [within, ones], version bytes = 4 ∧ Verifies bytes ∧
      ∃ r, parse {} (.ofBuffers [bytes]) = some r ∧ r.2.hasError = true := by
  let without : Bytes :=
    [0x45, 0, 0, 20, 0, 0, 0xc0, 0, 64, 6, 0x3a, 0xe5, 0, 0, 0, 0, 0, 0, 0, 0]
  let within : Bytes :=
    [0x45, 0, 0, 20, 0, 0, 0xc0, 0, 64, 6, 0xba, 0xe4, 0, 0, 0, 0, 0, 0, 0, 0]
  let ones : Bytes :=
    [0x45, 0, 0, 20, 0x3a, 0xe5, 0x40, 0, 64, 6, 0xff, 0xff, 0, 0, 0, 0, 0, 0, 0, 0]
  have hshape : ∀ bytes ∈ [without, within, ones], bytes.length = 20 ∧ ihl bytes = 5 := by decide
  have hgood : ∀ bytes ∈ [within, ones], version bytes = 4 ∧ Verifies bytes ∧
      ¬ (Verifies (clearReserved bytes) ∧ field bytes 10 2 ≠ 0xffff) := by decide
  obtain ⟨r, hr, hacc, hexact⟩ := parse_header (hshape without (by decide)).1
    (hshape without (by decide)).2
  have hok : r.2.hasError = false := hacc.2 (by decide)
  have hbad : ¬ Verifies without := by decide
  have hrej : ∀ bytes ∈ [within, ones], ¬ Exact {} [bytes] ∧
      ∃ r, parse {} (.ofBuffers [bytes]) = some r ∧ r.2.hasError = true := by
    intro bytes hb
    obtain ⟨hlen, hihl⟩ := hshape bytes (List.mem_cons_of_mem _ hb)
    obtain ⟨hv, hver, hnot⟩ := hgood bytes hb
    obtain ⟨r, hr, hacc, hexact⟩ := parse_header hlen hihl
    have herr : r.2.hasError ≠ false := fun h => hnot (hacc.1 h).2
    exact ⟨fun h => herr ((hexact h).2 ⟨hv, hver⟩), r, hr, Bool.eq_true_of_not_eq_false herr⟩
  refine ⟨without, within, ones, fun bytes hb => ?_, ⟨⟨r, hr, hok⟩, hbad⟩, fun bytes hb => ?_⟩
  · refine ⟨(hshape bytes hb).1, (hshape bytes hb).2, ?_⟩
    rcases List.mem_cons.1 hb with rfl | hb
    · exact fun h => hbad ((hexact h).1 hok).2
    · exact (hrej bytes hb).1
  · exact ⟨(hgood bytes hb).1, (hgood bytes hb).2.1, (hrej bytes hb).2⟩

end Minnow.IPv4Header
