import Minnow.InternetChecksum
import Minnow.Parser

/-!
# The IPv4 header and datagram (`ipv4_header.cc`, `ipv4_datagram.hh`)

A header that has no options and whose checksum has been computed comes out of the parser as it went
into the serializer (`IPv4Header.parse_of_reads`).
-/

namespace Minnow
open Prog

structure IPv4Header where
  ver : UInt8 := 4
  hlen : UInt8 := 5
  tos : UInt8 := 0
  len : UInt16 := 0
  id : UInt16 := 0
  df : Bool := true
  mf : Bool := false
  offset : UInt16 := 0
  ttl : UInt8 := 128
  proto : UInt8 := 6
  cksum : UInt16 := 0
  src : UInt32 := 0
  dst : UInt32 := 0
deriving Repr, DecidableEq

namespace IPv4Header

def LENGTH : Nat := 20

def PROTO_TCP : UInt8 := 6

def firstByte (h : IPv4Header) : UInt8 := h.ver <<< 4 ||| h.hlen &&& 0xf

def foVal (h : IPv4Header) : UInt16 :=
  (if h.df then 0x4000 else 0) ||| (if h.mf then 0x2000 else 0) ||| h.offset &&& 0x1fff

/-- `none`: an exception, for a version other than 4. -/
def serialize (h : IPv4Header) (serializer : Serializer) : Option Serializer :=
  if h.ver ≠ 4 then none
  else
    some <| serializer
      |>.integer 1 h.firstByte.toNat
      |>.integer 1 h.tos.toNat
      |>.integer 2 h.len.toNat
      |>.integer 2 h.id.toNat
      |>.integer 2 h.foVal.toNat
      |>.integer 1 h.ttl.toNat
      |>.integer 1 h.proto.toNat
      |>.integer 2 h.cksum.toNat
      |>.integer 4 h.src.toNat
      |>.integer 4 h.dst.toNat

def payloadLength (h : IPv4Header) : UInt16 := h.len - 4 * h.hlen.toUInt16

/-- Six summands of at most 16 bits: 32 bits hold the sum. -/
def pseudoChecksum (h : IPv4Header) : Nat :=
  h.src.toNat / 2 ^ 16 + h.src.toNat % 2 ^ 16 + (h.dst.toNat / 2 ^ 16 + h.dst.toNat % 2 ^ 16) +
    h.proto.toNat + h.payloadLength.toNat

def computeChecksum (h : IPv4Header) : Option IPv4Header := do
  let h := { h with cksum := 0 }
  let s ← h.serialize {}
  some { h with cksum := (InternetChecksum.addAll {} s.output).value }

def parse (h : IPv4Header) (p : Parser) : Option (IPv4Header × Parser) := do
  let (firstByte, p) ← p.integer 1 0
  let h := { h with ver := UInt8.ofNat firstByte >>> 4, hlen := UInt8.ofNat firstByte &&& 0x0f }
  let (tos, p) ← p.integer 1 h.tos.toNat
  let (len, p) ← p.integer 2 h.len.toNat
  let (id, p) ← p.integer 2 h.id.toNat
  let (foVal, p) ← p.integer 2 0
  let foVal := UInt16.ofNat foVal
  let h := { h with
    tos := UInt8.ofNat tos
    len := UInt16.ofNat len
    id := UInt16.ofNat id
    df := decide (foVal &&& 0x4000 ≠ 0)
    mf := decide (foVal &&& 0x2000 ≠ 0)
    offset := foVal &&& 0x1fff }
  let (ttl, p) ← p.integer 1 h.ttl.toNat
  let (proto, p) ← p.integer 1 h.proto.toNat
  let (cksum, p) ← p.integer 2 h.cksum.toNat
  let (src, p) ← p.integer 4 h.src.toNat
  let (dst, p) ← p.integer 4 h.dst.toNat
  let h := { h with
    ttl := UInt8.ofNat ttl
    proto := UInt8.ofNat proto
    cksum := UInt16.ofNat cksum
    src := UInt32.ofNat src
    dst := UInt32.ofNat dst }
  let p := if h.ver ≠ 4 then p.setError else p
  let p := if h.hlen < 5 then p.setError else p
  if p.hasError then
    some (h, p)
  else
    let p := p.removePrefix (h.hlen.toNat * 4 - LENGTH)
    let givenCksum := h.cksum
    let h ← h.computeChecksum
    some (h, if h.cksum ≠ givenCksum then p.setError else p)

/-- The bytes that a header of version 4 is serialized to. -/
def bytes (h : IPv4Header) : Bytes :=
  bigEndian 1 h.firstByte.toNat ++ bigEndian 1 h.tos.toNat ++ bigEndian 2 h.len.toNat ++
    bigEndian 2 h.id.toNat ++ bigEndian 2 h.foVal.toNat ++ bigEndian 1 h.ttl.toNat ++
    bigEndian 1 h.proto.toNat ++ bigEndian 2 h.cksum.toNat ++ bigEndian 4 h.src.toNat ++
    bigEndian 4 h.dst.toNat

variable {h : IPv4Header} {s : Serializer} {p : Parser} {rest : Bytes}

theorem serialize_spec (hv : h.ver = 4) (hs : s.Wf) :
    ∃ s', h.serialize s = some s' ∧ s'.content = s.content ++ h.bytes ∧ s'.Wf := by
  refine ⟨_, if_neg (not_not_intro hv), ?_, hs⟩
  simp only [Serializer.content_integer, bytes, List.append_assoc]

/-- The checksum field plays no part in the checksum. -/
theorem computeChecksum_spec (hv : h.ver = 4) : ∃ cksum, ∀ given : UInt16,
    computeChecksum { h with cksum := given } = some { h with cksum } := by
  obtain ⟨s, hs, -⟩ := serialize_spec (h := { h with cksum := 0 }) hv Serializer.wf_new
  refine ⟨(InternetChecksum.addAll {} s.output).value, fun given => ?_⟩
  exact bind_of_eq_some hs

theorem pseudoChecksum_le (h : IPv4Header) : h.pseudoChecksum ≤ 5 * 65535 + 255 := by
  have := h.src.toNat_lt
  have := h.dst.toNat_lt
  have := h.proto.toNat_lt
  have := h.payloadLength.toNat_lt
  unfold pseudoChecksum
  omega

theorem foVal_spec (h : IPv4Header) (ho : h.offset.toNat < 2 ^ 13) :
    decide (h.foVal &&& 0x4000 ≠ 0) = h.df ∧ decide (h.foVal &&& 0x2000 ≠ 0) = h.mf ∧
      h.foVal &&& 0x1fff = h.offset := by
  have or_and : ∀ x y z : UInt16, (x ||| y) &&& z = x &&& z ||| y &&& z := fun x y z =>
    UInt16.toBitVec_inj.1 BitVec.and_or_distrib_right
  have hmask : h.offset &&& 0x1fff = h.offset := by
    rw [← UInt16.toNat_inj, UInt16.toNat_and]
    exact (Nat.and_two_pow_sub_one_eq_mod _ 13).trans (Nat.mod_eq_of_lt ho)
  have hhigh : ∀ m : UInt16, (h.offset &&& 0x1fff) &&& m = h.offset &&& (0x1fff &&& m) :=
    fun m => UInt16.and_assoc _ _ _
  have hflags : (0x4000 : UInt16) &&& 0x2000 = 0 ∧ (0x2000 : UInt16) &&& 0x4000 = 0 ∧
      (0x1fff : UInt16) &&& 0x4000 = 0 ∧ (0x1fff : UInt16) &&& 0x2000 = 0 ∧
      (0x4000 : UInt16) &&& 0x1fff = 0 ∧ (0x2000 : UInt16) &&& 0x1fff = 0 := by decide
  unfold foVal
  simp only [or_and, hhigh]
  refine ⟨?_, ?_, ?_⟩
  · cases h.df <;> cases h.mf <;> simp [hflags]
  · cases h.df <;> cases h.mf <;> simp [hflags]
  · cases h.df <;> cases h.mf <;> simp [hflags, hmask]

/-- A header that carries its checksum is read back. -/
theorem parse_of_reads (hv : h.ver = 4) (hh : h.hlen = 5) (ho : h.offset.toNat < 2 ^ 13)
    (hck : h.computeChecksum = some h) (hp : p.Reads (h.bytes ++ rest)) :
    ∃ p', parse {} p = some (h, p') ∧ p'.Reads rest := by
  simp only [bytes, List.append_assoc] at hp
  obtain ⟨p₁, h₁, hp⟩ := hp.integer h.firstByte.toNat_lt 0
  obtain ⟨p₂, h₂, hp⟩ := hp.integer h.tos.toNat_lt (UInt8.toNat 0)
  obtain ⟨p₃, h₃, hp⟩ := hp.integer h.len.toNat_lt (UInt16.toNat 0)
  obtain ⟨p₄, h₄, hp⟩ := hp.integer h.id.toNat_lt (UInt16.toNat 0)
  obtain ⟨p₅, h₅, hp⟩ := hp.integer h.foVal.toNat_lt 0
  obtain ⟨p₆, h₆, hp⟩ := hp.integer h.ttl.toNat_lt (UInt8.toNat 128)
  obtain ⟨p₇, h₇, hp⟩ := hp.integer h.proto.toNat_lt (UInt8.toNat 6)
  obtain ⟨p₈, h₈, hp⟩ := hp.integer h.cksum.toNat_lt (UInt16.toNat 0)
  obtain ⟨p₉, h₉, hp⟩ := hp.integer h.src.toNat_lt (UInt32.toNat 0)
  obtain ⟨p', h₁₀, hp⟩ := hp.integer h.dst.toNat_lt (UInt32.toNat 0)
  refine ⟨p'.removePrefix 0, ?_, hp.removePrefix 0⟩
  obtain ⟨hdf, hmf, hoff⟩ := h.foVal_spec ho
  have hfirst : h.firstByte >>> 4 = 4 ∧ h.firstByte &&& 0x0f = 5 := by
    rw [firstByte, hv, hh]; decide
  have heta : (⟨4, 5, h.tos, h.len, h.id, h.df, h.mf, h.offset, h.ttl, h.proto, h.cksum, h.src,
      h.dst⟩ : IPv4Header) = h := by rw [← hv, ← hh]
  unfold parse
  refine (bind_of_eq_some h₁).trans <| (bind_of_eq_some h₂).trans <| (bind_of_eq_some h₃).trans <|
    (bind_of_eq_some h₄).trans <| (bind_of_eq_some h₅).trans <| (bind_of_eq_some h₆).trans <|
    (bind_of_eq_some h₇).trans <| (bind_of_eq_some h₈).trans <| (bind_of_eq_some h₉).trans <|
    (bind_of_eq_some h₁₀).trans ?_
  dsimp only
  simp only [UInt8.ofNat_toNat, UInt16.ofNat_toNat, UInt32.ofNat_toNat]
  rw [hdf, hmf, hoff, hfirst.1, hfirst.2, heta]
  -- what is left are the checks
  have h4 : ¬ (4 : UInt8) ≠ 4 := by decide
  have h5 : ¬ (5 : UInt8) < 5 := by decide
  rw [if_neg h4, if_neg h5, Parser.hasError, hp.error, if_neg (by simp)]
  refine (bind_of_eq_some hck).trans ?_
  rw [if_neg (by simp)]
  rfl

end IPv4Header

structure IPv4Datagram where
  header : IPv4Header := {}
  payload : List Bytes := []
deriving Repr, DecidableEq

namespace IPv4Datagram

def parse (d : IPv4Datagram) (p : Parser) : Option (IPv4Datagram × Parser) := do
  let (header, p) ← d.header.parse p
  some ({ header, payload := p.allRemaining }, p)

def serialize (d : IPv4Datagram) (serializer : Serializer) : Option Serializer := do
  let s ← d.header.serialize serializer
  some (d.payload.foldl Serializer.buffer s)

variable {d : IPv4Datagram} {h : IPv4Header} {p : Parser} {bytes : Bytes}

theorem serialize_spec (hv : d.header.ver = 4) : ∃ s, d.serialize {} = some s ∧
    s.output.flatten = d.header.bytes ++ d.payload.flatten ∧ ∀ b ∈ s.output, b ≠ [] := by
  obtain ⟨s, hs, hc, hw⟩ := IPv4Header.serialize_spec hv Serializer.wf_new
  have hfold : ∀ (bufs : List Bytes) (s : Serializer), s.Wf →
      (bufs.foldl Serializer.buffer s).content = s.content ++ bufs.flatten ∧
        (bufs.foldl Serializer.buffer s).Wf := by
    intro bufs
    induction bufs with
    | nil => intro s hs; exact ⟨by simp, hs⟩
    | cons b bufs ih =>
      intro s hs
      obtain ⟨hc, hw⟩ := ih _ (hs.buffer b)
      exact ⟨by rw [List.foldl_cons, hc, Serializer.content_buffer]; simp, hw⟩
  obtain ⟨hc', hw'⟩ := hfold d.payload s hw
  refine ⟨_, bind_of_eq_some hs, ?_, hw'.output⟩
  rw [Serializer.flatten_output, hc', hc]
  rfl

/-- The header is read back, and the payload is what comes after it. -/
theorem parse_of_reads (hv : h.ver = 4) (hh : h.hlen = 5) (ho : h.offset.toNat < 2 ^ 13)
    (hck : h.computeChecksum = some h) (hp : p.Reads (h.bytes ++ bytes)) :
    ∃ payload p', parse {} p = some (⟨h, payload⟩, p') ∧ p'.error = false ∧
      payload.flatten = bytes ∧ ∀ b ∈ payload, b ≠ [] := by
  obtain ⟨p', h₁, hp'⟩ := IPv4Header.parse_of_reads hv hh ho hck hp
  exact ⟨_, p', bind_of_eq_some h₁, hp'.error, hp'.allRemaining⟩

end IPv4Datagram

end Minnow
