import Minnow.ParserSplit

/-!
# Ethernet frames (`ethernet_header.cc`, `ethernet_frame.hh`)

A frame is accepted if its header is there. Parser and serializer are inverse to each other,
wherever the bytes are cut (`EthernetFrame.frame_round_trip`).
-/

namespace Minnow
open Prog

/-- An array of six bytes. -/
abbrev EthernetAddress := { bytes : Bytes // bytes.length = 6 }

theorem exists_cut {n : Nat} {xs : Bytes} (h : n ≤ xs.length) :
    ∃ ys zs, xs = ys ++ zs ∧ ys.length = n :=
  ⟨xs.take n, xs.drop n, (List.take_append_drop n xs).symm, List.length_take_of_le h⟩

/-- Bytes are the representation of a number. -/
theorem exists_word8 {xs : Bytes} (h : xs.length = 1) : ∃ v : UInt8, xs = bigEndian 1 v.toNat := by
  have hlt : ofBigEndian 0 xs < 2 ^ 8 :=
    Nat.lt_of_lt_of_eq (ofBigEndian_lt xs) (congrArg (256 ^ ·) h)
  refine ⟨UInt8.ofNat (ofBigEndian 0 xs), ?_⟩
  rw [UInt8.toNat_ofNat', Nat.mod_eq_of_lt hlt, ← h, bigEndian_ofBigEndian]

theorem exists_word16 {xs : Bytes} (h : xs.length = 2) :
    ∃ v : UInt16, xs = bigEndian 2 v.toNat := by
  have hlt : ofBigEndian 0 xs < 2 ^ 16 :=
    Nat.lt_of_lt_of_eq (ofBigEndian_lt xs) (congrArg (256 ^ ·) h)
  refine ⟨UInt16.ofNat (ofBigEndian 0 xs), ?_⟩
  rw [UInt16.toNat_ofNat', Nat.mod_eq_of_lt hlt, ← h, bigEndian_ofBigEndian]

theorem exists_word32 {xs : Bytes} (h : xs.length = 4) :
    ∃ v : UInt32, xs = bigEndian 4 v.toNat := by
  have hlt : ofBigEndian 0 xs < 2 ^ 32 :=
    Nat.lt_of_lt_of_eq (ofBigEndian_lt xs) (congrArg (256 ^ ·) h)
  refine ⟨UInt32.ofNat (ofBigEndian 0 xs), ?_⟩
  rw [UInt32.toNat_ofNat', Nat.mod_eq_of_lt hlt, ← h, bigEndian_ofBigEndian]

namespace Parser

/-- The bytes of an array, each by itself. -/
def octets : (old : Bytes) → Parser → Option ({ new : Bytes // new.length = old.length } × Parser)
  | [], p => some (⟨[], rfl⟩, p)
  | b :: old, p => do
    let (n, p) ← p.integer 1 b.toNat
    let (new, p) ← octets old p
    some (⟨UInt8.ofNat n :: new.1, congrArg Nat.succ new.2⟩, p)

variable {p : Parser} {bytes rest : Bytes}

theorem Reads.octets {old : Bytes} (h : p.Reads (bytes ++ rest)) (hlen : bytes.length = old.length) :
    ∃ p', Parser.octets old p = some (⟨bytes, hlen⟩, p') ∧ p'.Reads rest := by
  induction old generalizing p bytes with
  | nil =>
    obtain rfl := List.length_eq_zero_iff.1 hlen
    exact ⟨p, rfl, h⟩
  | cons b old ih =>
    cases bytes with
    | nil => cases hlen
    | cons x bytes =>
      have h : p.Reads ([x] ++ (bytes ++ rest)) := h
      obtain ⟨p₁, h₁, hp₁⟩ := h.integer_eq rfl b.toNat
      obtain ⟨p', h', hp'⟩ := ih hp₁ (Nat.succ.inj hlen)
      refine ⟨p', (bind_of_eq_some h₁).trans ((bind_of_eq_some h').trans ?_), hp'⟩
      have hx : UInt8.ofNat (ofBigEndian 0 [x]) = x := by
        rw [ofBigEndian_cons, Nat.zero_mul, Nat.zero_add]
        exact UInt8.ofNat_toNat
      dsimp only
      simp only [hx]

theorem Short.octets {n : Nat} (h : p.Short n) (old : Bytes) :
    ∃ r, Parser.octets old p = some r ∧ r.2.Short (n - old.length) := by
  induction old generalizing p n with
  | nil => exact ⟨_, rfl, h⟩
  | cons b old ih =>
    obtain ⟨val, p₁, h₁, hs⟩ := h.integer 1 b.toNat
    obtain ⟨r, hr, hs'⟩ := ih hs
    refine ⟨_, (bind_of_eq_some h₁).trans (bind_of_eq_some hr), ?_⟩
    rw [Nat.sub_sub, Nat.add_comm] at hs'
    exact hs'

end Parser

namespace Serializer

def octets (s : Serializer) (bytes : Bytes) : Serializer :=
  bytes.foldl (fun s b => s.integer 1 b.toNat) s

def buffers (s : Serializer) (bufs : List Bytes) : Serializer := bufs.foldl buffer s

theorem content_octets (s : Serializer) (bytes : Bytes) :
    (s.octets bytes).content = s.content ++ bytes := by
  unfold octets
  induction bytes generalizing s with
  | nil => exact (List.append_nil _).symm
  | cons b bytes ih =>
    rw [List.foldl_cons, ih, content_integer, bigEndian_succ, bigEndian_zero, Nat.zero_mul,
      Nat.shiftRight_zero, UInt8.ofNat_toNat, List.append_assoc]
    rfl

theorem content_buffers (s : Serializer) (bufs : List Bytes) :
    (s.buffers bufs).content = s.content ++ bufs.flatten := by
  unfold buffers
  induction bufs generalizing s with
  | nil => simp
  | cons b bufs ih =>
    rw [List.foldl_cons, ih, content_buffer, List.flatten_cons, List.append_assoc]

end Serializer

namespace EthernetAddress

def zero : EthernetAddress := ⟨[0, 0, 0, 0, 0, 0], rfl⟩

def parse (a : EthernetAddress) (p : Parser) : Option (EthernetAddress × Parser) :=
  (Parser.octets a.1 p).map fun r => (⟨r.1.1, r.1.2.trans a.2⟩, r.2)

variable {p : Parser} {rest : Bytes} {n : Nat}

theorem parse_of_reads (old : EthernetAddress) {a : EthernetAddress} (h : p.Reads (a.1 ++ rest)) :
    ∃ p', old.parse p = some (a, p') ∧ p'.Reads rest := by
  obtain ⟨p', hp', hr⟩ := h.octets (a.2.trans old.2.symm)
  exact ⟨p', congrArg (Option.map _) hp', hr⟩

theorem parse_short (old : EthernetAddress) (h : p.Short n) :
    ∃ a p', old.parse p = some (a, p') ∧ p'.Short (n - 6) := by
  obtain ⟨r, hr, c, hs, hc⟩ := h.octets old.1
  rw [old.2] at hc
  exact ⟨_, _, congrArg (Option.map _) hr, c, hs, hc⟩

end EthernetAddress

structure EthernetHeader where
  dst : EthernetAddress := .zero
  src : EthernetAddress := .zero
  type : UInt16 := 0
deriving DecidableEq

namespace EthernetHeader

def LENGTH : Nat := 14

def TYPE_IPv4 : UInt16 := 0x800

def parse (h : EthernetHeader) (p : Parser) : Option (EthernetHeader × Parser) := do
  let (dst, p) ← h.dst.parse p
  let (src, p) ← h.src.parse p
  let (type, p) ← p.integer 2 h.type.toNat
  some ({ dst, src, type := UInt16.ofNat type }, p)

def serialize (h : EthernetHeader) (serializer : Serializer) : Serializer :=
  serializer
    |>.octets h.dst.1
    |>.octets h.src.1
    |>.integer 2 h.type.toNat

def bytes (h : EthernetHeader) : Bytes := h.dst.1 ++ (h.src.1 ++ bigEndian 2 h.type.toNat)

variable {h : EthernetHeader} {p : Parser} {data rest : Bytes}

theorem content_serialize (h : EthernetHeader) (s : Serializer) :
    (h.serialize s).content = s.content ++ h.bytes := by
  rw [serialize, Serializer.content_integer, Serializer.content_octets, Serializer.content_octets, bytes,
    List.append_assoc, List.append_assoc]

/-- Any 14 bytes are a header. -/
theorem exists_bytes (hlen : data.length = 14) : ∃ h : EthernetHeader, h.bytes = data := by
  obtain ⟨dst, data, rfl, hdst⟩ := exists_cut (show 6 ≤ data.length by omega)
  rw [List.length_append] at hlen
  obtain ⟨src, type, rfl, hsrc⟩ := exists_cut (show 6 ≤ data.length by omega)
  rw [List.length_append] at hlen
  obtain ⟨val, rfl⟩ := exists_word16 (show type.length = 2 by omega)
  exact ⟨⟨⟨dst, hdst⟩, ⟨src, hsrc⟩, val⟩, rfl⟩

theorem parse_of_reads (h₀ : EthernetHeader) (hp : p.Reads (h.bytes ++ rest)) :
    ∃ p', parse h₀ p = some (h, p') ∧ p'.Reads rest := by
  rw [bytes, List.append_assoc, List.append_assoc] at hp
  obtain ⟨p₁, h₁, hp⟩ := EthernetAddress.parse_of_reads h₀.dst hp
  obtain ⟨p₂, h₂, hp⟩ := EthernetAddress.parse_of_reads h₀.src hp
  obtain ⟨p', h₃, hp⟩ := hp.integer h.type.toNat_lt h₀.type.toNat
  refine ⟨p', (bind_of_eq_some h₁).trans <| (bind_of_eq_some h₂).trans <|
    (bind_of_eq_some h₃).trans ?_, hp⟩
  simp only [UInt16.ofNat_toNat]

theorem parse_short (h₀ : EthernetHeader) (hp : p.Short 14) :
    ∃ r, parse h₀ p = some r ∧ r.2.error = true := by
  obtain ⟨_, p₁, h₁, hp⟩ := EthernetAddress.parse_short h₀.dst hp
  obtain ⟨_, p₂, h₂, hp⟩ := EthernetAddress.parse_short h₀.src hp
  obtain ⟨_, p', h₃, hp⟩ := hp.integer 2 h₀.type.toNat
  exact exists_bind h₁ <| exists_bind h₂ <| exists_bind h₃ ⟨_, rfl, hp.error⟩

end EthernetHeader

structure EthernetFrame where
  header : EthernetHeader := {}
  payload : List Bytes := []
deriving DecidableEq

namespace EthernetFrame

def parse (f : EthernetFrame) (p : Parser) : Option (EthernetFrame × Parser) := do
  let (header, p) ← f.header.parse p
  some ({ header, payload := p.allRemaining }, p)

def serialize (f : EthernetFrame) (serializer : Serializer) : Serializer :=
  (f.header.serialize serializer).buffers f.payload

variable {f : EthernetFrame} {bufs : List Bytes}

theorem flatten_serialize (f : EthernetFrame) :
    (f.serialize {}).output.flatten = f.header.bytes ++ f.payload.flatten := by
  rw [Serializer.flatten_output, serialize, Serializer.content_buffers,
    EthernetHeader.content_serialize]
  rfl

theorem parse_of_flatten (f₀ : EthernetFrame) {h : EthernetHeader} {rest : Bytes}
    (hne : ∀ b ∈ bufs, b ≠ []) (hflat : bufs.flatten = h.bytes ++ rest) :
    ∃ payload, Parser.parse f₀.parse bufs = some (⟨h, payload⟩, true) ∧ payload.flatten = rest ∧
      ∀ b ∈ payload, b ≠ [] := by
  have hp := Parser.reads_ofBuffers hne
  rw [hflat] at hp
  obtain ⟨p', h₁, hp'⟩ := EthernetHeader.parse_of_reads f₀.header hp
  refine ⟨p'.allRemaining, ?_, hp'.allRemaining⟩
  have hparse : f₀.parse (.ofBuffers bufs) = some (⟨h, p'.allRemaining⟩, p') := bind_of_eq_some h₁
  rw [Parser.parse, hparse, Option.map_some]
  show some (_, !p'.error) = _
  rw [hp'.error]
  rfl

/-- What is too short is rejected, and anything else is a frame: what is parsed is serialized to the same
bytes again, and what is serialized is parsed to the same frame, however the bytes are cut on the
way. -/
theorem frame_round_trip (f₀ : EthernetFrame) (hne : ∀ b ∈ bufs, b ≠ []) :
    (∃ f ok, Parser.parse f₀.parse bufs = some (f, ok) ∧ (ok = true ↔ 14 ≤ bufs.flatten.length) ∧
      (ok = true → (f.serialize {}).output.flatten = bufs.flatten)) ∧
    ∀ f : EthernetFrame, (f.serialize {}).output.flatten = bufs.flatten →
      ∃ payload, Parser.parse f₀.parse bufs = some (⟨f.header, payload⟩, true) ∧
        payload.flatten = f.payload.flatten := by
  constructor
  · rcases Nat.lt_or_ge bufs.flatten.length 14 with hlt | hge
    · have hp : (Parser.ofBuffers bufs).Short 14 :=
        ⟨_, (Parser.reads_ofBuffers hne).standsAt, .inr hlt⟩
      obtain ⟨r, hr, herr⟩ := EthernetHeader.parse_short f₀.header hp
      have hparse : f₀.parse (.ofBuffers bufs) = some (⟨r.1, r.2.allRemaining⟩, r.2) :=
        bind_of_eq_some hr
      refine ⟨⟨r.1, r.2.allRemaining⟩, false, ?_, iff_of_false Bool.false_ne_true (Nat.not_le.2 hlt),
        nofun⟩
      rw [Parser.parse, hparse, Option.map_some]
      show some (_, !r.2.error) = _
      rw [herr]
      rfl
    · obtain ⟨h, hh⟩ := EthernetHeader.exists_bytes (List.length_take_of_le hge)
      have hflat : bufs.flatten = h.bytes ++ bufs.flatten.drop 14 := by
        rw [hh, List.take_append_drop]
      obtain ⟨payload, hparse, hpay, -⟩ := parse_of_flatten f₀ hne hflat
      refine ⟨_, true, hparse, iff_of_true rfl hge, fun _ => ?_⟩
      rw [flatten_serialize, hpay, ← hflat]
  · intro f hf
    rw [flatten_serialize] at hf
    obtain ⟨payload, hparse, hpay, -⟩ := parse_of_flatten f₀ hne hf.symm
    exact ⟨payload, hparse, hpay⟩

/-- Two bytes of payload, with cuts in the middle of an address and of the type. -/
theorem frame_round_trip_cut : ∃ f, Parser.parse (EthernetFrame.parse {})
    [[1, 2, 3, 4, 5], [6, 7, 8, 9, 10, 11, 12, 8], [6, 42, 43]] = some (f, true) ∧
      f.payload.flatten = [42, 43] := by
  let header : EthernetHeader := ⟨⟨[1, 2, 3, 4, 5, 6], rfl⟩, ⟨[7, 8, 9, 10, 11, 12], rfl⟩, 0x806⟩
  let f : EthernetFrame := ⟨header, [[42], [43]]⟩
  have hne : ∀ b ∈ ([[1, 2, 3, 4, 5], [6, 7, 8, 9, 10, 11, 12, 8], [6, 42, 43]] : List Bytes),
      b ≠ [] := by
    decide
  obtain ⟨payload, hparse, hpay⟩ := (frame_round_trip {} hne).2 f (by decide)
  exact ⟨_, hparse, hpay⟩

end EthernetFrame

end Minnow
