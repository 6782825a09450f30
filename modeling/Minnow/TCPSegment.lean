import Minnow.IPv4Header
import Minnow.TCPMessage

/-!
# TCP segments (`tcp_segment.cc`, `udinfo.hh`)

The two `RST` flags share one bit of the wire format. A segment with a computed checksum comes out of
the parser as it went into the serializer, up to these (`TCPSegment.parse_of_reads`).
-/

namespace Minnow
open Prog

structure UserDatagramInfo where
  srcPort : UInt16 := 0
  dstPort : UInt16 := 0
  cksum : UInt16 := 0
deriving Repr, DecidableEq

structure TCPSegment where
  message : TCPMessage := {}
  udinfo : UserDatagramInfo := {}
deriving Repr, DecidableEq

/-- The message with both `RST` flags set if one of them is. -/
def TCPMessage.orRST (m : TCPMessage) : TCPMessage where
  sender := { m.sender with RST := m.sender.RST || m.receiver.RST }
  receiver := { m.receiver with RST := m.sender.RST || m.receiver.RST }

namespace TCPSegment

/-- In 32-bit words. -/
def TCPHeaderMinLen : UInt32 := 5

def flags (seg : TCPSegment) : UInt8 :=
  let reset := seg.message.sender.RST || seg.message.receiver.RST
  (if seg.message.receiver.ackno.isSome then 0b00010000 else 0) |||
    (if reset then 0b00000100 else 0) ||| (if seg.message.sender.SYN then 0b00000010 else 0) |||
    (if seg.message.sender.FIN then 0b00000001 else 0)

def serialize (seg : TCPSegment) (serializer : Serializer) : Serializer :=
  serializer
    |>.integer 2 seg.udinfo.srcPort.toNat
    |>.integer 2 seg.udinfo.dstPort.toNat
    |>.integer 4 seg.message.sender.seqno.rawValue.toNat
    |>.integer 4 (seg.message.receiver.ackno.getD ⟨0⟩).rawValue.toNat
    |>.integer 1 (TCPHeaderMinLen <<< 4).toUInt8.toNat
    |>.integer 1 seg.flags.toNat
    |>.integer 2 seg.message.receiver.windowSize.toNat
    |>.integer 2 seg.udinfo.cksum.toNat
    |>.integer 2 0
    |>.buffer seg.message.sender.payload

def computeChecksum (seg : TCPSegment) (datagramLayerPseudoChecksum : Nat) : TCPSegment :=
  let seg := { seg with udinfo := { seg.udinfo with cksum := 0 } }
  let s := seg.serialize {}
  let check := InternetChecksum.addAll { sum := datagramLayerPseudoChecksum } s.output
  { seg with udinfo := { seg.udinfo with cksum := check.value } }

def parse (datagramLayerPseudoChecksum : Nat) (seg : TCPSegment) (p : Parser) :
    Option (TCPSegment × Parser) := do
  let check := InternetChecksum.addAll { sum := datagramLayerPseudoChecksum } p.buffer
  if check.value ≠ 0 then
    some (seg, p.setError)
  else
    let (srcPort, p) ← p.integer 2 seg.udinfo.srcPort.toNat
    let (dstPort, p) ← p.integer 2 seg.udinfo.dstPort.toNat
    let (raw32, p) ← p.integer 4 0
    let seqno : Wrap32 := ⟨UInt32.ofNat raw32⟩
    let (raw32, p) ← p.integer 4 raw32
    let ackno : Wrap32 := ⟨UInt32.ofNat raw32⟩
    let (octet, p) ← p.integer 1 0
    let dataOffset := UInt8.ofNat octet >>> 4
    let (octet, p) ← p.integer 1 octet
    let flags := UInt8.ofNat octet
    let reset := decide (flags &&& 0b00000100 ≠ 0)
    let (windowSize, p) ← p.integer 2 seg.message.receiver.windowSize.toNat
    let (cksum, p) ← p.integer 2 seg.udinfo.cksum.toNat
    let (_, p) ← p.integer 2 0
    let p := if dataOffset.toUInt32 < TCPHeaderMinLen then p.setError else p
    -- in 32 bits, so that a short header skips everything
    let p := p.removePrefix (dataOffset.toUInt32 * 4 - TCPHeaderMinLen * 4).toNat
    some (
      { message :=
          { sender :=
              { seqno
                SYN := decide (flags &&& 0b00000010 ≠ 0)
                payload := p.allRemaining.flatten
                FIN := decide (flags &&& 0b00000001 ≠ 0)
                RST := reset }
            receiver :=
              { ackno := if flags &&& 0b00010000 = 0 then none else some ackno
                windowSize := UInt16.ofNat windowSize
                RST := reset } }
        udinfo :=
          { srcPort := UInt16.ofNat srcPort
            dstPort := UInt16.ofNat dstPort
            cksum := UInt16.ofNat cksum } }, p)

/-- The bytes before the checksum, and those after it. -/
def bytesBefore (seg : TCPSegment) : Bytes :=
  bigEndian 2 seg.udinfo.srcPort.toNat ++ bigEndian 2 seg.udinfo.dstPort.toNat ++
    bigEndian 4 seg.message.sender.seqno.rawValue.toNat ++
    bigEndian 4 (seg.message.receiver.ackno.getD ⟨0⟩).rawValue.toNat ++
    bigEndian 1 (TCPHeaderMinLen <<< 4).toUInt8.toNat ++ bigEndian 1 seg.flags.toNat ++
    bigEndian 2 seg.message.receiver.windowSize.toNat

def bytesAfter (seg : TCPSegment) : Bytes := bigEndian 2 0 ++ seg.message.sender.payload

def bytes (seg : TCPSegment) : Bytes :=
  seg.bytesBefore ++ (bigEndian 2 seg.udinfo.cksum.toNat ++ seg.bytesAfter)

variable {seg : TCPSegment} {s : Serializer} {p : Parser} {pseudo : Nat}

theorem content_serialize (seg : TCPSegment) (s : Serializer) :
    (seg.serialize s).content = s.content ++ seg.bytes := by
  simp only [serialize, Serializer.content_integer, Serializer.content_buffer, bytes, bytesBefore,
    bytesAfter, List.append_assoc]

/-- The integers go to the serializer's own buffer. -/
theorem wf_serialize (seg : TCPSegment) (hs : s.Wf) : (seg.serialize s).Wf := by
  unfold serialize
  refine Serializer.Wf.buffer ?_ _
  exact hs

theorem length_bytesBefore (seg : TCPSegment) : seg.bytesBefore.length = 16 := by
  simp only [bytesBefore, List.length_append, length_bigEndian]

theorem length_bytes (seg : TCPSegment) :
    seg.bytes.length = 20 + seg.message.sender.payload.length := by
  simp only [bytes, bytesAfter, List.length_append, length_bytesBefore, length_bigEndian]
  omega

/-- The checksum adds to the sum as it is. -/
theorem pairSum_bytes (seg : TCPSegment) : pairSum false seg.bytes =
    pairSum false (bytes { seg with udinfo := { seg.udinfo with cksum := 0 } }) +
      seg.udinfo.cksum.toNat := by
  have hcut : ∀ seg : TCPSegment, pairSum false seg.bytes = pairSum false seg.bytesBefore +
      (seg.udinfo.cksum.toNat + pairSum false seg.bytesAfter) := fun seg =>
    pairSum_cut (by rw [length_bytesBefore]) seg.udinfo.cksum.toNat_lt
  rw [hcut, hcut]
  show _ = pairSum false seg.bytesBefore + (0 + pairSum false seg.bytesAfter) + _
  omega

/-- The data offset is there in any segment. -/
theorem pairSum_bytes_pos (seg : TCPSegment) : 0 < pairSum false seg.bytes := by
  refine pairSum_pos false (b := 0x50) ?_ (by decide)
  have hmem : (0x50 : Byte) ∈ bigEndian 1 (TCPHeaderMinLen <<< 4).toUInt8.toNat := by decide
  simp only [bytes, bytesBefore, List.mem_append, hmem, true_or, or_true]

/-- A computed checksum verifies, as long as 32 bits hold the sum. -/
theorem value_computeChecksum
    (hlt : pseudo + 65280 * (20 + seg.message.sender.payload.length) < 2 ^ 32) :
    (InternetChecksum.add { sum := pseudo } (seg.computeChecksum pseudo).bytes).value = 0 := by
  -- the sum over a segment, whatever its checksum field
  have hsum : ∀ ck : UInt16, (InternetChecksum.add { sum := pseudo }
      (bytes { seg with udinfo := { seg.udinfo with cksum := ck } })).sum =
        pseudo + pairSum false (bytes { seg with udinfo := { seg.udinfo with cksum := ck } }) := by
    intro ck
    refine InternetChecksum.sum_add ?_
    have hle := pairSum_le false (bytes { seg with udinfo := { seg.udinfo with cksum := ck } })
    rw [length_bytes] at hle
    dsimp only at hle ⊢
    omega
  have hck : (seg.computeChecksum pseudo).udinfo.cksum.toNat = 0xffff - foldCarry
      (pseudo + pairSum false (bytes { seg with udinfo := { seg.udinfo with cksum := 0 } })) := by
    rw [computeChecksum]
    dsimp only
    rw [InternetChecksum.toNat_value, InternetChecksum.addAll_eq, Serializer.flatten_output,
      content_serialize, ← hsum]
    rfl
  rw [InternetChecksum.value_eq_zero_iff, ← foldCarry_eq_iff]
  have hbytes := pairSum_bytes (seg.computeChecksum pseudo)
  rw [hck] at hbytes
  have hs := hsum (seg.computeChecksum pseudo).udinfo.cksum
  rw [show ({ seg with udinfo := { seg.udinfo with cksum :=
    (seg.computeChecksum pseudo).udinfo.cksum } } : TCPSegment) = seg.computeChecksum pseudo from rfl,
    hbytes, ← Nat.add_assoc] at hs
  rw [hs]
  exact foldCarry_complement (Nat.add_pos_right _ (pairSum_bytes_pos _))

theorem flags_spec (seg : TCPSegment) :
    (seg.flags &&& 0b00010000 = 0 ↔ seg.message.receiver.ackno.isSome = false) ∧
    decide (seg.flags &&& 0b00000100 ≠ 0) =
      (seg.message.sender.RST || seg.message.receiver.RST) ∧
    decide (seg.flags &&& 0b00000010 ≠ 0) = seg.message.sender.SYN ∧
    decide (seg.flags &&& 0b00000001 ≠ 0) = seg.message.sender.FIN := by
  have h : ∀ ack reset syn fin : Bool,
      let flags : UInt8 := (if ack then 0b00010000 else 0) ||| (if reset then 0b00000100 else 0) |||
        (if syn then 0b00000010 else 0) ||| (if fin then 0b00000001 else 0)
      (flags &&& 0b00010000 = 0 ↔ ack = false) ∧ decide (flags &&& 0b00000100 ≠ 0) = reset ∧
        decide (flags &&& 0b00000010 ≠ 0) = syn ∧ decide (flags &&& 0b00000001 ≠ 0) = fin := by
    decide
  exact h _ _ _ _

/-- A segment whose checksum verifies is read back. -/
theorem parse_of_reads
    (hck : (InternetChecksum.add { sum := pseudo } seg.bytes).value = 0) (hp : p.Reads seg.bytes) :
    ∃ p', parse pseudo {} p = some (⟨seg.message.orRST, seg.udinfo⟩, p') ∧ p'.error = false := by
  have hvalue : (InternetChecksum.addAll { sum := pseudo } p.buffer).value = 0 := by
    rw [InternetChecksum.addAll_eq, hp.buffer.1, hck]
  simp only [bytes, bytesBefore, bytesAfter, List.append_assoc] at hp
  obtain ⟨p₁, h₁, hp⟩ := hp.integer seg.udinfo.srcPort.toNat_lt (UInt16.toNat 0)
  obtain ⟨p₂, h₂, hp⟩ := hp.integer seg.udinfo.dstPort.toNat_lt (UInt16.toNat 0)
  obtain ⟨p₃, h₃, hp⟩ := hp.integer seg.message.sender.seqno.rawValue.toNat_lt 0
  obtain ⟨p₄, h₄, hp⟩ := hp.integer (seg.message.receiver.ackno.getD ⟨0⟩).rawValue.toNat_lt
    seg.message.sender.seqno.rawValue.toNat
  obtain ⟨p₅, h₅, hp⟩ := hp.integer (TCPHeaderMinLen <<< 4).toUInt8.toNat_lt 0
  obtain ⟨p₆, h₆, hp⟩ := hp.integer seg.flags.toNat_lt (TCPHeaderMinLen <<< 4).toUInt8.toNat
  obtain ⟨p₇, h₇, hp⟩ := hp.integer seg.message.receiver.windowSize.toNat_lt (UInt16.toNat 0)
  obtain ⟨p₈, h₈, hp⟩ := hp.integer seg.udinfo.cksum.toNat_lt (UInt16.toNat 0)
  obtain ⟨p', h₉, hp⟩ := hp.integer (Nat.two_pow_pos 16) 0
  refine ⟨p'.removePrefix 0, ?_, hp.error⟩
  obtain ⟨hack, hrst, hsyn, hfin⟩ := seg.flags_spec
  have hoffset : (UInt8.ofNat (TCPHeaderMinLen <<< 4).toUInt8.toNat >>> 4).toUInt32 =
      TCPHeaderMinLen := by decide
  unfold parse
  dsimp only
  rw [if_neg (by simp [hvalue])]
  refine (bind_of_eq_some h₁).trans <| (bind_of_eq_some h₂).trans <| (bind_of_eq_some h₃).trans <|
    (bind_of_eq_some h₄).trans <| (bind_of_eq_some h₅).trans <| (bind_of_eq_some h₆).trans <|
    (bind_of_eq_some h₇).trans <| (bind_of_eq_some h₈).trans <| (bind_of_eq_some h₉).trans ?_
  dsimp only
  simp only [UInt8.ofNat_toNat, UInt16.ofNat_toNat, UInt32.ofNat_toNat]
  rw [UInt8.ofNat_toNat] at hoffset
  rw [hoffset, hrst, hsyn, hfin]
  have hshort : ¬ TCPHeaderMinLen < TCPHeaderMinLen := by decide
  have hskip : (TCPHeaderMinLen * 4 - TCPHeaderMinLen * 4).toNat = 0 := by decide
  have hpayload := (hp.removePrefix 0).allRemaining.1
  rw [List.drop_zero] at hpayload
  have hackno : (if seg.flags &&& 0b00010000 = 0 then none
      else some (⟨(seg.message.receiver.ackno.getD ⟨0⟩).rawValue⟩ : Wrap32)) =
        seg.message.receiver.ackno := by
    cases hw : seg.message.receiver.ackno with
    | none => rw [if_pos (hack.2 (by rw [hw]; rfl))]
    | some w =>
      rw [if_neg fun h0 => by rw [hw] at hack; cases hack.1 h0]
      rfl
  rw [if_neg hshort, hskip, hpayload, hackno]
  rfl

end TCPSegment

end Minnow
