import Minnow.EthernetFrame

/-!
# ARP messages (`arp_message.cc`)

Only requests and replies for Ethernet and IPv4 are supported, by the parser and by the serializer. What
the parser accepts is what the serializer makes of some message, with anything behind it
(`ARPMessage.arp_round_trip`).
-/

namespace Minnow
open Prog

structure ARPMessage where
  hardwareType : UInt16 := 1
  protocolType : UInt16 := EthernetHeader.TYPE_IPv4
  hardwareAddressSize : UInt8 := 6
  protocolAddressSize : UInt8 := 4
  opcode : UInt16 := 0
  senderEthernetAddress : EthernetAddress := .zero
  senderIpAddress : UInt32 := 0
  targetEthernetAddress : EthernetAddress := .zero
  targetIpAddress : UInt32 := 0
deriving DecidableEq

namespace ARPMessage

def LENGTH : Nat := 28

def TYPE_ETHERNET : UInt16 := 1

def OPCODE_REQUEST : UInt16 := 1

def OPCODE_REPLY : UInt16 := 2

/-- The sizes are those of an Ethernet address and of an IPv4 address. -/
def supported (m : ARPMessage) : Bool :=
  m.hardwareType == TYPE_ETHERNET && m.protocolType == EthernetHeader.TYPE_IPv4 &&
    m.hardwareAddressSize == 6 && m.protocolAddressSize == 4 &&
    (m.opcode == OPCODE_REQUEST || m.opcode == OPCODE_REPLY)

def parse (m : ARPMessage) (p : Parser) : Option (ARPMessage × Parser) := do
  let (hardwareType, p) ← p.integer 2 m.hardwareType.toNat
  let (protocolType, p) ← p.integer 2 m.protocolType.toNat
  let (hardwareAddressSize, p) ← p.integer 1 m.hardwareAddressSize.toNat
  let (protocolAddressSize, p) ← p.integer 1 m.protocolAddressSize.toNat
  let (opcode, p) ← p.integer 2 m.opcode.toNat
  let m := { m with
    hardwareType := UInt16.ofNat hardwareType
    protocolType := UInt16.ofNat protocolType
    hardwareAddressSize := UInt8.ofNat hardwareAddressSize
    protocolAddressSize := UInt8.ofNat protocolAddressSize
    opcode := UInt16.ofNat opcode }
  if !m.supported then some (m, p.setError)
  else
    let (senderEthernetAddress, p) ← m.senderEthernetAddress.parse p
    let (senderIpAddress, p) ← p.integer 4 m.senderIpAddress.toNat
    let (targetEthernetAddress, p) ← m.targetEthernetAddress.parse p
    let (targetIpAddress, p) ← p.integer 4 m.targetIpAddress.toNat
    some ({ m with
      senderEthernetAddress
      senderIpAddress := UInt32.ofNat senderIpAddress
      targetEthernetAddress
      targetIpAddress := UInt32.ofNat targetIpAddress }, p)

/-- `none`: an exception, for a message that is not supported. -/
def serialize (m : ARPMessage) (serializer : Serializer) : Option Serializer :=
  if !m.supported then none
  else
    some <| serializer
      |>.integer 2 m.hardwareType.toNat
      |>.integer 2 m.protocolType.toNat
      |>.integer 1 m.hardwareAddressSize.toNat
      |>.integer 1 m.protocolAddressSize.toNat
      |>.integer 2 m.opcode.toNat
      |>.octets m.senderEthernetAddress.1
      |>.integer 4 m.senderIpAddress.toNat
      |>.octets m.targetEthernetAddress.1
      |>.integer 4 m.targetIpAddress.toNat

/-- The first 8 bytes, and the others. -/
def prologue (m : ARPMessage) : Bytes :=
  bigEndian 2 m.hardwareType.toNat ++ (bigEndian 2 m.protocolType.toNat ++
    (bigEndian 1 m.hardwareAddressSize.toNat ++ (bigEndian 1 m.protocolAddressSize.toNat ++
      bigEndian 2 m.opcode.toNat)))

def addresses (m : ARPMessage) : Bytes :=
  m.senderEthernetAddress.1 ++ (bigEndian 4 m.senderIpAddress.toNat ++
    (m.targetEthernetAddress.1 ++ bigEndian 4 m.targetIpAddress.toNat))

/-- The first 8 bytes of a request or a reply for Ethernet and IPv4. -/
def Prologue (bytes : Bytes) : Prop :=
  bytes = [0, 1, 8, 0, 6, 4, 0, 1] ∨ bytes = [0, 1, 8, 0, 6, 4, 0, 2]

variable {m : ARPMessage} {p : Parser} {data rest : Bytes} {bufs : List Bytes}

theorem length_prologue (m : ARPMessage) : m.prologue.length = 8 := by
  simp only [prologue, List.length_append, length_bigEndian]

theorem supported_iff_fields (m : ARPMessage) : m.supported = true ↔ m.hardwareType = TYPE_ETHERNET ∧
    m.protocolType = EthernetHeader.TYPE_IPv4 ∧ m.hardwareAddressSize = 6 ∧
    m.protocolAddressSize = 4 ∧ (m.opcode = OPCODE_REQUEST ∨ m.opcode = OPCODE_REPLY) := by
  simp [supported, and_assoc]

theorem prologue_inj {m' : ARPMessage} (h : m.prologue = m'.prologue) :
    m.hardwareType = m'.hardwareType ∧ m.protocolType = m'.protocolType ∧
      m.hardwareAddressSize = m'.hardwareAddressSize ∧
      m.protocolAddressSize = m'.protocolAddressSize ∧ m.opcode = m'.opcode := by
  have split : ∀ {n a b : Nat} {xs ys : Bytes}, bigEndian n a ++ xs = bigEndian n b ++ ys →
      bigEndian n a = bigEndian n b ∧ xs = ys := fun h =>
    List.append_inj h (by rw [length_bigEndian, length_bigEndian])
  have value : ∀ {n a b : Nat}, bigEndian n a = bigEndian n b → a < 256 ^ n → b < 256 ^ n → a = b := by
    intro n a b h ha hb
    rw [← ofBigEndian_of_lt ha, h, ofBigEndian_of_lt hb]
  unfold prologue at h
  obtain ⟨h₁, h⟩ := split h
  obtain ⟨h₂, h⟩ := split h
  obtain ⟨h₃, h⟩ := split h
  obtain ⟨h₄, h₅⟩ := split h
  refine ⟨?_, ?_, ?_, ?_, ?_⟩
  · exact UInt16.toNat_inj.1 (value h₁ (UInt16.toNat_lt _) (UInt16.toNat_lt _))
  · exact UInt16.toNat_inj.1 (value h₂ (UInt16.toNat_lt _) (UInt16.toNat_lt _))
  · exact UInt8.toNat_inj.1 (value h₃ (UInt8.toNat_lt _) (UInt8.toNat_lt _))
  · exact UInt8.toNat_inj.1 (value h₄ (UInt8.toNat_lt _) (UInt8.toNat_lt _))
  · exact UInt16.toNat_inj.1 (value h₅ (UInt16.toNat_lt _) (UInt16.toNat_lt _))

theorem supported_iff (m : ARPMessage) : m.supported = true ↔ Prologue m.prologue := by
  have hrequest : prologue { opcode := OPCODE_REQUEST } = [0, 1, 8, 0, 6, 4, 0, 1] := by decide
  have hreply : prologue { opcode := OPCODE_REPLY } = [0, 1, 8, 0, 6, 4, 0, 2] := by decide
  rw [supported_iff_fields, Prologue, ← hrequest, ← hreply]
  constructor
  · rintro ⟨h₁, h₂, h₃, h₄, h₅⟩
    unfold prologue
    rw [h₁, h₂, h₃, h₄]
    exact h₅.imp (fun h => by rw [h]; rfl) fun h => by rw [h]; rfl
  · rintro (h | h)
    · obtain ⟨h₁, h₂, h₃, h₄, h₅⟩ := prologue_inj h
      exact ⟨h₁, h₂, h₃, h₄, .inl h₅⟩
    · obtain ⟨h₁, h₂, h₃, h₄, h₅⟩ := prologue_inj h
      exact ⟨h₁, h₂, h₃, h₄, .inr h₅⟩

/-- Any 28 bytes are those of a message, supported or not. -/
theorem exists_bytes (hlen : data.length = 28) :
    ∃ m : ARPMessage, m.prologue ++ m.addresses = data := by
  have cut : ∀ (n k : Nat) {xs : Bytes}, xs.length = n + k →
      ∃ ys zs, xs = ys ++ zs ∧ ys.length = n ∧ zs.length = k := by
    intro n k xs h
    obtain ⟨ys, zs, rfl, hys⟩ := exists_cut (show n ≤ xs.length by omega)
    rw [List.length_append] at h
    exact ⟨ys, zs, rfl, hys, by omega⟩
  obtain ⟨a, data, rfl, ha, hlen⟩ := cut 2 26 hlen
  obtain ⟨b, data, rfl, hb, hlen⟩ := cut 2 24 hlen
  obtain ⟨c, data, rfl, hc, hlen⟩ := cut 1 23 hlen
  obtain ⟨d, data, rfl, hd, hlen⟩ := cut 1 22 hlen
  obtain ⟨e, data, rfl, he, hlen⟩ := cut 2 20 hlen
  obtain ⟨sender, data, rfl, hsender, hlen⟩ := cut 6 14 hlen
  obtain ⟨f, data, rfl, hf, hlen⟩ := cut 4 10 hlen
  obtain ⟨target, g, rfl, htarget, hg⟩ := cut 6 4 hlen
  obtain ⟨a, rfl⟩ := exists_word16 ha
  obtain ⟨b, rfl⟩ := exists_word16 hb
  obtain ⟨c, rfl⟩ := exists_word8 hc
  obtain ⟨d, rfl⟩ := exists_word8 hd
  obtain ⟨e, rfl⟩ := exists_word16 he
  obtain ⟨f, rfl⟩ := exists_word32 hf
  obtain ⟨g, rfl⟩ := exists_word32 hg
  refine ⟨⟨a, b, c, d, e, ⟨sender, hsender⟩, f, ⟨target, htarget⟩, g⟩, ?_⟩
  simp only [prologue, addresses, List.append_assoc]

theorem parse_of_reads (m₀ : ARPMessage) (hp : p.Reads (m.prologue ++ (m.addresses ++ rest))) :
    ∃ r, parse m₀ p = some r ∧ (r.2.error = false ↔ m.supported = true) ∧
      (m.supported = true → r.1 = m) := by
  simp only [prologue, addresses, List.append_assoc] at hp
  obtain ⟨p₁, h₁, hp⟩ := hp.integer m.hardwareType.toNat_lt m₀.hardwareType.toNat
  obtain ⟨p₂, h₂, hp⟩ := hp.integer m.protocolType.toNat_lt m₀.protocolType.toNat
  obtain ⟨p₃, h₃, hp⟩ := hp.integer m.hardwareAddressSize.toNat_lt m₀.hardwareAddressSize.toNat
  obtain ⟨p₄, h₄, hp⟩ := hp.integer m.protocolAddressSize.toNat_lt m₀.protocolAddressSize.toNat
  obtain ⟨p₅, h₅, hp⟩ := hp.integer m.opcode.toNat_lt m₀.opcode.toNat
  refine exists_bind h₁ <| exists_bind h₂ <| exists_bind h₃ <| exists_bind h₄ <| exists_bind h₅ ?_
  dsimp only
  simp only [UInt8.ofNat_toNat, UInt16.ofNat_toNat]
  have hsame : ∀ m₁ : ARPMessage, supported { m₁ with
      hardwareType := m.hardwareType
      protocolType := m.protocolType
      hardwareAddressSize := m.hardwareAddressSize
      protocolAddressSize := m.protocolAddressSize
      opcode := m.opcode } = m.supported := fun _ => rfl
  rw [hsame]
  cases hsup : m.supported with
  | false => exact ⟨_, rfl, iff_of_false nofun Bool.false_ne_true, nofun⟩
  | true =>
    obtain ⟨p₆, h₆, hp⟩ := EthernetAddress.parse_of_reads m₀.senderEthernetAddress hp
    obtain ⟨p₇, h₇, hp⟩ := hp.integer m.senderIpAddress.toNat_lt m₀.senderIpAddress.toNat
    obtain ⟨p₈, h₈, hp⟩ := EthernetAddress.parse_of_reads m₀.targetEthernetAddress hp
    obtain ⟨p', h₉, hp⟩ := hp.integer m.targetIpAddress.toNat_lt m₀.targetIpAddress.toNat
    refine exists_bind h₆ <| exists_bind h₇ <| exists_bind h₈ <| exists_bind h₉
      ⟨_, rfl, iff_of_true hp.error rfl, fun _ => ?_⟩
    simp only [UInt32.ofNat_toNat]

/-- Whatever the fields have been before. -/
theorem parse_short (m₀ : ARPMessage) (hp : p.Short 28) :
    ∃ r, parse m₀ p = some r ∧ r.2.error = true := by
  obtain ⟨_, p₁, h₁, hp⟩ := hp.integer 2 m₀.hardwareType.toNat
  obtain ⟨_, p₂, h₂, hp⟩ := hp.integer 2 m₀.protocolType.toNat
  obtain ⟨_, p₃, h₃, hp⟩ := hp.integer 1 m₀.hardwareAddressSize.toNat
  obtain ⟨_, p₄, h₄, hp⟩ := hp.integer 1 m₀.protocolAddressSize.toNat
  obtain ⟨_, p₅, h₅, hp⟩ := hp.integer 2 m₀.opcode.toNat
  refine exists_bind h₁ <| exists_bind h₂ <| exists_bind h₃ <| exists_bind h₄ <| exists_bind h₅ ?_
  dsimp only
  split
  · exact ⟨_, rfl, rfl⟩
  · obtain ⟨_, p₆, h₆, hp⟩ := EthernetAddress.parse_short m₀.senderEthernetAddress hp
    obtain ⟨_, p₇, h₇, hp⟩ := hp.integer 4 m₀.senderIpAddress.toNat
    obtain ⟨_, p₈, h₈, hp⟩ := EthernetAddress.parse_short m₀.targetEthernetAddress hp
    obtain ⟨_, p', h₉, hp⟩ := hp.integer 4 m₀.targetIpAddress.toNat
    exact exists_bind h₆ <| exists_bind h₇ <| exists_bind h₈ <| exists_bind h₉ ⟨_, rfl, hp.error⟩

theorem serialize_eq_none (h : m.supported = false) (s : Serializer) : m.serialize s = none :=
  if_pos (by rw [h]; rfl)

theorem serialize_spec (h : m.supported = true) :
    ∃ s, m.serialize {} = some s ∧ s.output.flatten = m.prologue ++ m.addresses := by
  refine ⟨_, if_neg (by rw [h]; exact Bool.false_ne_true), ?_⟩
  rw [Serializer.flatten_output]
  simp only [Serializer.content_integer, Serializer.content_octets, prologue, addresses,
    List.append_assoc]
  rfl

theorem parse_ofBuffers (m₀ : ARPMessage) {r : ARPMessage × Parser}
    (h : m₀.parse (.ofBuffers bufs) = some r) :
    Parser.parse m₀.parse bufs = some (r.1, !r.2.error) := by
  rw [Parser.parse, h]
  rfl

/-- What is accepted is a request or a reply of 28 bytes, and is serialized to these; what is behind it
does not matter. What can be serialized is parsed to the same message, with anything behind it. -/
theorem arp_round_trip (m₀ : ARPMessage) (hne : ∀ b ∈ bufs, b ≠ []) :
    (∃ m ok, Parser.parse m₀.parse bufs = some (m, ok) ∧
      (ok = true ↔ 28 ≤ bufs.flatten.length ∧ Prologue (bufs.flatten.take 8)) ∧
      (ok = true → ∃ s, m.serialize {} = some s ∧ s.output.flatten = bufs.flatten.take 28)) ∧
    ∀ m s, m.serialize {} = some s → s.output.flatten <+: bufs.flatten →
      Parser.parse m₀.parse bufs = some (m, true) := by
  have hp := Parser.reads_ofBuffers hne
  constructor
  · rcases Nat.lt_or_ge bufs.flatten.length 28 with hlt | hge
    · obtain ⟨r, hr, herr⟩ := parse_short m₀ ⟨_, hp.standsAt, .inr hlt⟩
      refine ⟨r.1, _, parse_ofBuffers m₀ hr, ?_, fun h => ?_⟩
      · rw [herr]
        exact iff_of_false Bool.false_ne_true fun h => Nat.not_le.2 hlt h.1
      · rw [herr] at h
        cases h
    · obtain ⟨m, hm⟩ := exists_bytes (List.length_take_of_le hge)
      have hflat : bufs.flatten = m.prologue ++ (m.addresses ++ bufs.flatten.drop 28) := by
        rw [← List.append_assoc, hm, List.take_append_drop]
      have htake : bufs.flatten.take 8 = m.prologue := by
        rw [hflat, List.take_append_of_le_length m.length_prologue.ge,
          List.take_of_length_le m.length_prologue.le]
      have hreads := hp
      rw [hflat] at hreads
      obtain ⟨r, hr, hiff, hsame⟩ := parse_of_reads m₀ hreads
      rw [htake, ← supported_iff]
      have hok : (!r.2.error) = true ↔ m.supported = true := by
        rw [Bool.not_eq_true', hiff]
      refine ⟨r.1, _, parse_ofBuffers m₀ hr, hok.trans (and_iff_right hge).symm, fun h => ?_⟩
      rw [hsame (hok.1 h), ← hm]
      exact serialize_spec (hok.1 h)
  · rintro m s hs ⟨rest, hrest⟩
    cases hsup : m.supported with
    | false => rw [serialize_eq_none hsup] at hs; cases hs
    | true =>
      obtain ⟨s', hs', hbytes⟩ := serialize_spec hsup
      cases hs.symm.trans hs'
      rw [hbytes, List.append_assoc] at hrest
      rw [← hrest] at hp
      obtain ⟨r, hr, hiff, hsame⟩ := parse_of_reads m₀ hp
      rw [parse_ofBuffers m₀ hr, hsame hsup, hiff.2 hsup]
      rfl

/-- A request in two buffers, padded. -/
theorem arp_round_trip_request : ∃ m : ARPMessage, m.opcode = OPCODE_REQUEST ∧
    Parser.parse (ARPMessage.parse {}) [[0, 1, 8, 0, 6, 4, 0, 1, 2, 0, 0],
      [0, 0, 1, 10, 0, 0, 1, 0, 0, 0, 0, 0, 0, 10, 0, 0, 2, 0, 0, 0]] = some (m, true) := by
  let m : ARPMessage := {
    opcode := OPCODE_REQUEST
    senderEthernetAddress := ⟨[2, 0, 0, 0, 0, 1], rfl⟩
    senderIpAddress := 0x0a000001
    targetIpAddress := 0x0a000002 }
  have hne : ∀ b ∈ ([[0, 1, 8, 0, 6, 4, 0, 1, 2, 0, 0],
      [0, 0, 1, 10, 0, 0, 1, 0, 0, 0, 0, 0, 0, 10, 0, 0, 2, 0, 0, 0]] : List Bytes), b ≠ [] := by
    decide
  exact ⟨m, rfl, (arp_round_trip {} hne).2 m _ rfl (by decide)⟩

end ARPMessage

end Minnow
