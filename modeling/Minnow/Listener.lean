import Minnow.TCPGrammar
import Minnow.TCPOverIP

/-!
# The listener and its peer (`tcp_over_ip.cc`)

While it listens, the adapter gives no message and stays as it is, until a datagram opens a connection.
Then it takes that datagram's addresses and ports, and gives messages from that peer only
(`run_latches`).
-/

namespace Minnow.TCPOverIPv4Adapter
open Prog Address

variable {α : Type}

/-- A datagram, the message that `unwrap_tcp_in_ip` has given for it, and the adapter after that. -/
structure Step (α : Type) where
  datagram : IPv4Datagram
  message : Option TCPMessage
  after : TCPOverIPv4Adapter α

/-- The payload is a valid TCP segment. -/
structure Carries (d : IPv4Datagram) (seg : TCPSegment) : Prop where
  proto : d.header.proto = IPv4Header.PROTO_TCP
  parse : Parser.parse (TCPSegment.parse d.header.pseudoChecksum {}) d.payload = some (seg, true)

theorem Carries.unique {d : IPv4Datagram} {seg seg' : TCPSegment} (h : Carries d seg)
    (h' : Carries d seg') : seg = seg' := by
  cases h.parse.symm.trans h'.parse
  rfl

variable [Address α]

/-- The datagrams one after the other. `none`: undefined behaviour in the parser. -/
def run (t : TCPOverIPv4Adapter α) : List IPv4Datagram → Option (List (Step α))
  | [] => some []
  | d :: ds => do
    let (message, after) ← t.unwrapTcpInIp d
    let steps ← after.run ds
    some ({ datagram := d, message, after } :: steps)

/-- A valid segment for the local port, with SYN and without RST. -/
structure Opens (t : TCPOverIPv4Adapter α) (d : IPv4Datagram) (seg : TCPSegment) : Prop where
  carries : Carries d seg
  port : seg.udinfo.dstPort = port t.config.source
  SYN : seg.message.sender.SYN = true
  RST : seg.message.sender.RST = false

/-- The adapter with the datagram's addresses and ports. -/
def latch (t : TCPOverIPv4Adapter α) (d : IPv4Datagram) (seg : TCPSegment) :
    TCPOverIPv4Adapter α where
  config :=
    { source := ofNumeric d.header.dst (port t.config.source)
      destination := ofNumeric d.header.src seg.udinfo.srcPort }
  listening := false

/-- Addresses and ports are those of `t`. -/
structure FromPeer (t : TCPOverIPv4Adapter α) (d : IPv4Datagram) (seg : TCPSegment) : Prop where
  carries : Carries d seg
  dst : d.header.dst = ipv4Numeric t.config.source
  src : d.header.src = ipv4Numeric t.config.destination
  dstPort : seg.udinfo.dstPort = port t.config.source
  srcPort : seg.udinfo.srcPort = port t.config.destination

/-- A step that opens nothing, gives nothing and leaves `t` alone. -/
structure Ignored (t : TCPOverIPv4Adapter α) (s : Step α) : Prop where
  opens : ∀ seg, ¬ t.Opens s.datagram seg
  message : s.message = none
  after : s.after = t

/-- A step of a connected adapter: it leaves `t` alone, and a message comes from the peer. -/
structure Kept (t : TCPOverIPv4Adapter α) (s : Step α) : Prop where
  after : s.after = t
  message : ∀ msg, s.message = some msg → ∃ seg, t.FromPeer s.datagram seg ∧ msg = seg.message

variable {t t' : TCPOverIPv4Adapter α} {d : IPv4Datagram} {ds : List IPv4Datagram}
  {m : Option TCPMessage} {steps : List (Step α)}

/-! ### One datagram -/

/-- The datagram passes every check but that of the peer's port, which comes last. -/
structure Passes (t : TCPOverIPv4Adapter α) (d : IPv4Datagram) (seg : TCPSegment) : Prop where
  carries : Carries d seg
  port : seg.udinfo.dstPort = port t.config.source
  connected : t.listening = false →
    d.header.dst = ipv4Numeric t.config.source ∧ d.header.src = ipv4Numeric t.config.destination
  opening : t.listening = true → seg.message.sender.SYN = true ∧ seg.message.sender.RST = false

/-- All that a call can do. -/
theorem unwrap_cases (h : t.unwrapTcpInIp d = some (m, t')) :
    ((∀ seg, ¬ t.Passes d seg) ∧ m = none ∧ t' = t) ∨
    ∃ seg, t.Passes d seg ∧ t' = (if t.listening then t.latch d seg else t) ∧
      m = if seg.udinfo.srcPort ≠ Address.port t'.config.destination then none
        else some seg.message := by
  unfold unwrapTcpInIp at h
  by_cases hdst : t.listening = false ∧ d.header.dst ≠ ipv4Numeric t.config.source
  · rw [if_pos hdst] at h
    cases h
    exact .inl ⟨fun seg hp => hdst.2 (hp.connected hdst.1).1, rfl, rfl⟩
  by_cases hsrc : t.listening = false ∧ d.header.src ≠ ipv4Numeric t.config.destination
  · rw [if_neg hdst, if_pos hsrc] at h
    cases h
    exact .inl ⟨fun seg hp => hsrc.2 (hp.connected hsrc.1).2, rfl, rfl⟩
  by_cases hproto : d.header.proto = IPv4Header.PROTO_TCP
  swap
  · rw [if_neg hdst, if_neg hsrc, if_pos hproto] at h
    cases h
    exact .inl ⟨fun seg hp => hproto hp.carries.proto, rfl, rfl⟩
  rw [if_neg hdst, if_neg hsrc, if_neg (not_not_intro hproto)] at h
  cases hparse : Parser.parse (TCPSegment.parse d.header.pseudoChecksum {}) d.payload with
  | none => rw [hparse] at h; cases h
  | some r =>
    obtain ⟨seg, valid⟩ := r
    rw [bind_of_eq_some hparse] at h
    dsimp only at h
    cases valid with
    | false =>
      cases h
      refine .inl ⟨fun seg hp => ?_, rfl, rfl⟩
      cases hparse.symm.trans hp.carries.parse
    | true =>
      have hcarries : Carries d seg := ⟨hproto, hparse⟩
      rw [if_neg (show ¬ true = false from nofun)] at h
      by_cases hport : seg.udinfo.dstPort = Address.port t.config.source
      swap
      · rw [if_pos hport] at h
        cases h
        exact .inl ⟨fun seg' hp => hport (hcarries.unique hp.carries ▸ hp.port), rfl, rfl⟩
      by_cases hsyn : t.listening = true ∧
          ¬ (seg.message.sender.SYN = true ∧ seg.message.sender.RST = false)
      · rw [if_neg (not_not_intro hport), if_pos hsyn] at h
        cases h
        refine .inl ⟨fun seg' hp => hsyn.2 ?_, rfl, rfl⟩
        rw [hcarries.unique hp.carries]
        exact hp.opening hsyn.1
      rw [if_neg (not_not_intro hport), if_neg hsyn] at h
      refine .inr ⟨seg, ⟨hcarries, hport, fun hl => ?_, fun hl => ?_⟩, ?_⟩
      · exact ⟨not_not.1 fun hne => hdst ⟨hl, hne⟩, not_not.1 fun hne => hsrc ⟨hl, hne⟩⟩
      · exact not_not.1 fun hne => hsyn ⟨hl, hne⟩
      · by_cases hl : t.listening = true
        · rw [if_pos hl] at h ⊢
          split at h
          next hsp => cases h; exact ⟨rfl, (if_pos hsp).symm⟩
          next hsp => cases h; exact ⟨rfl, (if_neg hsp).symm⟩
        · rw [if_neg hl] at h ⊢
          split at h
          next hsp => cases h; exact ⟨rfl, (if_pos hsp).symm⟩
          next hsp => cases h; exact ⟨rfl, (if_neg hsp).symm⟩

/-- While listening: the peer's port is checked against the one that has just been taken. -/
theorem unwrap_listening [LawfulAddress α] (hl : t.listening = true)
    (h : t.unwrapTcpInIp d = some (m, t')) :
    t.Ignored ⟨d, m, t'⟩ ∨ ∃ seg, t.Opens d seg ∧ m = some seg.message ∧ t' = t.latch d seg := by
  rcases unwrap_cases h with ⟨hno, hm, ht⟩ | ⟨seg, hp, ht, hm⟩
  · refine .inl ⟨fun seg ho => hno seg ⟨ho.carries, ho.port, fun hf => ?_, fun _ => ⟨ho.SYN, ho.RST⟩⟩,
      hm, ht⟩
    rw [hl] at hf
    cases hf
  · rw [if_pos hl] at ht
    have hport : Address.port t'.config.destination = seg.udinfo.srcPort := by
      rw [ht]
      exact LawfulAddress.port_ofNumeric _ _
    rw [if_neg (not_not_intro hport.symm)] at hm
    exact .inr ⟨seg, ⟨hp.carries, hp.port, (hp.opening hl).1, (hp.opening hl).2⟩, hm, ht⟩

theorem unwrap_connected (hl : t.listening = false) (h : t.unwrapTcpInIp d = some (m, t')) :
    t.Kept ⟨d, m, t'⟩ := by
  rcases unwrap_cases h with ⟨-, rfl, rfl⟩ | ⟨seg, hp, ht, hm⟩
  · exact ⟨rfl, nofun⟩
  · rw [hl, if_neg Bool.false_ne_true] at ht
    subst ht
    refine ⟨rfl, fun msg hmsg => ?_⟩
    by_cases hsp : seg.udinfo.srcPort = Address.port t'.config.destination
    swap
    · rw [if_pos hsp] at hm
      cases hm.symm.trans hmsg
    rw [if_neg (not_not_intro hsp)] at hm
    cases hm.symm.trans hmsg
    exact ⟨seg, ⟨hp.carries, (hp.connected hl).1, (hp.connected hl).2, hp.port, hsp⟩, rfl⟩

/-- What opens a connection is from the peer that is then taken. -/
theorem Opens.fromPeer [LawfulAddress α] {seg : TCPSegment} (h : t.Opens d seg) :
    (t.latch d seg).FromPeer d seg where
  carries := h.carries
  dst := (LawfulAddress.ipv4Numeric_ofNumeric _ _).symm
  src := (LawfulAddress.ipv4Numeric_ofNumeric _ _).symm
  dstPort := h.port.trans (LawfulAddress.port_ofNumeric _ _).symm
  srcPort := (LawfulAddress.port_ofNumeric _ _).symm

/-- No call is undefined, as long as no buffer of the payload is empty. -/
theorem unwrap_isSome (t : TCPOverIPv4Adapter α) (hne : ∀ b ∈ d.payload, b ≠ []) :
    ∃ r, t.unwrapTcpInIp d = some r := by
  obtain ⟨r, hr⟩ := TCPSegment.parse_isSome d.header.pseudoChecksum {} (Parser.reads_ofBuffers hne)
  have hparse : Parser.parse (TCPSegment.parse d.header.pseudoChecksum {}) d.payload =
      some (r.1, !r.2.hasError) := by rw [Parser.parse, hr]; rfl
  have hite : ∀ (c : Prop) [Decidable c] (x : Option TCPMessage × TCPOverIPv4Adapter α)
      {o : Option (Option TCPMessage × TCPOverIPv4Adapter α)}, (∃ r, o = some r) →
      ∃ r, (if c then some x else o) = some r := by
    intro c _ x o ho
    split
    · exact ⟨x, rfl⟩
    · exact ho
  unfold unwrapTcpInIp
  rw [bind_of_eq_some hparse]
  exact hite _ _ <| hite _ _ <| hite _ _ <| hite _ _ <| hite _ _ <| hite _ _ <| hite _ _ ⟨_, rfl⟩

/-! ### Runs -/

theorem run_cons (h : t.run (d :: ds) = some steps) : ∃ m t' rest, t.unwrapTcpInIp d = some (m, t') ∧
    t'.run ds = some rest ∧ steps = ⟨d, m, t'⟩ :: rest := by
  rw [run] at h
  cases hu : t.unwrapTcpInIp d with
  | none => rw [hu] at h; cases h
  | some r =>
    obtain ⟨m, t'⟩ := r
    rw [bind_of_eq_some hu] at h
    dsimp only at h
    cases hr : t'.run ds with
    | none => rw [hr] at h; cases h
    | some rest =>
      rw [bind_of_eq_some hr] at h
      cases h
      exact ⟨m, t', rest, rfl, hr, rfl⟩

theorem run_isSome (t : TCPOverIPv4Adapter α) (hne : ∀ d ∈ ds, ∀ b ∈ d.payload, b ≠ []) :
    ∃ steps, t.run ds = some steps := by
  induction ds generalizing t with
  | nil => exact ⟨[], rfl⟩
  | cons d ds ih =>
    obtain ⟨⟨m, t'⟩, hu⟩ := t.unwrap_isSome (hne d List.mem_cons_self)
    obtain ⟨steps, hr⟩ := ih t' fun d' hd => hne d' (List.mem_cons_of_mem d hd)
    exact ⟨_, (bind_of_eq_some hu).trans (bind_of_eq_some hr)⟩

theorem run_datagrams (h : t.run ds = some steps) : steps.map Step.datagram = ds := by
  induction ds generalizing t steps with
  | nil => cases h; rfl
  | cons d ds ih =>
    obtain ⟨m, t', rest, -, hr, rfl⟩ := run_cons h
    rw [List.map_cons, ih hr]

/-- A connected adapter stays as it is. -/
theorem run_connected (hl : t.listening = false) (h : t.run ds = some steps) : ∀ s ∈ steps, t.Kept s := by
  induction ds generalizing steps with
  | nil => cases h; exact List.forall_mem_nil _
  | cons d ds ih =>
    obtain ⟨m, t', rest, hu, hr, rfl⟩ := run_cons h
    have hk := unwrap_connected hl hu
    obtain rfl : t' = t := hk.after
    intro s hs
    rcases List.mem_cons.1 hs with rfl | hs
    · exact hk
    · exact ih hr s hs

/-- A listener ignores datagrams until one opens a connection, takes its peer and keeps it. -/
theorem run_latches [LawfulAddress α] {t : TCPOverIPv4Adapter α} (hl : t.listening = true)
    (ds : List IPv4Datagram) :
    ((∀ d ∈ ds, ∀ b ∈ d.payload, b ≠ []) → ∃ steps, t.run ds = some steps) ∧
    ∀ steps, t.run ds = some steps → steps.map Step.datagram = ds ∧
      ((∀ s ∈ steps, t.Ignored s) ∨
        ∃ pre s post seg, steps = pre ++ s :: post ∧ (∀ s' ∈ pre, t.Ignored s') ∧
          t.Opens s.datagram seg ∧ s.message = some seg.message ∧
          ∀ s' ∈ s :: post, (t.latch s.datagram seg).Kept s') := by
  refine ⟨t.run_isSome, fun steps hrun => ⟨run_datagrams hrun, ?_⟩⟩
  induction ds generalizing steps with
  | nil => cases hrun; exact .inl (List.forall_mem_nil _)
  | cons d ds ih =>
    obtain ⟨m, t', rest, hu, hr, rfl⟩ := run_cons hrun
    rcases unwrap_listening hl hu with hign | ⟨seg, ho, hm, ht⟩
    · obtain rfl : t' = t := hign.after
      rcases ih rest hr with hall | ⟨pre, s, post, seg, rfl, hpre, hs⟩
      · exact .inl (List.forall_mem_cons.2 ⟨hign, hall⟩)
      · exact .inr ⟨_ :: pre, s, post, seg, rfl, List.forall_mem_cons.2 ⟨hign, hpre⟩, hs⟩
    · refine .inr ⟨[], _, rest, seg, rfl, List.forall_mem_nil _, ho, hm, ?_⟩
      refine List.forall_mem_cons.2 ⟨⟨ht, fun msg hmsg => ⟨seg, ho.fromPeer, ?_⟩⟩, ?_⟩
      · cases hm.symm.trans hmsg
        rfl
      · rw [ht] at hr
        exact run_connected rfl hr

/-- A datagram that is not TCP, and a SYN from port 5000 to the listener's port 80. -/
theorem run_latches_syn :
    let t : TCPOverIPv4Adapter (UInt32 × UInt16) := ⟨⟨(0, 80), (0, 0)⟩, true⟩
    ∃ d steps s, t.run [{ header := { proto := 17 } }, d] = some steps ∧ s ∈ steps ∧
      s.message.isSome ∧ s.after = ⟨⟨(0x0a000002, 80), (0x0a000001, 5000)⟩, false⟩ := by
  intro t
  let peer : TCPOverIPv4Adapter (UInt32 × UInt16) := ⟨⟨(0x0a000001, 5000), (0x0a000002, 80)⟩, false⟩
  let msg : TCPMessage := { sender := { seqno := ⟨7⟩, SYN := true } }
  obtain ⟨h, seg, -, -, ⟨hsrc, hdst, hproto⟩, ⟨hmsg, hsp, hdp⟩, hvalue⟩ :=
    peer.wrap_spec (show msg.sender.payload.length ≤ 65495 from Nat.zero_le _)
  let udp : IPv4Datagram := { header := { proto := 17 } }
  let d : IPv4Datagram := ⟨h, (seg.serialize {}).output⟩
  have hne := (seg.wf_serialize Serializer.wf_new).output
  have hopens : t.Opens d ⟨msg.orRST, seg.udinfo⟩ := by
    have hreads := Parser.reads_ofBuffers hne
    rw [Serializer.flatten_output, TCPSegment.content_serialize] at hreads
    obtain ⟨p, hparse, herr⟩ := TCPSegment.parse_of_reads hvalue hreads
    refine ⟨⟨hproto, ?_⟩, hdp, rfl, rfl⟩
    rw [Parser.parse, hparse, Option.map_some, hmsg]
    show some (_, !p.error) = _
    rw [herr]
    rfl
  obtain ⟨hdef, hall⟩ := run_latches (t := t) rfl [udp, d]
  obtain ⟨steps, hrun⟩ := hdef fun d' hd => by
    rcases List.mem_cons.1 hd with rfl | hd
    · exact List.forall_mem_nil _
    · rw [List.mem_singleton.1 hd]; exact hne
  obtain ⟨hds, hcases⟩ := hall steps hrun
  have hmem : ∀ s ∈ steps, s.datagram = udp ∨ s.datagram = d := by
    intro s hs
    have hin := List.mem_map_of_mem (f := Step.datagram) hs
    rw [hds] at hin
    simpa using hin
  rcases hcases with hign | ⟨pre, s, post, seg', rfl, -, ho, hm, hkept⟩
  · obtain ⟨s, hs, hsd⟩ : ∃ s ∈ steps, s.datagram = d := by
      rw [← List.mem_map, hds]
      simp
    exact absurd (hsd ▸ hopens) ((hign s hs).opens _)
  · have hs := List.mem_append_right pre (List.mem_cons_self (a := s) (l := post))
    refine ⟨d, _, s, hrun, hs, by rw [hm]; rfl, ?_⟩
    rcases hmem s hs with heq | heq
    · have hp := ho.carries.proto
      rw [heq] at hp
      exact absurd hp (by decide)
    · rw [heq] at ho hkept
      cases ho.carries.unique hopens.carries
      rw [(hkept s List.mem_cons_self).after, latch, hsp]
      show (⟨⟨(h.dst, 80), (h.src, 5000)⟩, false⟩ : TCPOverIPv4Adapter (UInt32 × UInt16)) = _
      rw [hdst, hsrc]
      rfl

end Minnow.TCPOverIPv4Adapter
