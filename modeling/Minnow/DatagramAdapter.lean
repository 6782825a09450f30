import Minnow.TunAdapter

/-!
# Adapters that speak IPv4 (`lossy_fd_adapter.hh`)

Such an adapter only takes messages from datagrams that carry them, and only sends what it has made of a
message (`CarriesDatagrams`). The adapter for a TUN device does, and so does a lossy adapter around one
that does.
-/

namespace Minnow
open Prog

/-- The datagrams that an adapter has taken a message from, and those that it has sent. -/
class DatagramLog (A : Type) where
  accepted : A → List (Bytes × TCPMessage)
  sent : A → List Bytes

open DatagramLog TCPOverIPv4Adapter

/-- From `a` to `a'` the adapter has taken messages from `taken` and has sent `out`. -/
structure Grows {A : Type} [DatagramLog A] (a a' : A) (taken : List (Bytes × TCPMessage))
    (out : List Bytes) : Prop where
  accepted : accepted a' = accepted a ++ taken
  sent : sent a' = sent a ++ out

/-- Nothing is said of calls that fail. -/
class CarriesDatagrams (A κ : Type) (α : outParam Type) [Address α] [TCPDatagramAdapter A κ α]
    [DatagramLog A] : Prop where
  read (a : A) (k : κ) : (TCPDatagramAdapter.read : Act (A × κ) (Option TCPMessage)).wp
    (fun r s => ∃ taken, Grows a s.1 taken [] ∧ (∀ e ∈ taken, Takes α e.1 e.2) ∧
      ∀ m ∈ r, ∃ e ∈ taken, e.2 = m) (fun _ _ => True) (a, k)
  write (msg : TCPMessage) (a : A) (k : κ) : (TCPDatagramAdapter.write msg : Act (A × κ) Unit).wp
    (fun _ s => ∃ out, Grows a s.1 [] out ∧ ∀ b ∈ out, Makes α msg b) (fun _ _ => True) (a, k)
  setConfig (config : FdAdapterConfig α) (a : A) :
    Grows a (TCPDatagramAdapter.setConfig κ config a) [] []
  setListening (listening : Bool) (a : A) :
    Grows a (TCPDatagramAdapter.setListening κ listening a) [] []
  tick (ms : Nat) (a : A) : Grows a (TCPDatagramAdapter.tick κ ms a) [] []

theorem grows_nil {A : Type} [DatagramLog A] {a a' : A} (ha : accepted a' = accepted a)
    (hs : sent a' = sent a) : Grows a a' [] [] := by
  refine ⟨?_, ?_⟩
  · rw [ha, List.append_nil]
  · rw [hs, List.append_nil]

/-! ### The TUN device -/

variable {α κ β : Type}

namespace TCPOverIPv4OverTunFdAdapter

variable [Address α] [Kernel κ]

instance : DatagramLog (TCPOverIPv4OverTunFdAdapter α) := ⟨accepted, sent⟩

theorem read_grows (a : TCPOverIPv4OverTunFdAdapter α) (k : κ) :
    read.wp (fun r s => ∃ taken, Grows a s.1 taken [] ∧ (∀ e ∈ taken, Takes α e.1 e.2) ∧
      ∀ m ∈ r, ∃ e ∈ taken, e.2 = m) (fun _ _ => True) (a, k) := by
  rw [wp_read]
  split
  next data k' heq =>
    split
    · trivial
    next hlen =>
    split
    next r t hr =>
      refine ⟨(r.map fun m => (data, m)).toList, ⟨rfl, (List.append_nil _).symm⟩, fun e he => ?_,
        fun m hm => ?_⟩
      · rw [Option.mem_toList, Option.map_eq_some_iff] at he
        obtain ⟨m, rfl, rfl⟩ := he
        exact ⟨Nat.not_lt.1 hlen, a.tcpOverIP, t, hr⟩
      · rw [Option.mem_def] at hm
        rw [hm]
        exact ⟨(data, m), List.mem_singleton_self _, rfl⟩
    · trivial
  · split <;> trivial
  · trivial

theorem write_grows (msg : TCPMessage) (a : TCPOverIPv4OverTunFdAdapter α) (k : κ) :
    (write msg).wp (fun _ s => ∃ out, Grows a s.1 [] out ∧ ∀ b ∈ out, Makes α msg b)
      (fun _ _ => True) (a, k) := by
  unfold write onTun
  rw [Act.wp_bind, Act.wp_get]
  dsimp only
  cases hwrap : a.tcpOverIP.wrapBuffers msg with
  | none => trivial
  | some buffers =>
    rw [Act.wp_bind, Act.wp_zoom]
    refine Act.wp_of_forall fun n p => ?_
    rw [Act.wp_ite]
    split
    · refine ⟨[buffers.flatten], ⟨(List.append_nil _).symm, rfl⟩, fun b hb => ?_⟩
      exact ⟨a.tcpOverIP, buffers, hwrap, (List.mem_singleton.1 hb).symm⟩
    · exact ⟨[], grows_nil rfl rfl, fun _ h => absurd h List.not_mem_nil⟩

instance : CarriesDatagrams (TCPOverIPv4OverTunFdAdapter α) κ α where
  read := read_grows
  write := write_grows
  setConfig _ _ := grows_nil rfl rfl
  setListening _ _ := grows_nil rfl rfl
  tick _ _ := grows_nil rfl rfl

end TCPOverIPv4OverTunFdAdapter

/-! ### The lossy adapter -/

/-- A random engine, which gives a number and goes on. -/
class RandomEngine (ρ : Type) where
  next : ρ → Nat × ρ

/-- The loss rates in the configuration of an adapter, of the uplink and of the downlink. -/
class LossRates (A : Type) where
  lossRate : (uplink : Bool) → A → UInt16

structure LossyFdAdapter (A ρ : Type) where
  adapter : A
  rand : ρ

namespace LossyFdAdapter

variable {A ρ : Type} [RandomEngine ρ] [LossRates A]

def onInner (call : Act (A × κ) β) : Act (LossyFdAdapter A ρ × κ) β :=
  Act.zoom (fun s => (s.1.adapter, s.2)) (fun t s => ({ s.1 with adapter := t.1 }, t.2)) call

def shouldDrop (uplink : Bool) : Act (LossyFdAdapter A ρ × κ) Bool := do
  let (a, k) ← get
  let loss := LossRates.lossRate uplink a.adapter
  if loss = 0 then return false
  let (r, rand) := RandomEngine.next a.rand
  set ({ a with rand }, k)
  return UInt16.ofNat r < loss

/-- Either way only the engine has moved. -/
theorem wp_shouldDrop {uplink : Bool} {a : LossyFdAdapter A ρ} {k : κ}
    {Q : Bool → LossyFdAdapter A ρ × κ → Prop} {E : Fault → LossyFdAdapter A ρ × κ → Prop}
    (h : ∀ b rand, Q b ({ a with rand }, k)) : (shouldDrop uplink).wp Q E (a, k) := by
  unfold shouldDrop
  rw [Act.wp_bind, Act.wp_get]
  dsimp only
  rw [Act.wp_ite]
  split
  · exact h false a.rand
  · exact h _ _

variable [TCPDatagramAdapter A κ α]

def read : Act (LossyFdAdapter A ρ × κ) (Option TCPMessage) := do
  let ret ← onInner TCPDatagramAdapter.read
  if ← shouldDrop false then return none
  return ret

def write (seg : TCPMessage) : Act (LossyFdAdapter A ρ × κ) Unit := do
  if ← shouldDrop true then return
  onInner (TCPDatagramAdapter.write seg)

instance : TCPDatagramAdapter (LossyFdAdapter A ρ) κ α where
  fd a := TCPDatagramAdapter.fd κ a.adapter
  read := read
  write := write
  setConfig config a := { a with adapter := TCPDatagramAdapter.setConfig κ config a.adapter }
  setListening listening a :=
    { a with adapter := TCPDatagramAdapter.setListening κ listening a.adapter }
  tick ms a := { a with adapter := TCPDatagramAdapter.tick κ ms a.adapter }

/-- What is dropped has been read all the same. -/
theorem obliging (h : TCPDatagramAdapter.Obliging A κ) :
    TCPDatagramAdapter.Obliging (LossyFdAdapter A ρ) κ where
  read a k := by
    obtain ⟨seg, inner, k', heq, hcount⟩ := h.read a.adapter k
    have hread : read.wp (fun _ s => (TCPDatagramAdapter.fd κ s.1.adapter).readCount =
        (TCPDatagramAdapter.fd κ a.adapter).readCount + 1) (fun _ _ => False) (a, k) := by
      unfold read onInner
      rw [Act.wp_bind, Act.wp_zoom]
      refine Act.wp_of_ok heq ?_
      rw [Act.wp_bind]
      refine wp_shouldDrop fun b rand => ?_
      rw [Act.wp_ite]
      split <;> exact hcount
    obtain ⟨r, ⟨a', k'⟩, heq, hcount⟩ := Act.exists_of_wp hread
    exact ⟨r, a', k', heq, hcount⟩
  write msg a k := by
    obtain ⟨inner, k', heq, hcount⟩ := h.write msg a.adapter k
    have hwrite : (write msg).wp (fun _ s => (TCPDatagramAdapter.fd κ s.1.adapter).readCount =
        (TCPDatagramAdapter.fd κ a.adapter).readCount) (fun _ _ => False) (a, k) := by
      unfold write onInner
      rw [Act.wp_bind]
      refine wp_shouldDrop fun b rand => ?_
      rw [Act.wp_ite]
      split
      · rfl
      · rw [Act.wp_zoom]
        exact Act.wp_of_ok heq hcount
    obtain ⟨⟨⟩, ⟨a', k'⟩, heq, hcount⟩ := Act.exists_of_wp hwrite
    exact ⟨a', k', heq, hcount⟩

variable [Address α] [DatagramLog A]

instance : DatagramLog (LossyFdAdapter A ρ) := ⟨(accepted ·.adapter), (sent ·.adapter)⟩

variable [CarriesDatagrams A κ α]

instance : CarriesDatagrams (LossyFdAdapter A ρ) κ α where
  read a k := by
    show read.wp _ _ _
    unfold read onInner
    rw [Act.wp_bind, Act.wp_zoom]
    refine Act.wp_mono (CarriesDatagrams.read a.adapter k) ?_ fun _ _ h => h
    rintro r ⟨inner, k'⟩ ⟨taken, hg, htaken, hr⟩
    rw [Act.wp_bind]
    refine wp_shouldDrop fun b rand => ?_
    rw [Act.wp_ite]
    split
    · exact ⟨taken, ⟨hg.accepted, hg.sent⟩, htaken, fun _ h => by cases h⟩
    · exact ⟨taken, ⟨hg.accepted, hg.sent⟩, htaken, hr⟩
  write msg a k := by
    show (write msg).wp _ _ _
    unfold write onInner
    rw [Act.wp_bind]
    refine wp_shouldDrop fun b rand => ?_
    rw [Act.wp_ite]
    split
    · exact ⟨[], grows_nil rfl rfl, fun _ h => absurd h List.not_mem_nil⟩
    · rw [Act.wp_zoom]
      refine Act.wp_mono (CarriesDatagrams.write msg a.adapter k) ?_ fun _ _ h => h
      rintro - ⟨inner, k'⟩ ⟨out, hg, hout⟩
      exact ⟨out, ⟨hg.accepted, hg.sent⟩, hout⟩
  setConfig config a :=
    have h : Grows a.adapter _ [] [] := CarriesDatagrams.setConfig (κ := κ) config a.adapter
    ⟨h.accepted, h.sent⟩
  setListening listening a :=
    have h : Grows a.adapter _ [] [] := CarriesDatagrams.setListening (κ := κ) listening a.adapter
    ⟨h.accepted, h.sent⟩
  tick ms a :=
    have h : Grows a.adapter _ [] [] := CarriesDatagrams.tick (κ := κ) ms a.adapter
    ⟨h.accepted, h.sent⟩

end LossyFdAdapter

end Minnow
