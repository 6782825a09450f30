import Minnow.ByteStream
import Minnow.Lib.BigEndian

/-!
# Reading and writing wire formats (`parser.hh`)

A parser consumes a list of buffers; what it reads depends only on the bytes left in them
(`Parser.Reads`), wherever the buffers are cut. What a serializer has been given is its `content`.
-/

namespace Minnow
open Prog

theorem bind_of_eq_some {α β : Type} {o : Option α} {a : α} {k : α → Option β} (h : o = some a) :
    (o >>= k) = k a := by rw [h]; rfl

theorem exists_bind {α β : Type} {o : Option α} {a : α} {k : α → Option β} {P : β → Prop} (h : o = some a)
    (hk : ∃ b, k a = some b ∧ P b) : ∃ b, (o >>= k) = some b ∧ P b := by
  obtain ⟨b, hb, hP⟩ := hk
  exact ⟨b, (bind_of_eq_some h).trans hb, hP⟩

structure BufferList where
  size : Nat := 0
  bufs : List Bytes := []
  skip : Nat := 0
deriving Repr, DecidableEq

namespace BufferList

def append (l : BufferList) (str : Bytes) : BufferList :=
  { l with size := l.size + str.length, bufs := l.bufs ++ [str] }

def ofBuffers (buffers : List Bytes) : BufferList := buffers.foldl append {}

/-- `none`: it throws, without a buffer or with `skip` past the end of the first. -/
def peek (l : BufferList) : Option Bytes :=
  match l.bufs with
  | [] => none
  | front :: _ => if l.skip ≤ front.length then some (front.drop l.skip) else none

/-- The loop of `remove_prefix`. A pass that leaves the front buffer in place has used `len` up. -/
def removeLoop : List Bytes → (size skip len : Nat) → BufferList
  | [], size, skip, _ => ⟨size, [], skip⟩
  | front :: rest, size, skip, len =>
    if len = 0 then ⟨size, front :: rest, skip⟩
    else
      let toPopNow := min len (front.length - skip)
      if skip + toPopNow = front.length then removeLoop rest (size - toPopNow) 0 (len - toPopNow)
      else ⟨size - toPopNow, front :: rest, skip + toPopNow⟩

def removePrefix (l : BufferList) (len : Nat) : BufferList := removeLoop l.bufs l.size l.skip len

/-- What is left, buffer by buffer. -/
def buffer (l : BufferList) : List Bytes :=
  if l.size = 0 then []
  else
    match l.bufs with
    | [] => []
    | front :: rest => front.drop l.skip :: rest

/-- The buffers that `buffer` views, moved out. -/
def dumpAll (l : BufferList) : List Bytes := l.buffer

/-- `dump_all` into one string: a single buffer is moved, several are appended. -/
def dumpAllString (l : BufferList) : Bytes :=
  match l.dumpAll with
  | [front] => front
  | concat => concat.flatten

/-- The bytes that are left. -/
def content (l : BufferList) : Bytes := l.bufs.flatten.drop l.skip

structure Wf (l : BufferList) : Prop where
  nonempty : ∀ b ∈ l.bufs, b ≠ []
  skip : ∀ front ∈ l.bufs.head?, l.skip < front.length
  size : l.size = l.content.length

variable {l : BufferList} {bufs : List Bytes} {b : Byte} {bytes : Bytes} {len size skip : Nat}

theorem ofBuffers_eq (bufs : List Bytes) : ofBuffers bufs = ⟨bufs.flatten.length, bufs, 0⟩ := by
  have hfold : ∀ l : BufferList, bufs.foldl append l =
      ⟨l.size + bufs.flatten.length, l.bufs ++ bufs, l.skip⟩ := by
    induction bufs with
    | nil => intro l; simp
    | cons x bufs ih =>
      intro l
      rw [List.foldl_cons, ih, append]
      simp [Nat.add_assoc]
  rw [ofBuffers, hfold]
  simp

theorem wf_ofBuffers (h : ∀ b ∈ bufs, b ≠ []) : (ofBuffers bufs).Wf := by
  rw [ofBuffers_eq]
  refine ⟨h, fun front hf => ?_, rfl⟩
  exact List.length_pos_iff.2 (h front (List.mem_of_mem_head? hf))

theorem content_ofBuffers (bufs : List Bytes) : (ofBuffers bufs).content = bufs.flatten := by
  rw [ofBuffers_eq]; rfl

theorem content_cons (size : Nat) (front : Bytes) (rest : List Bytes) (hs : skip ≤ front.length) :
    (⟨size, front :: rest, skip⟩ : BufferList).content = front.drop skip ++ rest.flatten := by
  rw [content, List.flatten_cons, List.drop_append_of_le_length hs]

theorem Wf.peek (h : l.Wf) (hc : l.content = b :: bytes) : ∃ view, l.peek = some (b :: view) := by
  obtain ⟨size, bufs, skip⟩ := l
  cases bufs with
  | nil => simp [content] at hc
  | cons front rest =>
    have hs := h.skip front rfl
    dsimp only at hs
    rw [content_cons size front rest hs.le] at hc
    have hview : (⟨size, front :: rest, skip⟩ : BufferList).peek = some (front.drop skip) :=
      if_pos hs.le
    rw [hview]
    cases hd : front.drop skip with
    | nil => rw [List.drop_eq_nil_iff] at hd; omega
    | cons x view =>
      rw [hd] at hc
      obtain ⟨rfl, -⟩ := List.cons.inj hc
      exact ⟨view, rfl⟩

theorem peek_prefix {view : Bytes} (hp : l.peek = some view) : view <+: l.content := by
  obtain ⟨size, bufs, skip⟩ := l
  cases bufs with
  | nil => cases hp
  | cons front rest =>
    rw [BufferList.peek] at hp
    dsimp only at hp
    split at hp
    next hs => cases hp; rw [content_cons size front rest hs]; exact List.prefix_append _ _
    next => cases hp

theorem dumpAllString_eq (l : BufferList) : l.dumpAllString = l.dumpAll.flatten := by
  unfold dumpAllString
  split
  next front heq => rw [heq, List.flatten_cons, List.flatten_nil, List.append_nil]
  next => rfl

theorem Wf.removeLoop (h : (⟨size, bufs, skip⟩ : BufferList).Wf) (len : Nat) :
    (BufferList.removeLoop bufs size skip len).Wf ∧
      (BufferList.removeLoop bufs size skip len).content =
        (⟨size, bufs, skip⟩ : BufferList).content.drop len := by
  induction bufs generalizing size skip len with
  | nil => exact ⟨h, by simp [BufferList.removeLoop, content]⟩
  | cons front rest ih =>
    have hs := h.skip front rfl
    have hsize := h.size
    dsimp only at hs hsize
    have hc := content_cons size front rest hs.le
    have hlen : (front.drop skip).length = front.length - skip := List.length_drop
    rw [hc, List.length_append, hlen] at hsize
    rw [BufferList.removeLoop, hc]
    split
    next h0 => exact ⟨h, by rw [hc, h0, List.drop_zero]⟩
    next h0 =>
    dsimp only
    split
    next hend =>
      -- the front buffer is used up
      have hpop : min len (front.length - skip) = front.length - skip := by omega
      rw [hpop]
      have hrest : (⟨size - (front.length - skip), rest, 0⟩ : BufferList).Wf := by
        refine ⟨fun b hb => h.nonempty b (List.mem_cons_of_mem _ hb), fun x hx => ?_, ?_⟩
        · exact List.length_pos_iff.2 (h.nonempty x (List.mem_cons_of_mem _ (List.mem_of_mem_head? hx)))
        · show size - _ = rest.flatten.length
          omega
      obtain ⟨hw, heq⟩ := ih hrest (len - (front.length - skip))
      refine ⟨hw, ?_⟩
      have hnil : (front.drop skip).drop len = [] := List.drop_eq_nil_of_le (by omega)
      rw [heq, List.drop_append, hlen, hnil]
      rfl
    next hend =>
      have hpop : min len (front.length - skip) = len := by omega
      rw [hpop] at hend ⊢
      have hs' : skip + len < front.length := by omega
      have hc' := content_cons (size - len) front rest hs'.le
      refine ⟨⟨h.nonempty, fun x hx => ?_, ?_⟩, ?_⟩
      · cases hx; exact hs'
      · rw [hc', List.length_append, List.length_drop]
        dsimp only
        omega
      · rw [hc', List.drop_append_of_le_length (by omega), List.drop_drop]

theorem Wf.removePrefix (h : l.Wf) (len : Nat) :
    (l.removePrefix len).Wf ∧ (l.removePrefix len).content = l.content.drop len :=
  Wf.removeLoop h len

theorem Wf.buffer (h : l.Wf) : l.buffer.flatten = l.content ∧ ∀ b ∈ l.buffer, b ≠ [] := by
  obtain ⟨size, bufs, skip⟩ := l
  have hsize := h.size
  unfold BufferList.buffer
  split
  next h0 =>
    rw [h0] at hsize
    exact ⟨(List.length_eq_zero_iff.1 hsize.symm).symm, by simp⟩
  next h0 =>
    cases bufs with
    | nil => exact absurd (hsize.trans (by simp [content])) h0
    | cons front rest =>
      have hs := h.skip front rfl
      dsimp only at hs ⊢
      refine ⟨by rw [content_cons size front rest hs.le, List.flatten_cons], fun b hb => ?_⟩
      rcases List.mem_cons.1 hb with rfl | hb
      · rw [Ne, List.drop_eq_nil_iff]; omega
      · exact h.nonempty b (List.mem_cons_of_mem _ hb)

end BufferList

structure Parser where
  input : BufferList
  error : Bool := false
deriving Repr, DecidableEq

namespace Parser

def ofBuffers (input : List Bytes) : Parser := { input := .ofBuffers input }

def hasError (p : Parser) : Bool := p.error

def setError (p : Parser) : Parser := { p with error := true }

def removePrefix (p : Parser) (n : Nat) : Parser := { p with input := p.input.removePrefix n }

def checkSize (p : Parser) (size : Nat) : Parser := if p.input.size < size then p.setError else p

/-- One byte off the front. `none`: there is no buffer, or an empty one is read from. -/
def byte (p : Parser) : Option (Byte × Parser) := do
  let view ← p.input.peek
  let b ← view.head?
  some (b, p.removePrefix 1)

def integerLoop : Nat → Nat → Parser → Option (Nat × Parser)
  | 0, out, p => some (out, p)
  | n + 1, out, p => p.byte.bind fun (b, p) => integerLoop n (out <<< 8 ||| b.toNat) p

/-- `integer` for the unsigned type of `len` bytes. After an error `out` keeps its value. -/
def integer (p : Parser) (len out : Nat) : Option (Nat × Parser) :=
  let p := p.checkSize len
  if p.hasError then some (out, p) else integerLoop len 0 p

/-- One pass of the loop in `string`, which carries what has been copied to `out` and the parser. -/
def stringBody (len : Nat) : Bytes × Parser → Ctl (Bytes × Parser) (Option (Bytes × Parser))
  | (out, p) =>
    if out.length = len then .exit (some (out, p))
    else
      match p.input.peek with
      | none => .exit none
      | some view =>
        let view := view.take (len - out.length)
        .next (out ++ view, p.removePrefix view.length)

/-- `string` into a span. After an error the span keeps its bytes. Every pass but the last copies a
byte. -/
def string (p : Parser) (out : Bytes) : Option (Bytes × Parser) :=
  let p := p.checkSize out.length
  if p.hasError then some (out, p)
  else (loop (stringBody out.length) (out.length + 1) ([], p)).join

def allRemaining (p : Parser) : List Bytes := p.input.dumpAll

def allRemainingString (p : Parser) : Bytes := p.input.dumpAllString

def buffer (p : Parser) : List Bytes := p.input.buffer

/-- The function template `parse`: an object's own `parse` on a new parser, and whether that has no
error in the end. -/
def parse {α : Type} (objParse : Parser → Option (α × Parser)) (buffers : List Bytes) :
    Option (α × Bool) :=
  (objParse (ofBuffers buffers)).map fun (obj, p) => (obj, !p.hasError)

/-- The parser has met no error and `bytes` are left. -/
structure Reads (p : Parser) (bytes : Bytes) : Prop where
  wf : p.input.Wf
  content : p.input.content = bytes
  error : p.error = false

variable {p : Parser} {bytes rest : Bytes} {b : Byte} {len val out : Nat} {bufs : List Bytes}

theorem reads_ofBuffers (h : ∀ b ∈ bufs, b ≠ []) : (ofBuffers bufs).Reads bufs.flatten :=
  ⟨BufferList.wf_ofBuffers h, BufferList.content_ofBuffers bufs, rfl⟩

theorem Reads.removePrefix (h : p.Reads bytes) (n : Nat) : (p.removePrefix n).Reads (bytes.drop n) :=
  have hr := h.wf.removePrefix n
  ⟨hr.1, by rw [← h.content]; exact hr.2, h.error⟩

theorem Reads.byte (h : p.Reads (b :: bytes)) : p.byte = some (b, p.removePrefix 1) := by
  obtain ⟨view, hv⟩ := h.wf.peek h.content
  rw [Parser.byte, hv]
  rfl

theorem Reads.integerLoop (h : p.Reads (bytes ++ rest)) (out : Nat) :
    ∃ p', Parser.integerLoop bytes.length out p = some (ofBigEndian out bytes, p') ∧
      p'.Reads rest := by
  induction bytes generalizing p out with
  | nil => exact ⟨p, rfl, h⟩
  | cons b bytes ih =>
    obtain ⟨p', hp', hr⟩ := ih (h.removePrefix 1) (out <<< 8 ||| b.toNat)
    refine ⟨p', ?_, hr⟩
    rw [List.length_cons, Parser.integerLoop, h.byte, Option.bind_some]
    exact hp'

theorem Reads.checkSize (h : p.Reads bytes) (hlen : len ≤ bytes.length) : p.checkSize len = p := by
  refine if_neg (Nat.not_lt.2 ?_)
  rwa [h.wf.size, h.content]

/-- The next `len` bytes make the integer. -/
theorem Reads.integer_eq (h : p.Reads (bytes ++ rest)) (hlen : bytes.length = len) (out : Nat) :
    ∃ p', p.integer len out = some (ofBigEndian 0 bytes, p') ∧ p'.Reads rest := by
  subst hlen
  obtain ⟨p', hp', hr⟩ := h.integerLoop 0
  refine ⟨p', ?_, hr⟩
  rw [Parser.integer, h.checkSize (by rw [List.length_append]; omega), hasError, h.error]
  exact hp'

theorem Reads.integer_take (h : p.Reads bytes) (hlen : len ≤ bytes.length) (out : Nat) :
    ∃ p', p.integer len out = some (ofBigEndian 0 (bytes.take len), p') ∧ p'.Reads (bytes.drop len) := by
  rw [← List.take_append_drop len bytes] at h
  exact h.integer_eq (List.length_take_of_le hlen) out

theorem Reads.integer_at {i : Nat} (h : p.Reads (bytes.drop i)) (hlen : i + len ≤ bytes.length)
    (out : Nat) : ∃ p', p.integer len out = some (ofBigEndian 0 ((bytes.drop i).take len), p') ∧
      p'.Reads (bytes.drop (i + len)) := by
  rw [← List.drop_drop]
  exact h.integer_take (by rw [List.length_drop]; omega) out

/-- Where an integer of `len` bytes has been written, `integer` reads it back. -/
theorem Reads.integer (h : p.Reads (bigEndian len val ++ rest)) (hval : val < 256 ^ len)
    (out : Nat) : ∃ p', p.integer len out = some (val, p') ∧ p'.Reads rest := by
  obtain ⟨p', hp', hr⟩ := h.integer_eq (length_bigEndian len val) out
  rw [ofBigEndian_of_lt hval] at hp'
  exact ⟨p', hp', hr⟩

theorem Reads.buffer (h : p.Reads bytes) : p.buffer.flatten = bytes ∧ ∀ b ∈ p.buffer, b ≠ [] := by
  rw [← h.content]; exact h.wf.buffer

theorem Reads.allRemaining (h : p.Reads bytes) :
    p.allRemaining.flatten = bytes ∧ ∀ b ∈ p.allRemaining, b ≠ [] := h.buffer

end Parser

structure Serializer where
  out : List Bytes := []
  buf : Bytes := []
deriving Repr, DecidableEq

namespace Serializer

/-- `integer` for the unsigned type of `len` bytes. -/
def integer (s : Serializer) (len val : Nat) : Serializer := { s with buf := s.buf ++ bigEndian len val }

def flush (s : Serializer) : Serializer := if s.buf ≠ [] then { out := s.out ++ [s.buf] } else s

def buffer (s : Serializer) (buf : Bytes) : Serializer :=
  let s := s.flush
  if buf ≠ [] then { s with out := s.out ++ [buf] } else s

def output (s : Serializer) : List Bytes := s.flush.out

/-- The bytes given so far. -/
def content (s : Serializer) : Bytes := s.out.flatten ++ s.buf

/-- No buffer of the output is empty. -/
def Wf (s : Serializer) : Prop := ∀ b ∈ s.out, b ≠ []

variable {s : Serializer} {buf : Bytes} {len val : Nat}

theorem flush_spec (s : Serializer) :
    s.flush.content = s.content ∧ s.flush.buf = [] ∧ (s.Wf → s.flush.Wf) := by
  unfold flush
  split
  next h =>
    refine ⟨by simp [content], rfl, fun hw b hb => ?_⟩
    rcases List.mem_append.1 hb with hb | hb
    · exact hw b hb
    · rw [List.mem_singleton.1 hb]; exact h
  next h => exact ⟨rfl, by simpa using h, id⟩

@[simp] theorem content_integer (s : Serializer) (len val : Nat) :
    (s.integer len val).content = s.content ++ bigEndian len val := by
  rw [content, content, integer, List.append_assoc]

@[simp] theorem content_buffer (s : Serializer) (buf : Bytes) :
    (s.buffer buf).content = s.content ++ buf := by
  obtain ⟨hc, hb, -⟩ := s.flush_spec
  rw [content, hb, List.append_nil] at hc
  unfold buffer
  dsimp only
  split
  · rw [← hc, content, hb]; simp
  next h =>
    have hnil : buf = [] := by simpa using h
    rw [← hc, content, hb, hnil]

theorem Wf.buffer (h : s.Wf) (buf : Bytes) : (s.buffer buf).Wf := by
  have hf := s.flush_spec.2.2 h
  unfold Serializer.buffer
  dsimp only
  split
  next hne =>
    intro b hb
    rcases List.mem_append.1 hb with hb | hb
    · exact hf b hb
    · rw [List.mem_singleton.1 hb]; exact hne
  next => exact hf

theorem wf_new : Wf {} := fun b h => by cases h

theorem flatten_output (s : Serializer) : s.output.flatten = s.content := by
  obtain ⟨hc, hb, -⟩ := s.flush_spec
  rw [content, hb, List.append_nil] at hc
  exact hc

theorem Wf.output (h : s.Wf) : ∀ b ∈ s.output, b ≠ [] := s.flush_spec.2.2 h

end Serializer

end Minnow
