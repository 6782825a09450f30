import Minnow.InternetChecksum
import Minnow.Lib.Cursor
import Minnow.Parser

/-!
# A parser and the bytes it reads

Whatever the buffers are, a parser does what a cursor on their bytes does (`Parser.StandsAt`), so where
the bytes are cut makes no difference to what any sequence of its operations gives
(`Parser.run_split`).
-/

namespace Minnow
open Prog

namespace Parser

/-- One operation after the other. -/
def run : List Cursor.Op → Parser → Option (List Cursor.Value × Parser)
  | [], p => some ([], p)
  | .int len old :: ops, p => do
    let (n, p) ← p.integer len old
    let (values, p) ← run ops p
    some (.int n :: values, p)
  | .str old :: ops, p => do
    let (bytes, p) ← p.string old
    let (values, p) ← run ops p
    some (.str bytes :: values, p)
  | .skip n :: ops, p => run ops (p.removePrefix n)

/-- The buffers hold the bytes that are left to the cursor, and the error flags are the same. -/
structure StandsAt (p : Parser) (c : Cursor) : Prop where
  wf : p.input.Wf
  content : p.input.content = c.left
  error : p.error = c.error

variable {p : Parser} {c : Cursor} {bufs bufs' : List Bytes} {bytes : Bytes} {out : Bytes} {n len old : Nat}

theorem Reads.standsAt (h : p.Reads bytes) : p.StandsAt { left := bytes } := ⟨h.wf, h.content, h.error⟩

theorem StandsAt.reads (h : p.StandsAt c) (herr : c.error = false) : p.Reads c.left :=
  ⟨h.wf, h.content, h.error.trans herr⟩

theorem StandsAt.checkSize (h : p.StandsAt c) (n : Nat) : (p.checkSize n).StandsAt (c.need n) := by
  have hsize : p.input.size = c.left.length := by rw [h.wf.size, h.content]
  unfold Parser.checkSize Cursor.need
  rw [hsize]
  split
  · exact ⟨h.wf, h.content, rfl⟩
  · exact h

theorem StandsAt.removePrefix (h : p.StandsAt c) (n : Nat) :
    (p.removePrefix n).StandsAt (c.skip n) :=
  have hr := h.wf.removePrefix n
  ⟨hr.1, hr.2.trans (congrArg (List.drop n) h.content), h.error⟩

/-- After the check either there is an error, or the bytes that are wanted are there. -/
theorem StandsAt.next_cases (h : p.StandsAt c) (n : Nat) :
    ((p.checkSize n).hasError = true ∧ c.next n = (none, c.need n)) ∨
    ((p.checkSize n).hasError = false ∧ p.checkSize n = p ∧ c.error = false ∧ n ≤ c.left.length ∧
      c.next n = (some (c.left.take n), c.skip n)) := by
  have hc := h.checkSize n
  cases herr : (c.need n).error with
  | true => exact .inl ⟨hc.error.trans herr, if_pos herr⟩
  | false =>
    have hok := mt Cursor.need_error.2 (by rw [herr]; exact Bool.false_ne_true)
    rw [not_or, Nat.not_lt] at hok
    have hcerr := Bool.eq_false_iff.2 hok.1
    exact .inr ⟨hc.error.trans herr, (h.reads hcerr).checkSize hok.2, hcerr, hok.2,
      Cursor.next_of_le hcerr hok.2⟩

theorem StandsAt.integer (h : p.StandsAt c) (len old : Nat) :
    ∃ p', p.integer len old = some ((c.int len old).1, p') ∧ p'.StandsAt (c.int len old).2 := by
  unfold Cursor.int
  rcases h.next_cases len with ⟨herr, hnext⟩ | ⟨-, -, hc, hlen, hnext⟩ <;> rw [hnext]
  · exact ⟨p.checkSize len, if_pos herr, h.checkSize len⟩
  · obtain ⟨p', hp', hr'⟩ := (h.reads hc).integer_take hlen old
    exact ⟨p', hp', hr'.wf, hr'.content, hr'.error.trans hc.symm⟩

/-- Fewer than `n` bytes are left, or there has been an error. -/
def Short (p : Parser) (n : Nat) : Prop := ∃ c, p.StandsAt c ∧ c.Short n

theorem Short.integer (h : p.Short n) (len old : Nat) :
    ∃ val p', p.integer len old = some (val, p') ∧ p'.Short (n - len) := by
  obtain ⟨c, hs, hc⟩ := h
  obtain ⟨p', hp', hs'⟩ := hs.integer len old
  exact ⟨_, p', hp', _, hs', hc.next len⟩

theorem Short.error (h : p.Short 0) : p.error = true := by
  obtain ⟨c, hs, hc⟩ := h
  exact hs.error.trans hc.error

/-- The first bytes have been copied to `out`, and `p` stands behind them. -/
structure Copied (c : Cursor) (len : Nat) (out : Bytes) (p : Parser) : Prop where
  standsAt : p.StandsAt (c.skip out.length)
  bytes : out = c.left.take out.length
  le : out.length ≤ len

/-- A pass of the loop in `string` copies something while bytes are wanted. -/
theorem Copied.cases (h : Copied c len out p) (hlen : len ≤ c.left.length) :
    (out.length = len ∧ stringBody len (out, p) = .exit (some (out, p))) ∨
    ∃ out' p', stringBody len (out, p) = .next (out', p') ∧ Copied c len out' p' ∧
      out.length < out'.length := by
  by_cases heq : out.length = len
  · exact .inl ⟨heq, if_pos heq⟩
  have hlt := Nat.lt_of_le_of_ne h.le heq
  have hcontent : p.input.content = c.left.drop out.length := h.standsAt.content
  obtain ⟨b, rest, hb⟩ : ∃ b rest, p.input.content = b :: rest :=
    List.exists_cons_of_ne_nil fun hnil => by
      rw [hcontent, List.drop_eq_nil_iff] at hnil; omega
  obtain ⟨view, hview⟩ := h.standsAt.wf.peek hb
  have hpre := (List.take_prefix (len - out.length) (b :: view)).trans
    (BufferList.peek_prefix hview)
  rw [hcontent] at hpre
  have htake := List.prefix_iff_eq_take.1 hpre
  have hskip := h.standsAt.removePrefix ((b :: view).take (len - out.length)).length
  have hk : ((b :: view).take (len - out.length)).length =
      min (len - out.length) (view.length + 1) := List.length_take
  refine .inr ⟨out ++ (b :: view).take (len - out.length),
    p.removePrefix ((b :: view).take (len - out.length)).length, ?_, ⟨?_, ?_, ?_⟩, ?_⟩
  · rw [stringBody, if_neg heq, hview]
  · rw [List.length_append]
    unfold Cursor.skip at hskip ⊢
    rwa [List.drop_drop] at hskip
  · rw [List.length_append, List.take_add, ← h.bytes, ← htake]
  · rw [List.length_append]; omega
  · rw [List.length_append]; omega

theorem StandsAt.stringLoop (h : p.StandsAt c) (hlen : len ≤ c.left.length) :
    ∃ p', loop (stringBody len) (len + 1) ([], p) = some (some (c.left.take len, p')) ∧
      p'.StandsAt (c.skip len) := by
  have hloop : ∃ r, loop (stringBody len) (len + 1) ([], p) = some r ∧
      ∃ p', r = some (c.left.take len, p') ∧ p'.StandsAt (c.skip len) := by
    refine loop_total (fun q : Bytes × Parser => Copied c len q.1 q.2)
      (fun r => ∃ p' : Parser, r = some (c.left.take len, p') ∧ p'.StandsAt (c.skip len))
      (fun q => len - q.1.length) ?_ ?_ ?_ ⟨h, rfl, Nat.zero_le _⟩ (Nat.lt_succ_self _)
    · rintro ⟨out, p⟩ ⟨out', p'⟩ hi hb
      obtain ⟨-, hb'⟩ | ⟨out₁, p₁, hb', hi', hlt⟩ := hi.cases hlen <;> cases hb'.symm.trans hb
      have hle := hi'.le
      dsimp only at hlt
      exact ⟨hi', by dsimp only; omega⟩
    · rintro ⟨out, p⟩ r hi hb
      obtain ⟨heq, hb'⟩ | ⟨out₁, p₁, hb', -⟩ := hi.cases hlen <;> cases hb'.symm.trans hb
      have hout := hi.bytes
      have hstands := hi.standsAt
      dsimp only at hout hstands
      rw [heq] at hout hstands
      exact ⟨p, by rw [hout], hstands⟩
    · rintro ⟨out, p⟩ hi hb
      obtain ⟨-, hb'⟩ | ⟨out₁, p₁, hb', -⟩ := hi.cases hlen <;> cases hb'.symm.trans hb
  obtain ⟨r, hr, p', rfl, hp'⟩ := hloop
  exact ⟨p', hr, hp'⟩

theorem StandsAt.string (h : p.StandsAt c) (old : Bytes) :
    ∃ p', p.string old = some ((c.str old).1, p') ∧ p'.StandsAt (c.str old).2 := by
  unfold Cursor.str Parser.string
  rcases h.next_cases old.length with ⟨herr, hnext⟩ | ⟨hok, hcheck, -, hlen, hnext⟩ <;> rw [hnext]
  · exact ⟨p.checkSize old.length, if_pos herr, h.checkSize old.length⟩
  · obtain ⟨p', hloop, hp'⟩ := h.stringLoop hlen
    refine ⟨p', ?_, hp'⟩
    dsimp only
    rw [hok, if_neg Bool.false_ne_true, hcheck, hloop]
    rfl

/-- No operation reads from an empty buffer, and each gives what the cursor gives. -/
theorem StandsAt.run (h : p.StandsAt c) (ops : List Cursor.Op) :
    ∃ p', Parser.run ops p = some ((Cursor.run ops c).1, p') ∧ p'.StandsAt (Cursor.run ops c).2 := by
  induction ops generalizing p c with
  | nil => exact ⟨p, rfl, h⟩
  | cons op ops ih =>
    cases op with
    | int len old =>
      obtain ⟨p₁, h₁, hs⟩ := h.integer len old
      obtain ⟨p', h', hs'⟩ := ih hs
      exact ⟨p', (bind_of_eq_some h₁).trans (bind_of_eq_some h'), hs'⟩
    | str old =>
      obtain ⟨p₁, h₁, hs⟩ := h.string old
      obtain ⟨p', h', hs'⟩ := ih hs
      exact ⟨p', (bind_of_eq_some h₁).trans (bind_of_eq_some h'), hs'⟩
    | skip n => exact ih (h.removePrefix n)

/-- Both ways to take all that remains give the bytes that are left. -/
theorem StandsAt.allRemaining (h : p.StandsAt c) :
    p.allRemaining.flatten = c.left ∧ p.allRemainingString = c.left := by
  have hflat : p.allRemaining.flatten = c.left := h.content ▸ h.wf.buffer.1
  exact ⟨hflat, p.input.dumpAllString_eq.trans hflat⟩

/-- However the bytes are cut into buffers, the operations give the values, the error flag and the
remainder that they give on the bytes themselves; and so does the checksum. -/
theorem run_split (hne : ∀ b ∈ bufs, b ≠ []) (hne' : ∀ b ∈ bufs', b ≠ []) (hflat : bufs.flatten = bytes)
    (hflat' : bufs'.flatten = bytes) (ops : List Cursor.Op) (check : InternetChecksum) :
    ∃ p p' : Parser,
      run ops (.ofBuffers bufs) = some ((Cursor.run ops { left := bytes }).1, p) ∧
      run ops (.ofBuffers bufs') = some ((Cursor.run ops { left := bytes }).1, p') ∧
      p.hasError = (Cursor.run ops { left := bytes }).2.error ∧ p'.hasError = p.hasError ∧
      p.allRemaining.flatten = (Cursor.run ops { left := bytes }).2.left ∧
      p'.allRemaining.flatten = p.allRemaining.flatten ∧
      p.allRemainingString = p.allRemaining.flatten ∧
      p'.allRemainingString = p.allRemaining.flatten ∧
      check.addAll bufs = check.add bytes ∧ check.addAll bufs' = check.add bytes := by
  have hreads := reads_ofBuffers hne
  have hreads' := reads_ofBuffers hne'
  rw [hflat] at hreads
  rw [hflat'] at hreads'
  obtain ⟨p, hp, hs⟩ := hreads.standsAt.run ops
  obtain ⟨p', hp', hs'⟩ := hreads'.standsAt.run ops
  obtain ⟨hall, hstr⟩ := hs.allRemaining
  obtain ⟨hall', hstr'⟩ := hs'.allRemaining
  exact ⟨p, p', hp, hp', hs.error, hs'.error.trans hs.error.symm, hall, hall'.trans hall.symm,
    hstr.trans hall.symm, hstr'.trans hall.symm, hflat ▸ check.addAll_eq bufs,
    hflat' ▸ check.addAll_eq bufs'⟩

/-- Five bytes cut in two ways: an integer across a cut, a skip, and a string longer than what is left. -/
theorem run_split_abcde : ∃ p p' : Parser,
    run [.int 2 0, .skip 1, .str [0, 0, 0]] (.ofBuffers [[1], [2, 3], [4, 5]]) =
      some ([.int 258, .str [0, 0, 0]], p) ∧
    run [.int 2 0, .skip 1, .str [0, 0, 0]] (.ofBuffers [[1, 2, 3, 4], [5]]) =
      some ([.int 258, .str [0, 0, 0]], p') ∧
    p.hasError = true ∧ p'.hasError = p.hasError := by
  have hne : ∀ b ∈ ([[1], [2, 3], [4, 5]] : List Bytes), b ≠ [] := by decide
  have hne' : ∀ b ∈ ([[1, 2, 3, 4], [5]] : List Bytes), b ≠ [] := by decide
  obtain ⟨p, p', hp, hp', herr, herr', -⟩ :=
    run_split hne hne' rfl rfl [.int 2 0, .skip 1, .str [0, 0, 0]] {}
  exact ⟨p, p', hp, hp', herr, herr'⟩

/-! ### Empty buffers at the end -/

/-- `l'` is `l` with empty buffers behind the others. -/
structure Extends (l l' : BufferList) : Prop where
  size : l'.size = l.size
  skip : l'.skip = l.skip
  bufs : ∃ k, l'.bufs = l.bufs ++ List.replicate k []

/-- The loop gets to the empty buffers only when it has gone past all the others. -/
theorem extends_removeLoop (bufs : List Bytes) (size skip len k : Nat) :
    Extends (BufferList.removeLoop bufs size skip len)
      (BufferList.removeLoop (bufs ++ List.replicate k []) size skip len) := by
  induction bufs generalizing size skip len with
  | nil =>
    induction k with
    | zero => exact ⟨rfl, rfl, 0, rfl⟩
    | succ k ih =>
      rw [List.nil_append, List.replicate_succ, BufferList.removeLoop.eq_2]
      by_cases hlen : len = 0
      · rw [if_pos hlen]
        exact ⟨rfl, rfl, k + 1, rfl⟩
      · have hpop : min len (List.length ([] : Bytes) - skip) = 0 := by simp
        rw [if_neg hlen, hpop]
        dsimp only
        split
        next h0 =>
          obtain rfl : skip = 0 := h0
          exact ih
        next => exact ⟨rfl, rfl, k + 1, rfl⟩
  | cons front rest ih =>
    rw [List.cons_append, BufferList.removeLoop, BufferList.removeLoop]
    by_cases hlen : len = 0
    · rw [if_pos hlen, if_pos hlen]
      exact ⟨rfl, rfl, k, rfl⟩
    · rw [if_neg hlen, if_neg hlen]
      dsimp only
      split
      · exact ih ..
      · exact ⟨rfl, rfl, k, rfl⟩

/-- `p` is `q` with empty buffers behind the others. -/
structure Padded (q p : Parser) : Prop where
  input : Extends q.input p.input
  error : p.error = q.error

variable {q : Parser}

theorem Padded.removePrefix (h : Padded q p) (n : Nat) :
    Padded (q.removePrefix n) (p.removePrefix n) := by
  obtain ⟨k, heq⟩ := h.input.bufs
  refine ⟨?_, h.error⟩
  unfold Parser.removePrefix BufferList.removePrefix
  rw [h.input.size, h.input.skip, heq]
  exact extends_removeLoop ..

theorem Padded.byte (h : Padded q p) {r : Byte × Parser} (hq : q.byte = some r) :
    ∃ p', p.byte = some (r.1, p') ∧ Padded r.2 p' := by
  obtain ⟨view, hv, hq⟩ := Option.bind_eq_some_iff.1 hq
  obtain ⟨b, hb, hq⟩ := Option.bind_eq_some_iff.1 hq
  cases hq
  refine ⟨p.removePrefix 1, ?_, h.removePrefix 1⟩
  have hpeek : p.input.peek = q.input.peek := by
    obtain ⟨k, heq⟩ := h.input.bufs
    unfold BufferList.peek at hv ⊢
    rw [heq, h.input.skip]
    cases hbufs : q.input.bufs with
    | nil => rw [hbufs] at hv; cases hv
    | cons front rest => rfl
  exact (bind_of_eq_some (hpeek.trans hv)).trans (bind_of_eq_some hb)

theorem Padded.integerLoop (h : Padded q p) (n out : Nat) {r : Nat × Parser}
    (hq : Parser.integerLoop n out q = some r) :
    ∃ p', Parser.integerLoop n out p = some (r.1, p') ∧ Padded r.2 p' := by
  induction n generalizing q p out with
  | zero =>
    cases hq
    exact ⟨p, rfl, h⟩
  | succ n ih =>
    obtain ⟨⟨b, q₁⟩, hb, hq⟩ := Option.bind_eq_some_iff.1 hq
    obtain ⟨p₁, hp₁, h₁⟩ := h.byte hb
    obtain ⟨p', hp', h'⟩ := ih h₁ _ hq
    exact ⟨p', (bind_of_eq_some hp₁).trans hp', h'⟩

theorem Padded.checkSize (h : Padded q p) (n : Nat) : Padded (q.checkSize n) (p.checkSize n) := by
  unfold Parser.checkSize
  rw [h.input.size]
  split
  · exact ⟨h.input, rfl⟩
  · exact h

theorem Padded.integer (h : Padded q p) (len old : Nat) {r : Nat × Parser}
    (hq : q.integer len old = some r) : ∃ p', p.integer len old = some (r.1, p') ∧ Padded r.2 p' := by
  have hc := h.checkSize len
  unfold Parser.integer Parser.hasError at hq ⊢
  dsimp only at hq ⊢
  rw [hc.error]
  split at hq
  next herr =>
    cases hq
    exact ⟨_, if_pos herr, hc⟩
  next herr =>
    rw [if_neg herr]
    exact hc.integerLoop len 0 hq

/-- `Short`, where empty buffers may come last. -/
def NearEnd (p : Parser) (n : Nat) : Prop := ∃ q, Padded q p ∧ q.Short n

theorem NearEnd.setError (h : p.NearEnd n) : p.setError.NearEnd n := by
  obtain ⟨q, hp, c, hs, -⟩ := h
  exact ⟨q.setError, ⟨hp.input, rfl⟩, { c with error := true },
    ⟨hs.wf, hs.content, rfl⟩, .inl rfl⟩

theorem NearEnd.integer (h : p.NearEnd n) (len old : Nat) :
    ∃ val p', p.integer len old = some (val, p') ∧ p'.NearEnd (n - len) := by
  obtain ⟨q, hp, hs⟩ := h
  obtain ⟨val, q', hq, hs'⟩ := hs.integer len old
  obtain ⟨p', hp', h'⟩ := hp.integer len old hq
  exact ⟨val, p', hp', q', h', hs'⟩

theorem NearEnd.removePrefix (h : p.NearEnd n) (len : Nat) : (p.removePrefix len).NearEnd n := by
  obtain ⟨q, hp, c, hs, hc⟩ := h
  refine ⟨_, hp.removePrefix len, _, hs.removePrefix len, hc.imp_right fun hlt => ?_⟩
  show (c.left.drop len).length < n
  rw [List.length_drop]
  omega

/-- Without an error nothing is left but empty buffers, which are not taken. -/
theorem NearEnd.allRemaining (h : p.NearEnd 1) (herr : p.error = false) : p.allRemaining = [] := by
  obtain ⟨q, hp, c, hs, hc⟩ := h
  have hleft : c.left.length = 0 := by
    rcases hc with hc | hc
    · rw [← hs.error, ← hp.error, herr] at hc
      cases hc
    · omega
  refine if_pos ?_
  rw [hp.input.size, hs.wf.size, hs.content, hleft]

theorem nearEnd_ofBuffers (h : bytes.length < n) : (ofBuffers [bytes, []]).NearEnd n := by
  have hshort : ∀ bufs : List Bytes, (∀ b ∈ bufs, b ≠ []) → bufs.flatten = bytes →
      (ofBuffers bufs).Short n := by
    intro bufs hne hflat
    have hs := (reads_ofBuffers hne).standsAt
    rw [hflat] at hs
    exact ⟨_, hs, .inr h⟩
  have hsize : (ofBuffers [bytes, []]).input = ⟨bytes.length, [bytes, []], 0⟩ := by
    rw [ofBuffers, BufferList.ofBuffers_eq]
    simp
  by_cases hnil : bytes = []
  · refine ⟨ofBuffers [], ⟨⟨?_, ?_, 2, ?_⟩, rfl⟩, hshort _ (List.forall_mem_nil _) hnil.symm⟩
    all_goals rw [hsize, hnil]; rfl
  · refine ⟨ofBuffers [bytes], ⟨⟨?_, ?_, 1, ?_⟩, rfl⟩, hshort _ (by simpa using hnil) (by simp)⟩
    all_goals simp [ofBuffers, BufferList.ofBuffers_eq]

end Parser

end Minnow
