import Minnow.StreamCopy

/-!
# What becomes of one stream

Of each of the two streams: what has been written and what is queued is what has been read, and the
sink is told that no more will come once, after all of it (`FlowInv`). The callbacks keep it whatever
the kernel answers, and where they fail nothing has been lost or repeated (`Fault`).
-/

namespace Minnow
open Prog ByteStream

namespace StreamCopy
open SysCall

variable {κ : Type} {f g : Flow} {log : List (SysCall CopyFd)} {c : SysCall CopyFd}
  {w w' : StreamCopy κ}

/-- The sink is told that no more will come. -/
def isEnd : Flow → SysCall CopyFd → Bool
  | .outbound, .shutdown .socket _ true _ => true
  | .inbound, .close .output _ => true
  | _, _ => false

/-- A call that moves bytes of the stream, or ends it. -/
def touches (f : Flow) : SysCall CopyFd → Bool
  | .read d _ _ => d == f.source
  | .writev d _ _ => d == f.sink
  | c => isEnd f c

/-- When the end is told all has been written, and it is the last call for the stream. -/
def Orderly (f : Flow) (log : List (SysCall CopyFd)) : Prop :=
  ∀ pre c post, log = pre ++ c :: post → isEnd f c = true →
    bytesWritten f.sink pre = bytesRead f.source pre ∧ ∀ c' ∈ post, touches f c' = false

theorem orderly_nil (f : Flow) : Orderly f [] := by
  intro pre c post h
  simp at h

theorem Orderly.snoc (h : Orderly f log) (hopen : touches f c = true → ∀ c' ∈ log, isEnd f c' = false)
    (hend : isEnd f c = true → bytesWritten f.sink log = bytesRead f.source log) :
    Orderly f (log ++ [c]) := by
  intro pre d post heq hd
  rcases List.eq_nil_or_concat' post with rfl | ⟨post, x, rfl⟩
  · obtain ⟨rfl, hc⟩ := List.append_inj' heq rfl
    rw [List.cons.inj hc |>.1] at hend
    exact ⟨hend hd, List.forall_mem_nil _⟩
  · rw [← List.cons_append, ← List.append_assoc] at heq
    obtain ⟨hlog, hc⟩ := List.append_inj' heq rfl
    obtain ⟨hb, hpost⟩ := h pre d post hlog hd
    refine ⟨hb, fun c' hc' => ?_⟩
    rcases List.mem_append.1 hc' with hc' | hc'
    · exact hpost c' hc'
    · rw [List.mem_singleton.1 hc', ← (List.cons.inj hc).1, Bool.eq_false_iff]
      intro ht
      have := hopen ht d (by rw [hlog]; simp)
      rw [hd] at this
      cases this

theorem isEnd_touches (h : isEnd f c = true) : touches f c = true := by
  unfold touches
  split <;> first | exact h | (cases f <;> cases h)

/-- A call for the other stream moves nothing. -/
theorem moves_of_not_touches (log : List (SysCall CopyFd)) (h : touches f c = false) :
    bytesRead f.source (log ++ [c]) = bytesRead f.source log ∧
      bytesWritten f.sink (log ++ [c]) = bytesWritten f.sink log := by
  have hnil : bytesRead f.source [c] = [] ∧ bytesWritten f.sink [c] = [] := by
    cases c with
    | read d size answer =>
      have hd : d ≠ f.source := by simpa [touches] using h
      cases answer <;> simp [bytesRead, bytesWritten, hd]
    | writev d buffers answer =>
      have hd : d ≠ f.sink := by simpa [touches] using h
      cases answer <;> simp [bytesRead, bytesWritten, hd]
    | close d answer => exact ⟨rfl, rfl⟩
    | shutdown d rd wr answer => exact ⟨rfl, rfl⟩
  rw [bytesRead_append, bytesWritten_append, hnil.1, hnil.2, List.append_nil, List.append_nil]
  exact ⟨rfl, rfl⟩

/-- What is safe to say of a stream even after a fault. -/
structure FlowSafe (f : Flow) (log : List (SysCall CopyFd)) : Prop where
  moved : bytesWritten f.sink log <+: bytesRead f.source log
  orderly : Orderly f log

structure FlowInv (f : Flow) (w : StreamCopy κ) : Prop where
  wf : (w.stream f).Wf
  capacity : (w.stream f).capacity = 1048576
  conserved : bytesWritten f.sink w.process.log ++ (w.stream f).queued =
    bytesRead f.source w.process.log
  shut : w.isShutdown f = true → (w.stream f).isClosed = true ∧ (w.stream f).queued = [] ∧
    ∃ c ∈ w.process.log, isEnd f c = true
  running : w.isShutdown f = false → ∀ c ∈ w.process.log, isEnd f c = false
  orderly : Orderly f w.process.log

theorem FlowInv.safe (h : FlowInv f w) : FlowSafe f w.process.log :=
  ⟨⟨_, h.conserved⟩, h.orderly⟩

theorem FlowInv.closed (h : FlowInv f w) (hopen : (w.stream f).isClosed = false) :
    w.isShutdown f = false := by
  cases hs : w.isShutdown f with
  | false => rfl
  | true =>
    have := (h.shut hs).1
    rw [hopen] at this
    cases this

/-- Closing streams and setting errors. -/
structure Relabels (w w' : StreamCopy κ) : Prop where
  log : w'.process.log = w.process.log
  fds : w'.process.fds = w.process.fds
  isShutdown : w'.isShutdown = w.isShutdown
  found : w'.found = w.found
  stream : ∀ f, ∃ closed error : Bool, w'.stream f = { w.stream f with
    isClosed := (w.stream f).isClosed || closed, error := (w.stream f).error || error }

theorem FlowInv.relabel (h : FlowInv f w) (hr : Relabels w w') : FlowInv f w' := by
  obtain ⟨hlog, -, hshut, -, hstream⟩ := hr
  obtain ⟨closed, error, hs⟩ := hstream f
  refine ⟨?_, ?_, ?_, ?_, ?_, ?_⟩
  · rw [hs]
    exact ⟨h.wf.word, h.wf.buffered, h.wf.fits, h.wf.chunks, h.wf.pushed⟩
  · rw [hs]; exact h.capacity
  · rw [hs, hlog]; exact h.conserved
  · rw [hs, hlog, hshut]
    intro hsh
    obtain ⟨hc, hq, he⟩ := h.shut hsh
    exact ⟨by simp [hc], hq, he⟩
  · rw [hlog, hshut]; exact h.running
  · rw [hlog]; exact h.orderly

/-- A call for the other stream. -/
theorem FlowInv.frame (h : FlowInv f w) (hlog : w'.process.log = w.process.log ++ [c])
    (hc : touches f c = false) (hstream : w'.stream f = w.stream f)
    (hshut : w'.isShutdown f = w.isShutdown f) : FlowInv f w' := by
  obtain ⟨hread, hwritten⟩ := moves_of_not_touches w.process.log hc
  have hend : isEnd f c = false := by
    rw [Bool.eq_false_iff]
    intro he
    have := isEnd_touches he
    rw [hc] at this
    cases this
  refine ⟨hstream ▸ h.wf, hstream ▸ h.capacity, ?_, fun hs => ?_, fun hs => ?_, ?_⟩
  · rw [hlog, hstream, hread, hwritten]; exact h.conserved
  · rw [hshut] at hs
    obtain ⟨hcl, hq, e, he, hend⟩ := h.shut hs
    rw [hstream, hlog]
    exact ⟨hcl, hq, e, List.mem_append_left _ he, hend⟩
  · rw [hshut] at hs
    rw [hlog]
    intro e he
    rcases List.mem_append.1 he with he | he
    · exact h.running hs e he
    · rw [List.mem_singleton.1 he]; exact hend
  · rw [hlog]
    refine h.orderly.snoc (fun ht => ?_) fun he => ?_
    · rw [hc] at ht; cases ht
    · rw [hend] at he; cases he

/-- A read of the source. What it gave goes to the stream, of which it is no more than there is room
for. -/
theorem FlowInv.read (h : FlowInv f w) (hopen : w.isShutdown f = false) {size : Nat}
    {answer : SysResult Bytes} {data : Bytes}
    (hdata : bytesRead f.source [.read f.source size answer] = data)
    (hlog : w'.process.log = w.process.log ++ [.read f.source size answer])
    (hstream : w'.stream f = (w.stream f).push data ∨
      w'.stream f = ((w.stream f).push data).close)
    (hroom : (w.stream f).taken data = data) (hshut : w'.isShutdown f = w.isShutdown f) :
    FlowInv f w' := by
  have hp := push_pushed (w.stream f) data
  rw [hroom] at hp
  have hwritten : bytesWritten f.sink [.read f.source size answer] = [] := rfl
  have hend : isEnd f (.read f.source size answer) = false := by cases f <;> rfl
  have hwf := h.wf.push data
  have hs : (w'.stream f).Wf ∧ (w'.stream f).queued = (w.stream f).queued ++ data ∧
      (w'.stream f).capacity = 1048576 := by
    rcases hstream with heq | heq <;> rw [heq]
    · exact ⟨hwf, hp.queued, hp.capacity.trans h.capacity⟩
    · exact ⟨hwf.close, hp.queued, hp.capacity.trans h.capacity⟩
  refine ⟨hs.1, hs.2.2, ?_, fun hs' => ?_, fun _ => ?_, ?_⟩
  · rw [hs.2.1, hlog, bytesRead_append, bytesWritten_append, hdata, hwritten, List.append_nil,
      ← List.append_assoc, h.conserved]
  · rw [hshut, hopen] at hs'; cases hs'
  · rw [hlog]
    intro e he
    rcases List.mem_append.1 he with he | he
    · exact h.running hopen e he
    · rw [List.mem_singleton.1 he]; exact hend
  · rw [hlog]
    refine h.orderly.snoc (fun _ => h.running hopen) fun he => ?_
    rw [hend] at he; cases he

/-- A write of some of the front chunk to the sink. -/
theorem FlowInv.write (h : FlowInv f w) (hopen : w.isShutdown f = false) {n : Nat}
    {s' : ByteStream} (hlog : w'.process.log =
      w.process.log ++ [.writev f.sink [(w.stream f).peek] (.ok n)])
    (hn : n ≤ (w.stream f).peek.length) (hp : Popped (w.stream f) n s') (hstream : w'.stream f = s')
    (hshut : w'.isShutdown f = w.isShutdown f) : FlowInv f w' := by
  have hend : isEnd f (.writev f.sink [(w.stream f).peek] (.ok n)) = false := by cases f <;> rfl
  have hread : bytesRead f.source [.writev f.sink [(w.stream f).peek] (.ok n)] = [] := rfl
  have hwritten : bytesWritten f.sink [.writev f.sink [(w.stream f).peek] (.ok n)] =
      (w.stream f).queued.take n := by
    have hpre := (List.take_prefix n _).trans (w.stream f).peek_prefix_queued
    have htake := List.prefix_iff_eq_take.1 hpre
    rw [List.length_take_of_le hn] at htake
    rw [← htake]
    simp [bytesWritten]
  subst hstream
  refine ⟨hp.wf, hp.capacity.trans h.capacity, ?_, fun hs => ?_, fun _ => ?_, ?_⟩
  · rw [hlog, bytesRead_append, bytesWritten_append, hread, hwritten, hp.queued, List.append_assoc,
      List.take_append_drop, h.conserved, List.append_nil]
  · rw [hshut, hopen] at hs; cases hs
  · rw [hlog]
    intro e he
    rcases List.mem_append.1 he with he | he
    · exact h.running hopen e he
    · rw [List.mem_singleton.1 he]; exact hend
  · rw [hlog]
    refine h.orderly.snoc (fun _ => h.running hopen) fun he => ?_
    rw [hend] at he; cases he

/-- The end is told, of a stream that is finished. -/
theorem FlowInv.end (h : FlowInv f w) (hopen : w.isShutdown f = false)
    (hfin : (w.stream f).isFinished = true) (hc : isEnd f c = true)
    (hlog : w'.process.log = w.process.log ++ [c]) (hstream : w'.stream f = w.stream f)
    (hshut : w'.isShutdown f = true) : FlowInv f w' := by
  have hq : (w.stream f).isClosed = true ∧ (w.stream f).queued = [] := by
    rw [isFinished, Bool.and_eq_true, List.isEmpty_iff] at hfin
    exact ⟨hfin.1, by rw [queued, hfin.2]; rfl⟩
  have hmoved : bytesRead f.source [c] = [] ∧ bytesWritten f.sink [c] = [] := by
    cases f <;> cases c <;> first | exact ⟨rfl, rfl⟩ | cases hc
  refine ⟨hstream ▸ h.wf, hstream ▸ h.capacity, ?_, fun _ => ?_, fun hs => ?_, ?_⟩
  · rw [hlog, bytesRead_append, bytesWritten_append, hmoved.1, hmoved.2, hstream, List.append_nil,
      List.append_nil]
    exact h.conserved
  · rw [hstream, hlog]
    exact ⟨hq.1, hq.2, c, by simp, hc⟩
  · rw [hshut] at hs; cases hs
  · rw [hlog]
    refine h.orderly.snoc (fun _ => h.running hopen) fun _ => ?_
    have := h.conserved
    rwa [hq.2, List.append_nil] at this

/-! ### After a fault -/

theorem FlowSafe.frame (h : FlowSafe f log) (hc : touches f c = false) : FlowSafe f (log ++ [c]) := by
  obtain ⟨hread, hwritten⟩ := moves_of_not_touches log hc
  refine ⟨by rw [hread, hwritten]; exact h.moved, h.orderly.snoc (fun ht => ?_) fun he => ?_⟩
  · rw [hc] at ht; cases ht
  · rw [isEnd_touches he] at hc; cases hc

/-- A call for the stream, if it moves no more than is queued. -/
theorem FlowInv.safe_snoc (h : FlowInv f w) (hopen : w.isShutdown f = false)
    (hw : bytesWritten f.sink [c] <+: (w.stream f).queued)
    (hend : isEnd f c = true → (w.stream f).isFinished = true) :
    FlowSafe f (w.process.log ++ [c]) := by
  refine ⟨?_, h.orderly.snoc (fun _ => h.running hopen) fun he => ?_⟩
  · rw [bytesWritten_append, bytesRead_append, ← h.conserved, List.append_assoc]
    exact (List.prefix_append_right_inj _).2 (hw.trans (List.prefix_append _ _))
  · have hq : (w.stream f).queued = [] := by
      have hfin := hend he
      rw [isFinished, Bool.and_eq_true, List.isEmpty_iff] at hfin
      rw [queued, hfin.2]; rfl
    have := h.conserved
    rwa [hq, List.append_nil] at this

/-! ### The callbacks -/

theorem touches_read (h : g ≠ f) (size : Nat) (answer : SysResult Bytes) :
    touches g (.read f.source size answer) = false := by
  cases f <;> cases g <;> first | rfl | exact absurd rfl h

theorem touches_write (h : g ≠ f) (buffers : List Bytes) (answer : SysResult Nat) :
    touches g (.writev f.sink buffers answer) = false := by
  cases f <;> cases g <;> first | rfl | exact absurd rfl h

/-- What a callback may do beside moving the bytes of its stream. -/
structure Serves (w w' : StreamCopy κ) : Prop where
  flow : ∀ g, FlowInv g w'
  error : ∀ g, (w'.stream g).error = (w.stream g).error
  shut : ∀ g, w.isShutdown g = true → w'.isShutdown g = true
  eof : ∀ d, (w.process.fds d).eof = true → (w'.process.fds d).eof = true
  closedFd : ∀ d, (w'.process.fds d).closed = true → (w.process.fds d).closed = true ∨
    (d = .output ∧ w'.isShutdown .inbound = true)
  closed : ∀ g, (w'.stream g).isClosed = true → (w.stream g).isClosed = true ∨
    (w'.process.fds g.source).eof = true
  stays : ∀ g, (w.stream g).isClosed = true → (w'.stream g).isClosed = true
  found : w'.found = w.found

theorem Serves.read (hi : ∀ g, FlowInv g w) (hopen : w.isShutdown f = false)
    (hclosed : (w.stream f).isClosed = false) {size : Nat} {answer : SysResult Bytes} {data : Bytes}
    (hdata : bytesRead f.source [.read f.source size answer] = data)
    (hroom : data.length ≤ (w.stream f).availableCapacity)
    (hlog : w'.process.log = w.process.log ++ [.read f.source size answer])
    (hfds : ∀ d, (w'.process.fds d).closed = (w.process.fds d).closed ∧
      ((w.process.fds d).eof = true → (w'.process.fds d).eof = true))
    (hshut : w'.isShutdown = w.isShutdown) (hother : ∀ g, g ≠ f → w'.stream g = w.stream g)
    (hfound : w'.found = w.found) (hstream : w'.stream f = (w.stream f).push data ∨
      (w'.stream f = ((w.stream f).push data).close ∧ (w'.process.fds f.source).eof = true)) :
    Serves w w' := by
  have htaken : (w.stream f).taken data = data := by
    rw [taken, hclosed, if_neg Bool.false_ne_true, List.take_of_length_le hroom]
  have hp := push_pushed (w.stream f) data
  refine ⟨fun g => ?_, fun g => ?_, fun g hs => hshut ▸ hs, fun d => (hfds d).2,
    fun d hc => .inl ((hfds d).1 ▸ hc), fun g hc => ?_, fun g hc => ?_, hfound⟩
  all_goals by_cases hg : g = f
  · subst hg
    exact (hi g).read hopen hdata hlog (hstream.imp_right And.left) htaken (congrFun hshut g)
  · exact (hi g).frame hlog (touches_read hg ..) (hother g hg) (congrFun hshut g)
  · subst hg
    rcases hstream with hs | ⟨hs, -⟩ <;> rw [hs]
    · exact hp.error
    · exact hp.error
  · rw [hother g hg]
  · subst hg
    rcases hstream with hs | ⟨-, he⟩
    · rw [hs, hp.isClosed] at hc
      exact .inl hc
    · exact .inr he
  · rw [hother g hg] at hc
    exact .inl hc
  · subst hg
    rw [hclosed] at hc
    cases hc
  · rw [hother g hg]
    exact hc

theorem Serves.refl (hi : ∀ g, FlowInv g w) : Serves w w :=
  ⟨hi, fun _ => rfl, fun _ hs => hs, fun _ he => he, fun _ hc => .inl hc, fun _ hc => .inl hc,
    fun _ hc => hc, rfl⟩

theorem Serves.trans {w'' : StreamCopy κ} (h : Serves w w') (h' : Serves w' w'') :
    Serves w w'' := by
  refine ⟨h'.flow, fun g => (h'.error g).trans (h.error g), fun g hs => h'.shut g (h.shut g hs),
    fun d he => h'.eof d (h.eof d he), fun d hc => ?_, fun g hc => ?_,
    fun g hc => h'.stays g (h.stays g hc), h'.found.trans h.found⟩
  · rcases h'.closedFd d hc with hc | hc
    · exact (h.closedFd d hc).imp_right fun ⟨hd, hs⟩ => ⟨hd, h'.shut _ hs⟩
    · exact .inr hc
  · rcases h'.closed g hc with hc | he
    · exact (h.closed g hc).imp_right (h'.eof _)
    · exact .inr he

theorem Serves.write (hi : ∀ g, FlowInv g w) (hopen : w.isShutdown f = false) {n : Nat}
    {s' : ByteStream} {process : Process CopyFd κ}
    (hlog : process.log = w.process.log ++ [.writev f.sink [(w.stream f).peek] (.ok n)])
    (hfds : ∀ d, (process.fds d).closed = (w.process.fds d).closed ∧
      (process.fds d).eof = (w.process.fds d).eof)
    (hn : n ≤ (w.stream f).peek.length) (hp : Popped (w.stream f) n s') :
    Serves w ({ w with process }.setStream f s') := by
  have hother : ∀ g, g ≠ f → ({ w with process }.setStream f s').stream g = w.stream g :=
    fun g hg => if_neg hg
  have hstream : ({ w with process }.setStream f s').stream f = s' := if_pos rfl
  refine ⟨fun g => ?_, fun g => ?_, fun _ hs => hs, fun d he => (hfds d).2.trans he,
    fun d hc => .inl ((hfds d).1 ▸ hc), fun g hc => ?_, fun g hc => ?_, rfl⟩
  all_goals by_cases hg : g = f
  · subst hg
    exact (hi g).write hopen hlog hn hp hstream rfl
  · exact (hi g).frame hlog (touches_write hg ..) (hother g hg) rfl
  · subst hg
    rw [hstream, hp.error]
  · rw [hother g hg]
  · subst hg
    rw [hstream, hp.isClosed] at hc
    exact .inl hc
  · rw [hother g hg] at hc
    exact .inl hc
  · subst hg
    rw [hstream, hp.isClosed]
    exact hc
  · rw [hother g hg]
    exact hc

/-- The sink has been told that no more will come. -/
structure Finished (f : Flow) (p p' : Process CopyFd κ) : Prop where
  log : ∃ c, isEnd f c = true ∧ p'.log = p.log ++ [c]
  eof : ∀ d, (p.fds d).eof = true → (p'.fds d).eof = true
  closed : ∀ d, (p'.fds d).closed = true → (p.fds d).closed = true ∨ (d = .output ∧ f = .inbound)

theorem touches_end (h : g ≠ f) (hc : isEnd f c = true) : touches g c = false := by
  cases f <;> cases g <;> first | exact absurd rfl h | skip
  all_goals
    unfold isEnd at hc
    split at hc <;> first | rfl | simp_all

theorem Serves.end (hi : ∀ g, FlowInv g w) (hopen : w.isShutdown f = false)
    (hfin : (w.stream f).isFinished = true) {process : Process CopyFd κ}
    (hp : Finished f w.process process) : Serves w { w with
      process
      isShutdown := fun g => if g = f then true else w.isShutdown g } := by
  obtain ⟨⟨c, hc, hlog⟩, heof, hclosed⟩ := hp
  refine ⟨fun g => ?_, fun _ => rfl, fun g hs => ?_, heof, fun d hd => ?_, fun _ hc => .inl hc,
    fun _ hc => hc, rfl⟩
  · by_cases hg : g = f
    · subst hg
      exact (hi g).end hopen hfin hc hlog rfl (if_pos rfl)
    · exact (hi g).frame hlog (touches_end hg hc) rfl (if_neg hg)
  · show (if g = f then true else w.isShutdown g) = true
    rw [hs, ite_self]
  · refine (hclosed d hd).imp_right fun ⟨hd, hf⟩ => ⟨hd, ?_⟩
    subst hf
    rfl

/-- What comes after the read. -/
theorem wp_pushRead {data : Bytes} {Q : StreamCopy κ → Prop}
    {E : Prog.Fault → StreamCopy κ → Prop} :
    Act.wp (do
      modify fun w => w.setStream f ((w.stream f).push data)
      if ((← get).process.fds f.source).eof then
        modify fun w => w.setStream f (w.stream f).close : Act (StreamCopy κ) Unit)
      (fun _ w' => Q w') E w ↔
    if (w.process.fds f.source).eof then Q (w.setStream f ((w.stream f).push data).close)
      else Q (w.setStream f ((w.stream f).push data)) := by
  simp only [Act.wp_bind, Act.wp_modify, Act.wp_get, Act.wp_ite, Act.wp_pure]
  have hclose : (w.setStream f ((w.stream f).push data)).setStream f
      ((w.setStream f ((w.stream f).push data)).stream f).close =
      w.setStream f ((w.stream f).push data).close := by
    unfold setStream
    simp only [if_true]
    congr 1
    funext g
    split <;> rfl
  rw [hclose]
  rfl

/-- A descriptor that has been served has counted it, or is closed. -/
def Counted (d : CopyFd) (p p' : Process CopyFd κ) : Prop :=
  (p'.fds d).closed = true ∨ (p'.fds d).writeCount = (p.fds d).writeCount + 1

theorem finished_shutdown (p : Process CopyFd κ) (k : κ) (answer : SysResult Unit) :
    Finished .outbound p (FileDescriptor.noteWrite
      (p.called k (.shutdown .socket false true answer)) .socket) := by
  refine ⟨⟨_, rfl, rfl⟩, fun d he => ?_, fun d hc => .inl ?_⟩
  · unfold FileDescriptor.noteWrite
    rw [Process.fds_setFd]
    split <;> exact he
  · unfold FileDescriptor.noteWrite at hc
    rw [Process.fds_setFd] at hc
    split at hc <;> exact hc

theorem finished_close (p : Process CopyFd κ) (k : κ) (answer : SysResult Unit) :
    Finished .inbound p (FileDescriptor.noteClose (p.called k (.close .output answer)) .output) := by
  refine ⟨⟨_, rfl, rfl⟩, fun d he => ?_, fun d hc => ?_⟩
  · unfold FileDescriptor.noteClose
    rw [Process.fds_setFd]
    split
    · rfl
    · exact he
  · unfold FileDescriptor.noteClose at hc
    rw [Process.fds_setFd] at hc
    split at hc
    next hd => exact .inr ⟨hd, rfl⟩
    next => exact .inl hc

variable [Kernel κ]

/-- A fault is an exception, for which the kernel is to blame, and the streams are safe. -/
def Fault (e : Prog.Fault) (w : StreamCopy κ) : Prop :=
  e = .exn .runtimeError ∧ ¬ Kernel.Obliging κ ∧ ∀ f, FlowSafe f w.process.log

theorem wp_readCallback (hi : ∀ g, FlowInv g w) (hopen : w.isShutdown f = false)
    (hclosed : (w.stream f).isClosed = false) (hcap : 0 < (w.stream f).availableCapacity) :
    (readCallback f).wp
      (fun _ w' => Serves w w' ∧ (Kernel.Obliging κ → (w'.process.fds f.source).readCount =
        (w.process.fds f.source).readCount + 1))
      Fault w := by
  have hsize : FileDescriptor.readSize (List.replicate (w.stream f).availableCapacity (0 : Byte)) =
      (w.stream f).availableCapacity := by
    unfold FileDescriptor.readSize
    rw [List.length_replicate, if_neg]
    simp
    omega
  unfold readCallback onProcess
  rw [Act.wp_bind, Act.wp_get, Act.wp_bind, Act.wp_zoom, FileDescriptor.wp_read, hsize]
  dsimp only
  have hobl := fun h : Kernel.Obliging κ =>
    h.read (w.process.fds f.source).fd (w.stream f).availableCapacity w.process.kernel
  generalize Kernel.read (w.process.fds f.source).fd (w.stream f).availableCapacity
    w.process.kernel = r at hobl ⊢
  obtain ⟨answer, k⟩ := r
  have hsafe : ∀ g, FlowSafe g (w.process.log ++
      [.read f.source (w.stream f).availableCapacity answer]) := by
    intro g
    by_cases hg : g = f
    · subst hg
      refine (hi g).safe_snoc hopen List.nil_prefix fun he => ?_
      cases g <;> cases he
    · exact (hi g).safe.frame (touches_read hg ..)
  cases answer with
  | failed =>
    refine ⟨rfl, fun h => ?_, hsafe⟩
    obtain ⟨data, k', heq, -⟩ := hobl h
    cases heq
  | again =>
    have hnot : ¬ Kernel.Obliging κ := by
      intro h
      obtain ⟨data, k', heq, -⟩ := hobl h
      cases heq
    dsimp only
    split
    next =>
      have hserves : ∀ w' : StreamCopy κ, w'.process = w.process.called k
          (.read f.source (w.stream f).availableCapacity .again) → w'.isShutdown = w.isShutdown →
          (∀ g, g ≠ f → w'.stream g = w.stream g) → w'.found = w.found →
          (w'.stream f = (w.stream f).push [] ∨
            (w'.stream f = ((w.stream f).push []).close ∧ (w.process.fds f.source).eof = true)) →
          Serves w w' := by
        intro w' hp hs hother hfound hf
        refine Serves.read hi hopen hclosed rfl (Nat.zero_le _) (by rw [hp]; rfl) (fun d => ?_) hs
          hother hfound ?_
        · rw [hp]; exact ⟨rfl, id⟩
        · rw [hp]; exact hf
      rw [wp_pushRead]
      split
      next heof =>
        exact ⟨hserves _ rfl rfl (fun g hg => if_neg hg) rfl (.inr ⟨if_pos rfl, heof⟩), fun h =>
          absurd h hnot⟩
      next =>
        exact ⟨hserves _ rfl rfl (fun g hg => if_neg hg) rfl (.inl (if_pos rfl)), fun h =>
          absurd h hnot⟩
    next => exact ⟨rfl, hnot, hsafe⟩
  | ok data =>
    dsimp only
    split
    next hlong =>
      refine ⟨rfl, fun h => ?_, hsafe⟩
      obtain ⟨data', k', heq, hle⟩ := hobl h
      cases heq
      omega
    next hlong =>
      have hroom : data.length ≤ (w.stream f).availableCapacity := Nat.not_lt.1 hlong
      have hdata : bytesRead f.source [.read f.source (w.stream f).availableCapacity (.ok data)] =
          data := by simp [bytesRead]
      have hcount : ∀ w' : StreamCopy κ, w'.process = FileDescriptor.noteRead (w.process.called k
          (.read f.source (w.stream f).availableCapacity (.ok data))) f.source data →
          (w'.process.fds f.source).readCount = (w.process.fds f.source).readCount + 1 := by
        intro w' hp
        rw [hp]
        simp [FileDescriptor.noteRead]
      have hserves : ∀ w' : StreamCopy κ, w'.process = FileDescriptor.noteRead (w.process.called k
          (.read f.source (w.stream f).availableCapacity (.ok data))) f.source data →
          w'.isShutdown = w.isShutdown → (∀ g, g ≠ f → w'.stream g = w.stream g) →
          w'.found = w.found → (w'.stream f = (w.stream f).push data ∨
            (w'.stream f = ((w.stream f).push data).close ∧
              (w'.process.fds f.source).eof = true)) → Serves w w' := by
        intro w' hp hs hother hfound hf
        refine Serves.read hi hopen hclosed hdata hroom (by rw [hp]; rfl) (fun d => ?_) hs hother
          hfound hf
        rw [hp]
        unfold FileDescriptor.noteRead
        rw [Process.fds_setFd, Process.fds_called]
        split
        · exact ⟨rfl, fun he => by simp [he]⟩
        · exact ⟨rfl, id⟩
      rw [wp_pushRead]
      split
      next heof =>
        exact ⟨hserves _ rfl rfl (fun g hg => if_neg hg) rfl (.inr ⟨if_pos rfl, heof⟩), fun _ =>
          hcount _ rfl⟩
      next =>
        exact ⟨hserves _ rfl rfl (fun g hg => if_neg hg) rfl (.inl (if_pos rfl)), fun _ =>
          hcount _ rfl⟩

theorem wp_finishSink {p : Process CopyFd κ} {Q : Unit → Process CopyFd κ → Prop}
    {E : Prog.Fault → Process CopyFd κ → Prop}
    (hQ : ∀ p', Finished f p p' → Counted f.sink p p' → Q () p')
    (hE : ¬ Kernel.Obliging κ → ∀ c p', isEnd f c = true → p'.log = p.log ++ [c] →
      E (.exn .runtimeError) p') : (finishSink f).wp Q E p := by
  cases f with
  | outbound =>
    have hobl := fun h : Kernel.Obliging κ => h.shutdown (p.fds .socket).fd false true p.kernel
    unfold finishSink
    rw [FileDescriptor.wp_shutdown]
    generalize Kernel.shutdown (p.fds .socket).fd false true p.kernel = r at hobl ⊢
    obtain ⟨answer, k⟩ := r
    have hnot : answer ≠ .ok () → ¬ Kernel.Obliging κ := by
      intro hne h
      obtain ⟨k', heq⟩ := hobl h
      exact hne (Prod.mk.inj heq).1
    cases answer with
    | ok => exact hQ _ (finished_shutdown p k _) (.inr rfl)
    | again =>
      dsimp only
      split
      · exact hQ _ (finished_shutdown p k _) (.inr rfl)
      · exact hE (hnot (by simp)) _ _ rfl rfl
    | failed => exact hE (hnot (by simp)) _ _ rfl rfl
  | inbound =>
    have hobl := fun h : Kernel.Obliging κ => h.close (p.fds .output).fd p.kernel
    unfold finishSink
    rw [FileDescriptor.wp_close]
    generalize Kernel.close (p.fds .output).fd p.kernel = r at hobl ⊢
    obtain ⟨answer, k⟩ := r
    have hnot : answer ≠ .ok () → ¬ Kernel.Obliging κ := by
      intro hne h
      obtain ⟨k', heq⟩ := hobl h
      exact hne (Prod.mk.inj heq).1
    cases answer with
    | ok => exact hQ _ (finished_close p k _) (.inl rfl)
    | again =>
      dsimp only
      split
      · exact hQ _ (finished_close p k _) (.inl rfl)
      · exact hE (hnot (by simp)) _ _ rfl rfl
    | failed => exact hE (hnot (by simp)) _ _ rfl rfl

/-- The second half of the callback. -/
def finish (f : Flow) : Act (StreamCopy κ) Unit := do
  if ((← get).stream f).isFinished then
    onProcess (finishSink f)
    modify fun w => { w with isShutdown := fun g => if g = f then true else w.isShutdown g }

theorem wp_finish (hi : ∀ g, FlowInv g w) (hopen : w.isShutdown f = false)
    {Q : StreamCopy κ → Prop} (hkeep : (w.stream f).isFinished = false → Q w)
    (hdone : ∀ w', Serves w w' → w'.isShutdown f = true →
      Counted f.sink w.process w'.process → w'.stream = w.stream → Q w') :
    (finish f).wp (fun _ w' => Q w') Fault w := by
  unfold finish onProcess
  rw [Act.wp_bind, Act.wp_get, Act.wp_ite]
  split
  next hfin =>
    rw [Act.wp_bind, Act.wp_zoom]
    refine wp_finishSink (fun p' hp hcount => ?_) fun hnot c p' hc hlog => ?_
    · exact hdone _ (Serves.end hi hopen hfin hp) (if_pos rfl) hcount rfl
    · refine ⟨rfl, hnot, fun g => ?_⟩
      show FlowSafe g p'.log
      rw [hlog]
      by_cases hg : g = f
      · subst hg
        refine (hi g).safe_snoc hopen ?_ fun _ => hfin
        cases g <;> cases c <;> first | exact List.nil_prefix | cases hc
      · exact (hi g).safe.frame (touches_end hg hc)
  next hfin => exact hkeep (by simpa using hfin)

/-- The first half: some of the front chunk is written. -/
def drain (f : Flow) : Act (StreamCopy κ) Unit := do
  let s := (← get).stream f
  if s.bytesBuffered ≠ 0 then
    let n ← onProcess (FileDescriptor.write f.sink [s.peek])
    match s.pop n with
    | some s => modify fun w => w.setStream f s
    | none => throw (.undef .emptyFront)

theorem wp_writeCallback_iff {Q : Unit → StreamCopy κ → Prop}
    {E : Prog.Fault → StreamCopy κ → Prop} :
    (writeCallback f).wp Q E w ↔ (drain f).wp (fun _ w' => (finish f).wp Q E w') E w := by
  unfold writeCallback drain
  simp only [Act.wp_bind, Act.wp_get, Act.wp_ite]
  split
  · refine Iff.of_eq ?_
    congr 1
    funext n w'
    cases (w.stream f).pop n <;> rfl
  · simp only [finish, Act.wp_pure, Act.wp_bind, Act.wp_get, Act.wp_ite]

theorem wp_drain (hi : ∀ g, FlowInv g w) (hopen : w.isShutdown f = false)
    {Q : StreamCopy κ → Prop} (hkeep : (w.stream f).bytesBuffered = 0 → Q w)
    (hdone : ∀ w', Serves w w' → w'.isShutdown f = false →
      (w'.process.fds f.sink).writeCount = (w.process.fds f.sink).writeCount + 1 → Q w') :
    (drain f).wp (fun _ w' => Q w') Fault w := by
  unfold drain onProcess
  rw [Act.wp_bind, Act.wp_get, Act.wp_ite]
  split
  next hbuf =>
    rw [Act.wp_bind, Act.wp_zoom, FileDescriptor.wp_write]
    have hwf := (hi f).wf
    have hne : (w.stream f).peek ≠ [] := (peek_ne_nil_iff hwf).2 (Nat.pos_of_ne_zero hbuf)
    have hobl := fun h : Kernel.Obliging κ =>
      h.writev (w.process.fds f.sink).fd [(w.stream f).peek] w.process.kernel
    generalize Kernel.writev (w.process.fds f.sink).fd [(w.stream f).peek] w.process.kernel = r
      at hobl ⊢
    obtain ⟨answer, k⟩ := r
    rw [List.flatten_singleton] at hobl ⊢
    have hsafe : FlowSafe f (w.process.log ++ [.writev f.sink [(w.stream f).peek] answer]) := by
      refine (hi f).safe_snoc hopen ?_ fun he => ?_
      · cases answer with
        | ok n =>
          have hpre := (List.take_prefix n _).trans (w.stream f).peek_prefix_queued
          simpa [bytesWritten] using hpre
        | again => exact List.nil_prefix
        | failed => exact List.nil_prefix
      · cases f <;> cases he
    have hfault : ∀ (w' : StreamCopy κ) (_ : ¬ Kernel.Obliging κ), w'.process.log =
        w.process.log ++ [.writev f.sink [(w.stream f).peek] answer] →
        Fault (.exn .runtimeError) w' := by
      intro w' hnot hlog
      refine ⟨rfl, hnot, fun g => ?_⟩
      rw [hlog]
      by_cases hg : g = f
      · subst hg
        exact hsafe
      · exact (hi g).safe.frame (touches_write hg ..)
    cases answer with
    | failed =>
      refine hfault _ (fun h => ?_) rfl
      obtain ⟨n, k', heq, -⟩ := hobl h
      cases heq
    | again =>
      have hnot : ¬ Kernel.Obliging κ := by
        intro h
        obtain ⟨n, k', heq, -⟩ := hobl h
        cases heq
      dsimp only
      split
      · rw [if_pos (by simpa using hne)]
        exact hfault _ hnot rfl
      · exact hfault _ hnot rfl
    | ok n =>
      dsimp only
      split
      next hzero =>
        refine hfault _ (fun h => ?_) rfl
        obtain ⟨m, k', heq, -, hm⟩ := hobl h
        cases heq
        exact hm hne hzero.1
      split
      next hlong =>
        refine hfault _ (fun h => ?_) rfl
        obtain ⟨m, k', heq, hm, -⟩ := hobl h
        cases heq
        omega
      next hlong =>
        have hn : n ≤ (w.stream f).peek.length := Nat.not_lt.1 hlong
        have hle : n ≤ (w.stream f).bytesBuffered := by
          rw [bytesBuffered, hwf.buffered]
          exact Nat.le_trans hn (w.stream f).peek_prefix_queued.length_le
        obtain ⟨s', hpop, hp⟩ := pop_spec hwf hle
        rw [hpop]
        refine hdone _ (Serves.write hi hopen rfl (fun d => ?_) hn hp) hopen ?_
        · unfold FileDescriptor.noteWrite
          rw [Process.fds_setFd]
          split <;> exact ⟨rfl, rfl⟩
        · simp [FileDescriptor.noteWrite, setStream]
  next hbuf => exact hkeep (by simpa using hbuf)

theorem wp_writeCallback (hi : ∀ g, FlowInv g w) (hopen : w.isShutdown f = false) :
    (writeCallback f).wp
      (fun _ w' => Serves w w' ∧ ((w'.process.fds f.sink).closed = true ∨
        (w'.process.fds f.sink).writeCount ≠ (w.process.fds f.sink).writeCount ∨
        writeInterest f w' = false))
      Fault w := by
  rw [wp_writeCallback_iff]
  refine wp_drain hi hopen (fun hbuf => ?_) fun w₁ h₁ hopen₁ hcount₁ => ?_
  · refine wp_finish hi hopen (fun hfin => ⟨.refl hi, .inr (.inr ?_)⟩) fun w' h' _ hcount' _ => ?_
    · rw [writeInterest, hbuf, hfin]
      rfl
    · exact ⟨h', hcount'.imp_right fun hcount' => .inl (FDWrapper.count_ne hcount').symm⟩
  · refine wp_finish h₁.flow hopen₁ (fun _ => ⟨h₁, .inr (.inl ?_)⟩) fun w' h' _ hcount' _ => ?_
    · exact (FDWrapper.count_ne hcount₁).symm
    · refine ⟨h₁.trans h', hcount'.imp_right fun hcount' => .inl ?_⟩
      rw [hcount₁] at hcount'
      exact (FDWrapper.count_ne_two hcount').symm

end StreamCopy

end Minnow
