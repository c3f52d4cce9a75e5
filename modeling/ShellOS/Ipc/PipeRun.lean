import ShellOS.Ipc.PipeSpec
import ShellOS.Library.Runs

namespace ShellOS.Ipc.PipeRun

open Library.Ring Library.Runs Pipes PipeSpec Function

/-- The pcb addresses of the two processes at the ends of a pipe. -/
structure Parties where
  writer : ℕ
  reader : ℕ
  writer_ne_null : writer ≠ 0
  reader_ne_null : reader ≠ 0
  apart : writer ≠ reader

inductive Writer
  | idle
  | waits (i : ℕ) (c : UInt8) (string : List UInt8)

inductive Reader
  | idle
  | waits (limit : ℤ)

/-- The kernel, where each party stands, and the bytes that the writer has
stored and the reader has obtained so far. -/
structure System where
  kernel : Kernel
  writer : Writer
  reader : Reader
  stored : List UInt8
  obtained : List UInt8

inductive Act
  | write (string : List UInt8)
  | resumeWrite
  | read (limit : ℤ)
  | resumeRead

def writerNext : Written → Writer
  | .returned _ => .idle
  | .blocked i c string => .waits i c string

def readerNext (limit : ℤ) : Read → Reader
  | .returned _ _ => .idle
  | .blocked => .waits limit

variable (t : Parties) (f0 f1 : FdPipe)

/-- A call runs to its first wait or its return. A process that waits goes on
only after it has been set ready. -/
inductive Step : System → Act → System → Prop
  | write {s : System} {string : List UInt8} {k : Kernel} {out : Written} :
      s.writer = .idle → 0 ∉ string → pipeWrite s.kernel t.writer f1 string = some (k, out) →
      Step s (.write string) { s with
        kernel := k
        writer := writerNext out
        stored := s.stored ++ string.take out.count }
  | resumeWrite {s : System} {i : ℕ} {c : UInt8} {string : List UInt8} {k : Kernel}
      {out : Written} :
      s.writer = .waits i c string → s.kernel.pstate t.writer = 1 →
      resumeWrite s.kernel t.writer f1 i c string = some (k, out) →
      Step s .resumeWrite { s with
        kernel := k
        writer := writerNext out
        stored := s.stored ++ (c :: string).take (out.count - i) }
  | read {s : System} {limit : ℤ} {k : Kernel} {out : Read} :
      s.reader = .idle → pipeRead s.kernel t.reader f0 limit = some (k, out) →
      Step s (.read limit) { s with
        kernel := k
        reader := readerNext limit out
        obtained := s.obtained ++ received limit out }
  | resumeRead {s : System} {limit : ℤ} {k : Kernel} {out : Read} :
      s.reader = .waits limit → s.kernel.pstate t.reader = 1 →
      resumeRead s.kernel f0 limit = some (k, out) →
      Step s .resumeRead { s with
        kernel := k
        reader := readerNext limit out
        obtained := s.obtained ++ received limit out }

def boot (k : Kernel) : System := ⟨k, .idle, .idle, [], []⟩

/-- The ring holds what the reader has not obtained yet, and a writer that has
been woken finds room. -/
structure Invariant (a : ℕ) (s : System) : Prop where
  holds : Holds (s.kernel.pipe a) s.stored s.obtained
  readOpen : (s.kernel.pipe a).readOpen = 1
  writeOpen : (s.kernel.pipe a).writeOpen = 1
  rest_no_nul : ∀ i c string, s.writer = .waits i c string → 0 ∉ c :: string
  room : ∀ i c string, s.writer = .waits i c string → s.kernel.pstate t.writer = 1 →
    (s.kernel.pipe a).bytesToRead < pipeSize

variable {t f0 f1} {s s' : System} {a : ℕ}

theorem holds_setWaiting {p : Pipe} {stored obtained : List UInt8} (h : Holds p stored obtained)
    (w : ℕ) : Holds { p with waitingProcess := w } stored obtained :=
  ⟨h.read_le, h.write_eq, h.bytes_le, h.content, h.no_nul⟩

theorem wrote_invariant (h : Invariant t a s) {i : ℕ} {string : List UInt8} {k : Kernel}
    {out : Written} (hs : 0 ∉ string)
    (hw : Wrote s.kernel a t.writer i string s.stored s.obtained k out) :
    Invariant t a { s with
      kernel := k, writer := writerNext out, stored := s.stored ++ string.take (out.count - i) } := by
  cases hw with
  | @returned p' hh hsame hb =>
    have htake : string.take (i + string.length - i) = string := by
      rw [Nat.add_sub_cancel_left, List.take_length]
    refine ⟨?_, ?_, ?_, nofun, nofun⟩
    · simp only [awake_pipe, Kernel.setPipe, update_self, Written.count, Int.toNat_natCast, htake]
      exact holds_setWaiting hh 0
    · simp only [awake_pipe, Kernel.setPipe, update_self]
      exact hsame.readOpen.trans h.readOpen
    · simp only [awake_pipe, Kernel.setPipe, update_self]
      exact hsame.writeOpen.trans h.writeOpen
  | @blocked p' s₁ s₂ c hstring hh hsame hb hlen =>
    have htake : string.take (i + s₁.length - i) = s₁ := by
      rw [hstring, Nat.add_sub_cancel_left, List.take_left]
    refine ⟨?_, ?_, ?_, fun i' c' s' hwr ↦ ?_, fun i' c' s' hwr hps ↦ ?_⟩
    · simp only [block_pipe, Kernel.setPipe, update_self, Written.count, htake]
      exact holds_setWaiting hh t.writer
    · simp only [block_pipe, Kernel.setPipe, update_self]
      exact hsame.readOpen.trans h.readOpen
    · simp only [block_pipe, Kernel.setPipe, update_self]
      exact hsame.writeOpen.trans h.writeOpen
    · cases hwr
      intro h0
      apply hs
      rw [hstring]
      exact List.mem_append_right _ h0
    · rw [block_pstate, if_pos rfl] at hps
      cases hps

theorem wrote_bytes {k k' : Kernel} {w i : ℕ} {string stored obtained : List UInt8} {out : Written}
    (h : Wrote k a w i string stored obtained k' out) (hne : string ≠ []) :
    0 < (k'.pipe a).bytesToRead := by
  have hlen := List.length_pos_iff.mpr hne
  cases h with
  | returned hholds hsame hb =>
    simp only [awake_pipe, Kernel.setPipe, update_self, hb]
    omega
  | blocked hstring hholds hsame hb hlen =>
    simp only [block_pipe, Kernel.setPipe, update_self, hb]
    exact Nat.succ_pos _

theorem took_after {k k' : Kernel} {r : ℕ} {limit : ℤ} {out : Read} {stored obtained : List UInt8}
    (h : Holds (k.pipe a) stored obtained) (ht : Took k a r limit stored obtained k' out) :
    Holds (k'.pipe a) stored (obtained ++ received limit out) ∧
      (k'.pipe a).readOpen = (k.pipe a).readOpen ∧ (k'.pipe a).writeOpen = (k.pipe a).writeOpen ∧
      (k'.pipe a).bytesToRead < pipeSize := by
  cases ht with
  | @returned p' out hh hsame hb hout =>
    have hle := h.bytes_le
    simp only [awake_pipe, Kernel.setPipe, update_self]
    refine ⟨holds_setWaiting hh 0, hsame.readOpen, hsame.writeOpen, ?_⟩
    unfold pipeSize at hle ⊢
    omega
  | blocked hb =>
    simp only [block_pipe]
    refine ⟨?_, trivial, trivial, ?_⟩
    · simpa [received] using holds_setWaiting h r
    · rw [hb]
      decide

theorem took_invariant (h : Invariant t a s) {limit : ℤ} {k : Kernel} {out : Read}
    (ht : Took s.kernel a t.reader limit s.stored s.obtained k out) :
    Invariant t a { s with
      kernel := k, reader := readerNext limit out, obtained := s.obtained ++ received limit out } := by
  obtain ⟨hholds, hread, hwrite, hroom⟩ := took_after h.holds ht
  exact ⟨hholds, hread.trans h.readOpen, hwrite.trans h.writeOpen, h.rest_no_nul,
    fun _ _ _ _ _ ↦ hroom⟩

theorem Step.cases_segment (h : Invariant t a s) {x : Act}
    (hs : Step t ⟨1, 0, a⟩ ⟨0, 1, a⟩ s x s') :
    (∃ i string k out, 0 ∉ string ∧
        (x = .write string ∧ s.writer = .idle ∧ i = 0 ∨
          x = .resumeWrite ∧ s.kernel.pstate t.writer = 1 ∧
            ∃ c rest, string = c :: rest ∧ s.writer = .waits i c rest) ∧
        Wrote s.kernel a t.writer i string s.stored s.obtained k out ∧
        s' = { s with
          kernel := k, writer := writerNext out, stored := s.stored ++ string.take (out.count - i) }) ∨
      ∃ limit k out,
        (x = .read limit ∧ s.reader = .idle ∨
          x = .resumeRead ∧ s.kernel.pstate t.reader = 1 ∧ s.reader = .waits limit) ∧
        Took s.kernel a t.reader limit s.stored s.obtained k out ∧
        s' = { s with
          kernel := k, reader := readerNext limit out, obtained := s.obtained ++ received limit out } := by
  cases hs with
  | @write string k out hidle hnul hcall =>
    obtain ⟨k', out', hcall', hw⟩ := pipeWrite_spec (w := t.writer) h.holds h.readOpen hnul
    rw [hcall] at hcall'
    cases hcall'
    exact Or.inl ⟨0, string, k, out, hnul, Or.inl ⟨rfl, hidle, rfl⟩, hw, rfl⟩
  | @resumeWrite i c string k out hwaits hready hcall =>
    have hnul := h.rest_no_nul i c string hwaits
    obtain ⟨k', out', hcall', hw⟩ :=
      resumeWrite_spec (i := i) (w := t.writer) h.holds hnul (h.room i c string hwaits hready)
    rw [hcall] at hcall'
    cases hcall'
    exact Or.inl ⟨i, c :: string, k, out, hnul,
      Or.inr ⟨rfl, hready, c, string, rfl, hwaits⟩, hw, rfl⟩
  | @read limit k out hidle hcall =>
    obtain ⟨k', out', hcall', ht⟩ := pipeRead_spec (r := t.reader) limit h.holds h.writeOpen
    rw [hcall] at hcall'
    cases hcall'
    exact Or.inr ⟨limit, k, out, Or.inl ⟨rfl, hidle⟩, ht, rfl⟩
  | @resumeRead limit k out hwaits hready hcall =>
    obtain ⟨k', out', hcall', ht⟩ := resumeRead_spec (r := t.reader) limit h.holds
    rw [hcall] at hcall'
    cases hcall'
    exact Or.inr ⟨limit, k, out, Or.inr ⟨rfl, hready, hwaits⟩, ht, rfl⟩

theorem step_invariant (h : Invariant t a s) {x : Act}
    (hs : Step t ⟨1, 0, a⟩ ⟨0, 1, a⟩ s x s') : Invariant t a s' := by
  rcases hs.cases_segment h with ⟨i, string, k, out, hnul, -, hw, rfl⟩ | ⟨limit, k, out, -, ht, rfl⟩
  · exact wrote_invariant h hnul hw
  · exact took_invariant h ht

theorem createPipe_ends {k₀ k : Kernel} {g0 g1 : FdPipe}
    (h : createPipe k₀ g0 g1 a = (k, f0, f1, 0)) :
    f0 = ⟨1, 0, a⟩ ∧ f1 = ⟨0, 1, a⟩ ∧ k.pstate = k₀.pstate ∧ (k.pipe a).waitingProcess = 0 ∧
      (k.pipe a).bytesToRead = 0 ∧ Invariant t a (boot k) := by
  unfold createPipe at h
  split at h
  · cases h
  · cases h
    refine ⟨rfl, rfl, rfl, by simp, by simp, ?_⟩
    refine ⟨⟨?_, ?_, ?_, ?_, ?_⟩, ?_, ?_, nofun, nofun⟩
    all_goals simp [boot, unread]

/-- In every run the bytes obtained are the first of those stored, the others
are in the ring in order, and no call or continuation leaves `data`. -/
theorem pipe_fifo {k₀ k : Kernel} {g0 g1 : FdPipe} {tr : List (System × Act)}
    (hmake : createPipe k₀ g0 g1 a = (k, f0, f1, 0)) (hrun : Run (Step t f0 f1) (boot k) tr s) :
    s.obtained <+: s.stored ∧
      s.stored = s.obtained ++
        (List.range (s.kernel.pipe a).bytesToRead).map (fun j ↦
          (s.kernel.pipe a).data (((s.kernel.pipe a).readPos + j) % pipeSize)) ∧
      (s.kernel.pipe a).bytesToRead ≤ pipeSize ∧
      (∀ string, 0 ∉ string → (pipeWrite s.kernel t.writer f1 string).isSome) ∧
      (∀ i c string, s.writer = .waits i c string → s.kernel.pstate t.writer = 1 →
        (resumeWrite s.kernel t.writer f1 i c string).isSome) ∧
      ∀ limit, (pipeRead s.kernel t.reader f0 limit).isSome ∧
        (resumeRead s.kernel f0 limit).isSome := by
  obtain ⟨rfl, rfl, -, -, -, hboot⟩ := createPipe_ends (t := t) hmake
  have h : Invariant t a s := hrun.invariant (fun _ _ _ ha hs ↦ step_invariant ha hs) hboot
  refine ⟨⟨_, h.holds.content.symm⟩, h.holds.content, h.holds.bytes_le, fun string hnul ↦ ?_,
    fun i c string hwaits hready ↦ ?_, fun limit ↦ ⟨?_, ?_⟩⟩
  · obtain ⟨k', out, hcall, -⟩ := pipeWrite_spec (w := t.writer) h.holds h.readOpen hnul
    rw [hcall]; rfl
  · obtain ⟨k', out, hcall, -⟩ := resumeWrite_spec (i := i) (w := t.writer) h.holds
      (h.rest_no_nul i c string hwaits) (h.room i c string hwaits hready)
    rw [hcall]; rfl
  · obtain ⟨k', out, hcall, -⟩ := pipeRead_spec (r := t.reader) limit h.holds h.writeOpen
    rw [hcall]; rfl
  · obtain ⟨k', out, hcall, -⟩ := resumeRead_spec (r := t.reader) limit h.holds
    rw [hcall]; rfl

section Perform

variable {x : Act}

def perform (t : Parties) (f0 f1 : FdPipe) (s : System) : Act → Option System
  | .write string =>
    match s.writer with
    | .idle =>
      if 0 ∉ string then
        (pipeWrite s.kernel t.writer f1 string).map fun c ↦ { s with
          kernel := c.1
          writer := writerNext c.2
          stored := s.stored ++ string.take c.2.count }
      else none
    | .waits .. => none
  | .resumeWrite =>
    match s.writer with
    | .idle => none
    | .waits i c string =>
      if s.kernel.pstate t.writer = 1 then
        (resumeWrite s.kernel t.writer f1 i c string).map fun r ↦ { s with
          kernel := r.1
          writer := writerNext r.2
          stored := s.stored ++ (c :: string).take (r.2.count - i) }
      else none
  | .read limit =>
    match s.reader with
    | .idle => (pipeRead s.kernel t.reader f0 limit).map fun c ↦ { s with
        kernel := c.1
        reader := readerNext limit c.2
        obtained := s.obtained ++ received limit c.2 }
    | .waits _ => none
  | .resumeRead =>
    match s.reader with
    | .idle => none
    | .waits limit =>
      if s.kernel.pstate t.reader = 1 then
        (resumeRead s.kernel f0 limit).map fun r ↦ { s with
          kernel := r.1
          reader := readerNext limit r.2
          obtained := s.obtained ++ received limit r.2 }
      else none

theorem step_perform (h : perform t f0 f1 s x = some s') : Step t f0 f1 s x s' := by
  cases x with
  | write string =>
    cases hw : s.writer with
    | idle =>
      simp only [perform, hw] at h
      obtain ⟨hnul, h⟩ := Option.ite_none_right_eq_some.mp h
      obtain ⟨⟨k, out⟩, hcall, rfl⟩ := Option.map_eq_some_iff.mp h
      exact .write hw hnul hcall
    | waits i c string => simp [perform, hw] at h
  | resumeWrite =>
    cases hw : s.writer with
    | idle => simp [perform, hw] at h
    | waits i c string =>
      simp only [perform, hw] at h
      obtain ⟨hready, h⟩ := Option.ite_none_right_eq_some.mp h
      obtain ⟨⟨k, out⟩, hcall, rfl⟩ := Option.map_eq_some_iff.mp h
      exact .resumeWrite hw hready hcall
  | read limit =>
    cases hr : s.reader with
    | idle =>
      simp only [perform, hr] at h
      obtain ⟨⟨k, out⟩, hcall, rfl⟩ := Option.map_eq_some_iff.mp h
      exact .read hr hcall
    | waits limit' => simp [perform, hr] at h
  | resumeRead =>
    cases hr : s.reader with
    | idle => simp [perform, hr] at h
    | waits limit =>
      simp only [perform, hr] at h
      obtain ⟨hready, h⟩ := Option.ite_none_right_eq_some.mp h
      obtain ⟨⟨k, out⟩, hcall, rfl⟩ := Option.map_eq_some_iff.mp h
      exact .resumeRead hr hready hcall

theorem run_of_perform {acts : List Act} (h : acts.foldlM (perform t f0 f1) s = some s') :
    ∃ tr, Run (Step t f0 f1) s tr s' ∧ tr.map Prod.snd = acts := by
  obtain ⟨tr, hrun, hacts⟩ := run_of_foldlM h
  exact ⟨tr, hrun.mono fun _ _ _ hs ↦ step_perform hs, hacts⟩

end Perform

def twoProcesses : Parties := ⟨0x1000, 0x2000, by decide, by decide, by decide⟩

def newPipe : Kernel := (createPipe noPipes noFd noFd 0x3000).1

theorem newPipe_made : createPipe noPipes noFd noFd 0x3000 =
    (newPipe, ⟨1, 0, 0x3000⟩, ⟨0, 1, 0x3000⟩, 0) := rfl

def readFirst : List Act := [.read 1, .write [104, 105], .resumeRead]

theorem pipe_fifo_two_bytes : ∃ tr s,
    Run (Step twoProcesses ⟨1, 0, 0x3000⟩ ⟨0, 1, 0x3000⟩) (boot newPipe) tr s ∧
      tr.map Prod.snd = readFirst ∧ s.stored = [104, 105] ∧ s.obtained = [104] ∧
      s.obtained <+: s.stored := by
  have hend : (readFirst.foldlM (perform twoProcesses ⟨1, 0, 0x3000⟩ ⟨0, 1, 0x3000⟩)
      (boot newPipe)).map (fun s ↦ (s.stored, s.obtained)) = some ([104, 105], [104]) := by
    decide +kernel
  obtain ⟨s, hs, heq⟩ := Option.map_eq_some_iff.mp hend
  obtain ⟨tr, hrun, hacts⟩ := run_of_perform hs
  have hfifo := pipe_fifo newPipe_made hrun
  exact ⟨tr, s, hrun, hacts, congrArg Prod.fst heq, congrArg Prod.snd heq, hfifo.1⟩

end ShellOS.Ipc.PipeRun
