import ShellOS.Ipc.PipeRun

namespace ShellOS.Ipc.PipeWaiters

open Library.Runs Pipes PipeSpec PipeRun Function

variable (t : Parties) (a : ℕ)

def WriterBlocked (s : System) : Prop := s.writer ≠ .idle ∧ s.kernel.pstate t.writer ≠ 1

def ReaderBlocked (s : System) : Prop := s.reader ≠ .idle ∧ s.kernel.pstate t.reader ≠ 1

structure Remembered (s : System) : Prop where
  writer : WriterBlocked t s → (s.kernel.pipe a).waitingProcess = t.writer
  reader : ReaderBlocked t s → (s.kernel.pipe a).waitingProcess = t.reader

/-- What the writer is about to store, while the reader is blocked, fits the ring. -/
def Fits (s : System) : Act → Prop
  | .write string => ReaderBlocked t s → string.length ≤ pipeSize
  | .resumeWrite => ReaderBlocked t s →
      ∀ i c string, s.writer = .waits i c string → string.length + 1 ≤ pipeSize
  | _ => True

structure Levels (s : System) : Prop where
  inv : Invariant t a s
  full : WriterBlocked t s → (s.kernel.pipe a).bytesToRead = pipeSize
  empty : ReaderBlocked t s → (s.kernel.pipe a).bytesToRead = 0

variable {t a} {s s' : System}

theorem Remembered.not_both (h : Remembered t a s) : ¬ (WriterBlocked t s ∧ ReaderBlocked t s) := by
  intro hboth
  have hw := h.writer hboth.1
  have hr := h.reader hboth.2
  exact t.apart (hw.symm.trans hr)

theorem awake_none (h : Remembered t a s) {p' : Pipe} (hsame : SameEnds (s.kernel.pipe a) p') :
    (s.writer ≠ .idle → (awake (s.kernel.setPipe a p') a).pstate t.writer = 1) ∧
      (s.reader ≠ .idle → (awake (s.kernel.setPipe a p') a).pstate t.reader = 1) := by
  have hwait : ((s.kernel.setPipe a p').pipe a).waitingProcess =
      (s.kernel.pipe a).waitingProcess := by
    simp [hsame.waitingProcess]
  rw [awake_pstate _ _ _ t.writer_ne_null, awake_pstate _ _ _ t.reader_ne_null, hwait]
  refine ⟨fun hw ↦ ?_, fun hr ↦ ?_⟩
  · by_cases hb : s.kernel.pstate t.writer = 1
    · simp [hb]
    · rw [if_pos (h.writer ⟨hw, hb⟩).symm]
  · by_cases hb : s.kernel.pstate t.reader = 1
    · simp [hb]
    · rw [if_pos (h.reader ⟨hr, hb⟩).symm]

theorem wrote_remembered (h : Levels t a s) (hP : Remembered t a s) {i : ℕ} {string : List UInt8}
    {k : Kernel} {out : Written}
    (hw : Wrote s.kernel a t.writer i string s.stored s.obtained k out) {stored : List UInt8}
    (hs' : s' = { s with kernel := k, writer := writerNext out, stored := stored }) :
    (Remembered t a s' ↔ (ReaderBlocked t s → string.length ≤ pipeSize)) ∧
      (Remembered t a s' → (WriterBlocked t s' → (s'.kernel.pipe a).bytesToRead = pipeSize) ∧
        (ReaderBlocked t s' → (s'.kernel.pipe a).bytesToRead = 0)) := by
  subst hs'
  cases hw with
  | @returned p' hh hsame hb =>
    obtain ⟨-, hr⟩ := awake_none hP hsame
    have hfree : ¬ ReaderBlocked t { s with
        kernel := awake (s.kernel.setPipe a p') a
        writer := writerNext (.returned (i + string.length : ℕ))
        stored := stored } := fun hblocked ↦ hblocked.2 (hr hblocked.1)
    refine ⟨⟨fun _ hblocked ↦ ?_, fun _ ↦ ⟨?_, ?_⟩⟩, fun _ ↦ ⟨?_, ?_⟩⟩
    · have hle := hh.bytes_le
      have h0 := h.empty hblocked
      omega
    · intro hblocked
      exact absurd rfl hblocked.1
    · intro hblocked
      exact absurd hblocked hfree
    · intro hblocked
      exact absurd rfl hblocked.1
    · intro hblocked
      exact absurd hblocked hfree
  | @blocked p' s₁ s₂ c hstring hh hsame hb hlen =>
    have hreader : (block (s.kernel.setPipe a p') a t.writer).pstate t.reader =
        s.kernel.pstate t.reader := by
      rw [block_pstate, if_neg t.apart.symm]
      rfl
    have hwaiting : ((block (s.kernel.setPipe a p') a t.writer).pipe a).waitingProcess =
        t.writer := by
      rw [block_pipe]
    refine ⟨⟨fun hP' hblocked ↦ ?_, fun hok ↦ ⟨fun _ ↦ hwaiting, fun hblocked ↦ ?_⟩⟩,
      fun hP' ↦ ⟨fun _ ↦ ?_, fun hblocked ↦ ?_⟩⟩
    · have hr := hP'.reader ⟨hblocked.1, by rw [hreader]; exact hblocked.2⟩
      exact absurd (hwaiting.symm.trans hr) t.apart
    · have hbefore : ReaderBlocked t s := ⟨hblocked.1, by rw [← hreader]; exact hblocked.2⟩
      have hle := hok hbefore
      have h0 := h.empty hbefore
      rw [hstring, List.length_append, List.length_cons] at hle
      omega
    · rw [block_pipe]
      simpa using hb
    · have hr := hP'.reader hblocked
      exact absurd (hwaiting.symm.trans hr) t.apart

theorem took_remembered (h : Levels t a s) (hP : Remembered t a s) {limit : ℤ} {k : Kernel}
    {out : Read} (ht : Took s.kernel a t.reader limit s.stored s.obtained k out)
    {obtained : List UInt8}
    (hs' : s' = { s with kernel := k, reader := readerNext limit out, obtained := obtained }) :
    Remembered t a s' ∧ (WriterBlocked t s' → (s'.kernel.pipe a).bytesToRead = pipeSize) ∧
      (ReaderBlocked t s' → (s'.kernel.pipe a).bytesToRead = 0) := by
  subst hs'
  cases ht with
  | @returned p' out hh hsame hb hout =>
    obtain ⟨hw, -⟩ := awake_none hP hsame
    have hidle : readerNext limit out = .idle := by
      cases out with
      | returned i buffer => rfl
      | blocked => exact absurd rfl hout
    refine ⟨⟨?_, ?_⟩, ?_, ?_⟩
    · exact fun hblocked ↦ absurd (hw hblocked.1) hblocked.2
    · exact fun hblocked ↦ absurd hidle hblocked.1
    · exact fun hblocked ↦ absurd (hw hblocked.1) hblocked.2
    · exact fun hblocked ↦ absurd hidle hblocked.1
  | blocked hb =>
    have hwriter : (block s.kernel a t.reader).pstate t.writer = s.kernel.pstate t.writer := by
      rw [block_pstate, if_neg t.apart]
    have hfree : s.writer ≠ .idle → (block s.kernel a t.reader).pstate t.writer = 1 := by
      intro hidle
      rw [hwriter]
      by_contra hne
      have hfull := h.full ⟨hidle, hne⟩
      rw [hb] at hfull
      cases hfull
    refine ⟨⟨?_, fun _ ↦ ?_⟩, ?_, fun _ ↦ ?_⟩
    · exact fun hblocked ↦ absurd (hfree hblocked.1) hblocked.2
    · rw [block_pipe]
    · exact fun hblocked ↦ absurd (hfree hblocked.1) hblocked.2
    · rw [block_pipe]
      exact hb

theorem step_remembered (h : Levels t a s) (hP : Remembered t a s) {x : Act}
    (hs : Step t ⟨1, 0, a⟩ ⟨0, 1, a⟩ s x s') :
    (Remembered t a s' ↔ Fits t s x) ∧ (Remembered t a s' → Levels t a s') := by
  have hinv := step_invariant h.inv hs
  rcases hs.cases_segment h.inv with
    ⟨i, string, k, out, hnul, hx, hw, hs'⟩ | ⟨limit, k, out, hx, ht, hs'⟩
  · obtain ⟨hiff, hlevels⟩ := wrote_remembered h hP hw hs'
    refine ⟨hiff.trans ?_, fun hP' ↦ ⟨hinv, (hlevels hP').1, (hlevels hP').2⟩⟩
    rcases hx with ⟨rfl, -, -⟩ | ⟨rfl, -, c, rest, rfl, hwaits⟩
    · rfl
    · constructor
      · intro hfits hblocked i' c' rest' hwaits'
        rw [hwaits] at hwaits'
        cases hwaits'
        exact hfits hblocked
      · exact fun hfits hblocked ↦ hfits hblocked i c rest hwaits
  · obtain ⟨hP', hfull, hempty⟩ := took_remembered h hP ht hs'
    refine ⟨⟨fun _ ↦ ?_, fun _ ↦ hP'⟩, fun _ ↦ ⟨hinv, hfull, hempty⟩⟩
    rcases hx with ⟨rfl, -⟩ | ⟨rfl, -⟩ <;> exact trivial

/-- A waiter is never lost, and the two parties are never both blocked, in
exactly those runs in which whatever is written while the reader is blocked
fits the ring. -/
theorem waiter_remembered_iff {k₀ k : Kernel} {g0 g1 f0 f1 : FdPipe} {tr : List (System × Act)}
    (hmake : createPipe k₀ g0 g1 a = (k, f0, f1, 0)) (hrun : Run (Step t f0 f1) (boot k) tr s) :
    Always (fun s ↦ Remembered t a s ∧ ¬ (WriterBlocked t s ∧ ReaderBlocked t s)) tr s ↔
      ∀ e ∈ tr, Fits t e.1 e.2 := by
  obtain ⟨rfl, rfl, -, -, -, hboot⟩ := createPipe_ends (t := t) hmake
  have hlevels : Levels t a (boot k) :=
    ⟨hboot, fun h ↦ absurd rfl h.1, fun h ↦ absurd rfl h.1⟩
  have hremembered : Remembered t a (boot k) := ⟨fun h ↦ absurd rfl h.1, fun h ↦ absurd rfl h.1⟩
  refine Run.always_iff (I := Levels t a) (fun s x s' h hP hs hP' ↦ ?_) (fun s x s' h hP hs ↦ ?_)
    hrun hlevels ⟨hremembered, hremembered.not_both⟩
  · exact (step_remembered h hP.1 hs).2 hP'.1
  · rw [← (step_remembered h hP.1 hs).1]
    exact ⟨And.left, fun hP' ↦ ⟨hP', hP'.not_both⟩⟩

section Examples

abbrev TwoStep := Step twoProcesses ⟨1, 0, 0x3000⟩ ⟨0, 1, 0x3000⟩

def readerWaits : System :=
  ⟨block newPipe 0x3000 twoProcesses.reader, .idle, .waits 0, [], []⟩

theorem readerWaits_step : TwoStep (boot newPipe) (.read 0) readerWaits := by
  have hcall : pipeRead (boot newPipe).kernel twoProcesses.reader ⟨1, 0, 0x3000⟩ 0 =
      some (readerWaits.kernel, .blocked) := rfl
  exact Step.read rfl hcall

theorem waiter_remembered_short_write : ∃ tr s, Run TwoStep (boot newPipe) tr s ∧
    tr.map Prod.snd = readFirst ∧
    Always (fun s ↦ Remembered twoProcesses 0x3000 s ∧
      ¬ (WriterBlocked twoProcesses s ∧ ReaderBlocked twoProcesses s)) tr s := by
  have hsome : (readFirst.foldlM (perform twoProcesses ⟨1, 0, 0x3000⟩ ⟨0, 1, 0x3000⟩)
      (boot newPipe)).isSome := by decide +kernel
  obtain ⟨s, hs⟩ := Option.isSome_iff_exists.mp hsome
  obtain ⟨tr, hrun, hacts⟩ := run_of_perform hs
  refine ⟨tr, s, hrun, hacts, (waiter_remembered_iff newPipe_made hrun).mpr fun e he ↦ ?_⟩
  have hmem : e.2 ∈ readFirst := hacts ▸ List.mem_map_of_mem he
  simp only [readFirst, List.mem_cons, List.not_mem_nil, or_false] at hmem
  rcases hmem with hx | hx | hx
  · rw [hx]
    exact trivial
  · rw [hx]
    exact fun _ ↦ by decide
  · rw [hx]
    exact trivial

/-- A reader waits and then a string of 513 bytes is written: both are blocked
and only the writer is remembered. -/
theorem reader_forgotten : ∃ tr s, Run TwoStep (boot newPipe) tr s ∧
    ReaderBlocked twoProcesses s ∧ WriterBlocked twoProcesses s ∧
    (s.kernel.pipe 0x3000).waitingProcess = twoProcesses.writer := by
  obtain ⟨-, -, -, -, -, hboot⟩ := createPipe_ends (t := twoProcesses) newPipe_made
  have h := step_invariant hboot readerWaits_step
  have hnul : (0 : UInt8) ∉ List.replicate 513 1 := by
    intro h0
    cases List.eq_of_mem_replicate h0
  obtain ⟨k, out, hcall, hw⟩ :=
    pipeWrite_spec (w := twoProcesses.writer) h.holds h.readOpen hnul
  refine ⟨_, _, .cons readerWaits_step (Run.one (.write rfl hnul hcall)), ?_⟩
  cases hw with
  | @returned p' hh hsame hb =>
    have hle := hh.bytes_le
    have h0 : (readerWaits.kernel.pipe 0x3000).bytesToRead = 0 := rfl
    rw [h0, List.length_replicate] at hb
    unfold pipeSize at hle
    omega
  | @blocked p' s₁ s₂ c hstring hh hsame hb hlen =>
    refine ⟨⟨nofun, ?_⟩, ⟨nofun, ?_⟩, ?_⟩
    · simp [block_pstate, readerWaits, twoProcesses]
    · simp [block_pstate]
    · simp [block_pipe]

end Examples

end ShellOS.Ipc.PipeWaiters
