import ShellOS.Terminal.PipeLine
import ShellOS.Userland.Filters

namespace ShellOS.Userland.FiltersRun

open Library.LineMachine Library.Runs Ipc Pipes PipeSpec Terminal.Read Terminal.PipeLine Filters
open Function
open Terminal.LineDiscipline (Printable Shows)
open PipeRun (Parties readerNext writerNext holds_setWaiting took_after createPipe_ends)
open PipeEnds (wrote_pipe length_unread resumeRead_empty holds_setFlags)
open PipeTable (shutWrite closeFdPipe_write release_pipe release_pstate)

/-- The parties of a pipe, of which the writer may have closed its end, and
where the program stands that reads. `keys` are those it has got so far. -/
structure System where
  parties : PipeRun.System
  writeEnd : Bool
  tty : Tty
  point : Point
  keys : List UInt8

inductive Act
  | write (string : List UInt8)
  | resumeWrite
  | closeWrite
  | read
  | resumeRead
  | others

def Point.Ended : Point → Prop
  | .reads _ _ => False
  | _ => True

def keysOf : Read → List UInt8
  | .returned i _ => [keyOf i]
  | .blocked => []

def took (P : Program) (s : System) (k : Kernel) (out : Read) : System where
  parties := { s.parties with
    kernel := k
    reader := readerNext 1 out
    obtained := s.parties.obtained ++ received 1 out }
  writeEnd := s.writeEnd
  tty := ((keysOf out).foldl P.feed (s.tty, s.point)).1
  point := ((keysOf out).foldl P.feed (s.tty, s.point)).2
  keys := s.keys ++ keysOf out

variable (P : Program) (t : Parties) (a : ℕ)

/-- A writer stores the pieces of a text, of which none is empty, and closes
its end. The others may do what they like to the console. -/
inductive Step : System → Act → System → Prop
  | write {s : System} {string : List UInt8} {p : PipeRun.System} :
      s.writeEnd = true → string ≠ [] →
      PipeRun.Step t ⟨1, 0, a⟩ ⟨0, 1, a⟩ s.parties (.write string) p →
      Step s (.write string) { s with parties := p }
  | resumeWrite {s : System} {p : PipeRun.System} :
      s.writeEnd = true →
      PipeRun.Step t ⟨1, 0, a⟩ ⟨0, 1, a⟩ s.parties .resumeWrite p →
      Step s .resumeWrite { s with parties := p }
  | closeWrite {s : System} :
      s.writeEnd = true → s.parties.writer = .idle →
      Step s .closeWrite { s with
        parties := { s.parties with
          kernel := (closeFdPipe s.parties.kernel (some ⟨0, 1, a⟩)).1 }
        writeEnd := false }
  | read {s : System} {k : Kernel} {out : Read} :
      ¬ Point.Ended s.point → s.parties.reader = .idle →
      pipeRead s.parties.kernel t.reader ⟨1, 0, a⟩ 1 = some (k, out) →
      Step s .read (took P s k out)
  | resumeRead {s : System} {k : Kernel} {out : Read} :
      ¬ Point.Ended s.point → s.parties.reader = .waits 1 → s.parties.kernel.pstate t.reader = 1 →
      resumeRead s.parties.kernel ⟨1, 0, a⟩ 1 = some (k, out) →
      Step s .resumeRead (took P s k out)
  | others {s : System} {g : Tty} :
      g.mayus = s.tty.mayus → Step s .others { s with tty := g }

def boot (k : Kernel) (g : Tty) (buffer : Ipc.PipeConsole.Buffer) : System :=
  ⟨PipeRun.boot k, true, g, scan buffer ⟨[], 0⟩, []⟩

/-- The pipe holds what was written and not read; a writer that was woken finds
room in it, and a reader that was woken a byte or the end. -/
structure Flows (s : System) : Prop where
  holds : Holds (s.parties.kernel.pipe a) s.parties.stored s.parties.obtained
  readOpen : (s.parties.kernel.pipe a).readOpen = 1
  writeOpen : (s.parties.kernel.pipe a).writeOpen = 0 ↔ s.writeEnd = false
  rest_no_nul : ∀ i c string, s.parties.writer = .waits i c string → 0 ∉ c :: string
  room : ∀ i c string, s.parties.writer = .waits i c string →
    s.parties.kernel.pstate t.writer = 1 → (s.parties.kernel.pipe a).bytesToRead < pipeSize
  closed : s.writeEnd = false → s.parties.writer = .idle
  limit : ∀ limit, s.parties.reader = .waits limit → limit = 1
  asleep : s.parties.reader ≠ .idle → s.parties.kernel.pstate t.reader ≠ 1 →
    s.writeEnd = true ∧
      (s.parties.writer = .idle ∨ s.parties.kernel.pstate t.writer = 1 →
        (s.parties.kernel.pipe a).waitingProcess = t.reader)
  awoken : s.parties.reader ≠ .idle → s.parties.kernel.pstate t.reader = 1 →
    0 < (s.parties.kernel.pipe a).bytesToRead ∨ s.writeEnd = false

variable {P t a} {s s' : System} {x : Act}

theorem wrote_flows (h : Flows t a s) {i : ℕ} {string : List UInt8} {k : Kernel} {out : Written}
    (hopen : s.writeEnd = true) (hnul : 0 ∉ string) (hne : string ≠ [])
    (hturn : s.parties.writer = .idle ∨ s.parties.kernel.pstate t.writer = 1)
    (hw : Wrote s.parties.kernel a t.writer i string s.parties.stored s.parties.obtained k out) :
    Flows t a { s with parties := { s.parties with
      kernel := k
      writer := writerNext out
      stored := s.parties.stored ++ string.take (out.count - i) } } := by
  obtain ⟨hholds, hread, hwrite, hrest⟩ := wrote_pipe hw
  refine ⟨hholds, hread.trans h.readOpen, by rw [← h.writeOpen, ← hwrite], fun j c rest hnext ↦ ?_,
    fun j c rest hnext hready ↦ ?_, fun hclosed ↦ absurd (hopen.symm.trans hclosed) (by decide),
    h.limit, fun hreads hasleep ↦ ?_, fun _ _ ↦ Or.inl (PipeRun.wrote_bytes hw hne)⟩
  · obtain ⟨pre, hpre⟩ := hrest j c rest hnext
    rw [hpre] at hnul
    exact fun h0 ↦ hnul (List.mem_append_right pre h0)
  · cases hw with
    | returned => cases hnext
    | blocked =>
      rw [block_pstate, if_pos rfl] at hready
      cases hready
  · cases hw with
    | @returned p' hh hsame hb =>
      exfalso
      apply hasleep
      rw [awake_pstate _ _ _ t.reader_ne_null]
      split
      · rfl
      · rename_i hother
        by_contra hbefore
        have hwaiting := (h.asleep hreads hbefore).2 hturn
        rw [← hwaiting, ← hsame.waitingProcess] at hother
        exact hother (by simp)
    | @blocked p' s₁ s₂ c hstring hh hsame hb hlen =>
      rw [block_pstate, if_neg t.apart.symm] at hasleep
      refine ⟨(h.asleep hreads hasleep).1, fun hturn ↦ ?_⟩
      rcases hturn with hidle | hready
      · cases hidle
      · rw [block_pstate, if_pos rfl] at hready
        cases hready
theorem took_flows (h : Flows t a s) {k : Kernel} {i : ℤ} {buffer : List UInt8}
    (htook : Took s.parties.kernel a t.reader 1 s.parties.stored s.parties.obtained k
      (.returned i buffer)) : Flows t a (took P s k (.returned i buffer)) := by
  obtain ⟨hholds, hread, hwrite, hroom⟩ := took_after h.holds htook
  exact ⟨hholds, hread.trans h.readOpen, by rw [took, hwrite, h.writeOpen], h.rest_no_nul,
    fun _ _ _ _ _ ↦ hroom, h.closed, nofun, fun hreads ↦ absurd rfl hreads,
    fun hreads ↦ absurd rfl hreads⟩

theorem took_same_flows (h : Flows t a s) :
    Flows t a (took P s s.parties.kernel (.returned 0 [])) := by
  refine ⟨?_, h.readOpen, h.writeOpen, h.rest_no_nul, h.room, h.closed, nofun,
    fun hreads ↦ absurd rfl hreads, fun hreads ↦ absurd rfl hreads⟩
  simpa [took, received] using h.holds

theorem blocked_flows (h : Flows t a s) (hb : (s.parties.kernel.pipe a).bytesToRead = 0)
    (hopen : (s.parties.kernel.pipe a).writeOpen ≠ 0) :
    Flows t a (took P s (block s.parties.kernel a t.reader) .blocked) := by
  have hend : s.writeEnd = true := by
    by_contra hclosed
    exact hopen (h.writeOpen.mpr (by simpa using hclosed))
  have hpipe : (block s.parties.kernel a t.reader).pipe a =
      { s.parties.kernel.pipe a with waitingProcess := t.reader } := block_pipe _ _ _
  refine ⟨?_, ?_, ?_, h.rest_no_nul, fun _ _ _ _ _ ↦ ?_, h.closed, fun limit hwaits ↦ ?_,
    fun _ _ ↦ ⟨hend, fun _ ↦ ?_⟩, fun _ hready ↦ ?_⟩
  · simp only [took, hpipe, received, List.append_nil]
    exact holds_setWaiting h.holds t.reader
  · simp only [took, hpipe]
    exact h.readOpen
  · simp only [took, hpipe]
    exact h.writeOpen
  · simp only [took, hpipe, hb]
    decide
  · cases hwaits
    rfl
  · simp only [took, hpipe]
  · simp only [took, block_pstate, if_true] at hready
    cases hready

theorem closeWrite_flows (h : Flows t a s) (hidle : s.parties.writer = .idle) :
    Flows t a { s with
      parties := { s.parties with
        kernel := (closeFdPipe s.parties.kernel (some ⟨0, 1, a⟩)).1 }
      writeEnd := false } := by
  have hread := h.readOpen
  have hpipe : (closeFdPipe s.parties.kernel (some ⟨0, 1, a⟩)).1.pipe a =
      { s.parties.kernel.pipe a with writeOpen := 0, waitingProcess := 0 } := by
    rw [closeFdPipe_write, release_pipe, if_pos ⟨by omega, rfl⟩]
    simp [shutWrite]
  have hpstate : s.parties.reader ≠ .idle →
      (closeFdPipe s.parties.kernel (some ⟨0, 1, a⟩)).1.pstate t.reader = 1 := by
    intro hreads
    rw [closeFdPipe_write, release_pstate _ _ _ t.reader_ne_null]
    split
    · rfl
    · rename_i hother
      by_contra hbefore
      have hwaiting := (h.asleep hreads hbefore).2 (Or.inl hidle)
      exact hother ⟨by omega, by simp [shutWrite, hwaiting]⟩
  refine ⟨?_, ?_, ?_, h.rest_no_nul, ?_, fun _ ↦ hidle, h.limit,
    fun hreads hasleep ↦ absurd (hpstate hreads) hasleep, fun _ _ ↦ Or.inr rfl⟩
  · simp only [hpipe]
    exact holds_setFlags h.holds _ 0 0
  · simp only [hpipe]
    exact hread
  · simp only [hpipe]
  · intro i c string hwaits
    simp only [hidle] at hwaits
    cases hwaits

inductive Got (P : Program) (t : Parties) (a : ℕ) (s : System) (k : Kernel) : Read → Prop
  | byte {i : ℤ} {buffer rest : List UInt8} :
      unread (s.parties.kernel.pipe a) = keyOf i :: rest →
      received 1 (.returned i buffer) = [keyOf i] →
      unread (k.pipe a) = rest → Flows t a (took P s k (.returned i buffer)) →
      Got P t a s k (.returned i buffer)
  | eof : unread (s.parties.kernel.pipe a) = [] → s.writeEnd = false →
      Flows t a (took P s k (.returned 0 [])) → Got P t a s k (.returned 0 [])
  | blocked : s.writeEnd = true → Flows t a (took P s k .blocked) → Got P t a s k .blocked

theorem unread_nil_iff (p : Pipe) : unread p = [] ↔ p.bytesToRead = 0 := by
  rw [← length_unread, List.length_eq_zero_iff]

theorem pipeRead_got (P : Program) (h : Flows t a s) :
    ∃ k out, pipeRead s.parties.kernel t.reader ⟨1, 0, a⟩ 1 = some (k, out) ∧
      Got P t a s k out := by
  cases hunread : unread (s.parties.kernel.pipe a) with
  | cons c rest =>
    obtain ⟨k, i, buffer, hcall, rfl, hreceived, htook⟩ :=
      pipeRead_next (r := t.reader) h.holds hunread
    exact ⟨k, _, hcall, .byte hunread hreceived
      (received_unread h.holds hunread hreceived htook).2.symm (took_flows h htook)⟩
  | nil =>
    have hb := (unread_nil_iff _).mp hunread
    by_cases hopen : (s.parties.kernel.pipe a).writeOpen = 0
    · exact ⟨s.parties.kernel, .returned 0 [], by simp [pipeRead, hb, hopen],
        .eof hunread (h.writeOpen.mp hopen) (took_same_flows h)⟩
    · have hend : s.writeEnd = true := by
        by_contra hclosed
        exact hopen (h.writeOpen.mpr (by simpa using hclosed))
      exact ⟨block s.parties.kernel a t.reader, .blocked, by simp [pipeRead, hb, hopen],
        .blocked hend (blocked_flows h hb hopen)⟩

theorem resumeRead_got (P : Program) (h : Flows t a s) (hwaits : s.parties.reader = .waits 1)
    (hready : s.parties.kernel.pstate t.reader = 1) :
    ∃ k out, resumeRead s.parties.kernel ⟨1, 0, a⟩ 1 = some (k, out) ∧ out ≠ .blocked ∧
      Got P t a s k out := by
  cases hunread : unread (s.parties.kernel.pipe a) with
  | cons c rest =>
    obtain ⟨k, i, buffer, hcall, rfl, hreceived, htook⟩ :=
      resumeRead_next (r := t.reader) h.holds hunread
    exact ⟨k, _, hcall, by simp, .byte hunread hreceived
      (received_unread h.holds hunread hreceived htook).2.symm (took_flows h htook)⟩
  | nil =>
    have hb := (unread_nil_iff _).mp hunread
    have hend : s.writeEnd = false := by
      rcases h.awoken (by simp [hwaits]) hready with hpos | hend
      · omega
      · exact hend
    obtain ⟨k, hcall⟩ := resumeRead_empty 1 hb
    obtain ⟨k', out, hcall', htook⟩ := resumeRead_spec (r := t.reader) 1 h.holds
    rw [hcall] at hcall'
    cases hcall'
    exact ⟨k, _, hcall, by simp, .eof hunread hend (took_flows h htook)⟩

/-- The program stands where the keys take the machine over its lines, and the
keys are the bytes obtained, with zeros once all of them were. -/
structure Good (P : Program) (act : List UInt8 → State → Option State) (t : Parties) (a : ℕ)
    (s : System) : Prop where
  flows : Flows t a s
  keys : ∃ n, s.keys = s.parties.obtained ++ List.replicate n 0 ∧
    (n ≠ 0 → s.writeEnd = false ∧ s.parties.obtained = s.parties.stored)
  refines : Refines (s.tty, s.point) (s.keys.foldl (machine P act).feed (.reads [] ⟨[], 0⟩))

variable {act : List UInt8 → State → Option State}

theorem took_refines (hacts : Acts P act) (h : Good P act t a s) (k : Kernel) (out : Read) :
    Refines ((took P s k out).tty, (took P s k out).point)
      ((took P s k out).keys.foldl (machine P act).feed (.reads [] ⟨[], 0⟩)) := by
  simp only [took, List.foldl_append]
  cases out with
  | returned i buffer => exact feed_refines hacts h.refines (keyOf i)
  | blocked => exact h.refines

theorem got_good (hacts : Acts P act) (h : Good P act t a s) {k : Kernel} {out : Read}
    (hgot : Got P t a s k out) : Good P act t a (took P s k out) := by
  obtain ⟨n, hkeys, hzero⟩ := h.keys
  have hcontent := h.flows.holds.content
  cases hgot with
  | @byte i buffer rest hunread hreceived hrest hflows =>
    refine ⟨hflows, ⟨0, ?_, fun h0 ↦ absurd rfl h0⟩, took_refines hacts h k _⟩
    have hn : n = 0 := by
      by_contra hn
      rw [(hzero hn).2, hunread, List.self_eq_append_right] at hcontent
      cases hcontent
    rw [hn] at hkeys
    simp only [took, hkeys, hreceived, keysOf, List.replicate_zero, List.append_nil]
  | eof hunread hend hflows =>
    rw [hunread, List.append_nil] at hcontent
    refine ⟨hflows, ⟨n + 1, ?_, fun _ ↦ ⟨hend, ?_⟩⟩, took_refines hacts h k _⟩
    · have hkey : keyOf 0 = 0 := rfl
      simp only [took, hkeys, received, keysOf, hkey, if_true, List.append_nil,
        List.append_assoc, List.replicate_succ']
    · simp [took, received, hcontent]
  | blocked hend hflows =>
    refine ⟨hflows, ⟨n, ?_, fun hn ↦ ?_⟩, took_refines hacts h k _⟩
    · simp only [took, hkeys, received, keysOf, List.append_nil]
    · rw [(hzero hn).1] at hend
      cases hend

theorem wrote_good (h : Good P act t a s) {i : ℕ} {string : List UInt8} {k : Kernel}
    {out : Written} (hopen : s.writeEnd = true) (hnul : 0 ∉ string) (hne : string ≠ [])
    (hturn : s.parties.writer = .idle ∨ s.parties.kernel.pstate t.writer = 1)
    (hw : Wrote s.parties.kernel a t.writer i string s.parties.stored s.parties.obtained k out) :
    Good P act t a { s with parties := { s.parties with
      kernel := k
      writer := writerNext out
      stored := s.parties.stored ++ string.take (out.count - i) } } := by
  obtain ⟨n, hkeys, hzero⟩ := h.keys
  refine ⟨wrote_flows h.flows hopen hnul hne hturn hw, ⟨n, hkeys, fun hn ↦ ?_⟩, h.refines⟩
  exact absurd (hopen.symm.trans (hzero hn).1) (by decide)

theorem refines_tty {g g' : Tty} {point : Point} {stage : Stage State}
    (h : Refines (g, point) stage) (hmayus : g'.mayus = g.mayus) : Refines (g', point) stage := by
  cases h with
  | reads hoff hshows hlen hline => exact .reads (hmayus.trans hoff) hshows hlen hline
  | exited => exact .exited
  | undefined => exact .undefined
  | lost => exact .lost

theorem step_good (hacts : Acts P act) (h : Good P act t a s) (hs : Step P t a s x s') :
    Good P act t a s' := by
  have hflows := h.flows
  cases hs with
  | @write string p hopen hne hstep =>
    cases hstep with
    | @write string k out hidle hnul hcall =>
      obtain ⟨k', out', hcall', hw⟩ :=
        pipeWrite_spec (w := t.writer) hflows.holds hflows.readOpen hnul
      rw [hcall] at hcall'
      cases hcall'
      exact wrote_good h hopen hnul hne (Or.inl hidle) hw
  | @resumeWrite p hopen hstep =>
    cases hstep with
    | @resumeWrite i c string k out hwaits hready hcall =>
      have hnul := hflows.rest_no_nul i c string hwaits
      obtain ⟨k', out', hcall', hw⟩ := resumeWrite_spec (i := i) (w := t.writer) hflows.holds hnul
        (hflows.room i c string hwaits hready)
      rw [hcall] at hcall'
      cases hcall'
      exact wrote_good h hopen hnul (List.cons_ne_nil _ _) (Or.inr hready) hw
  | closeWrite hopen hidle =>
    obtain ⟨n, hkeys, hzero⟩ := h.keys
    exact ⟨closeWrite_flows hflows hidle, ⟨n, hkeys, fun hn ↦ ⟨rfl, (hzero hn).2⟩⟩, h.refines⟩
  | read hended hidle hcall =>
    obtain ⟨k, out, hcall', hgot⟩ := pipeRead_got P hflows
    rw [hcall] at hcall'
    cases hcall'
    exact got_good hacts h hgot
  | resumeRead hended hwaits hready hcall =>
    obtain ⟨k, out, hcall', -, hgot⟩ := resumeRead_got P hflows hwaits hready
    rw [hcall] at hcall'
    cases hcall'
    exact got_good hacts h hgot
  | others hmayus =>
    refine ⟨?_, h.keys, refines_tty h.refines hmayus⟩
    exact ⟨hflows.holds, hflows.readOpen, hflows.writeOpen, hflows.rest_no_nul, hflows.room,
      hflows.closed, hflows.limit, hflows.asleep, hflows.awoken⟩

theorem boot_good {k₀ k : Kernel} {f0 f1 g0 g1 : FdPipe} {g : Tty}
    {buffer : Ipc.PipeConsole.Buffer} (hmake : createPipe k₀ g0 g1 a = (k, f0, f1, 0))
    (hmayus : g.mayus = false) : Good P act t a (boot k g buffer) := by
  obtain ⟨-, -, -, -, -, hboot⟩ := createPipe_ends (t := t) hmake
  refine ⟨⟨hboot.holds, hboot.readOpen, ?_, nofun, nofun, nofun, nofun,
    fun h ↦ absurd rfl h, fun h ↦ absurd rfl h⟩, ⟨0, rfl, fun h ↦ absurd rfl h⟩, ?_⟩
  · have hopen := hboot.writeOpen
    simp only [PipeRun.boot] at hopen
    simp [boot, PipeRun.boot, hopen]
  · exact .reads hmayus (.start (Or.inl rfl) _) (Nat.zero_le _) (by simp)

theorem reader_goes (hacts : Acts P act) (h : Good P act t a s) (hclosed : s.writeEnd = false)
    (hended : ¬ Point.Ended s.point) :
    ∃ x s', Step P t a s x s' ∧ Good P act t a s' ∧ s'.writeEnd = false ∧
      s'.parties.stored = s.parties.stored ∧
      ((unread (s'.parties.kernel.pipe a)).length < (unread (s.parties.kernel.pipe a)).length ∨
        s.parties.stored ++ [0] <+: s'.keys) := by
  obtain ⟨x, k, out, hstep, hgot⟩ : ∃ x k out, Step P t a s x (took P s k out) ∧
      Got P t a s k out := by
    cases hreader : s.parties.reader with
    | idle =>
      obtain ⟨k, out, hcall, hgot⟩ := pipeRead_got P h.flows
      exact ⟨_, k, out, .read hended hreader hcall, hgot⟩
    | waits limit =>
      have hlimit := h.flows.limit limit hreader
      rw [hlimit] at hreader
      have hready : s.parties.kernel.pstate t.reader = 1 := by
        by_contra hasleep
        have hopen := (h.flows.asleep (by simp [hreader]) hasleep).1
        exact absurd (hopen.symm.trans hclosed) (by decide)
      obtain ⟨k, out, hcall, -, hgot⟩ := resumeRead_got P h.flows hreader hready
      exact ⟨_, k, out, .resumeRead hended hreader hready hcall, hgot⟩
  have hgood := got_good hacts h hgot
  refine ⟨x, _, hstep, hgood, hclosed, rfl, ?_⟩
  cases hgot with
  | byte hunread hreceived hrest hflows =>
    refine Or.inl ?_
    rw [hunread]
    simp only [took, hrest]
    exact Nat.lt_succ_self _
  | eof hunread hend hflows =>
    obtain ⟨n, hkeys, hzero⟩ := h.keys
    have hcontent := h.flows.holds.content
    rw [hunread, List.append_nil] at hcontent
    refine Or.inr ⟨List.replicate n 0, ?_⟩
    have hkey : keyOf 0 = 0 := rfl
    simp only [took, hkeys, hcontent, keysOf, hkey, List.append_assoc, List.singleton_append,
      ← List.replicate_succ, ← List.replicate_succ']
  | blocked hend hflows => exact absurd (hend.symm.trans hclosed) (by decide)

section Texts

variable {app : App} {lines : List (List UInt8)}

theorem isLine (app : App) {line : List UInt8} (h : (∀ c ∈ line, Printable c) ∧ line.length ≤ 99) :
    app.machine.IsLine line := by
  refine ⟨fun c hc ↦ ⟨decide_eq_true (h.1 c hc), fun h10 ↦ ?_, fun h0 ↦ ?_⟩, h.2⟩
  · exact absurd (h10 ▸ h.1 c hc) (by decide)
  · exact absurd (h0 ▸ h.1 c hc) (by decide)

def Right (app : App) (lines : List (List UInt8)) : Point → Prop
  | .exited s => s.output = app.expected lines
  | _ => False

theorem keys_part (h : Good P act t a s) (hstored : s.parties.stored <+: text lines)
    (hclosed : s.writeEnd = false → s.parties.stored = text lines) :
    s.keys <+: text lines ++ [0] ∨ text lines ++ [0] <+: s.keys := by
  obtain ⟨n, hkeys, hzero⟩ := h.keys
  cases n with
  | zero =>
    have hobtained : s.parties.obtained <+: s.parties.stored := ⟨_, h.flows.holds.content.symm⟩
    rw [List.replicate_zero, List.append_nil] at hkeys
    rw [hkeys]
    exact Or.inl ((hobtained.trans hstored).trans (List.prefix_append _ _))
  | succ n =>
    obtain ⟨hend, heq⟩ := hzero (Nat.succ_ne_zero n)
    rw [hkeys, heq, hclosed hend, List.replicate_succ]
    exact Or.inr ⟨List.replicate n 0, by simp⟩

theorem refines_ended {g : Tty} {point : Point} {stage : Stage State}
    (h : Refines (g, point) stage) (hended : Point.Ended point) : stage.Ended := by
  cases h with
  | reads => exact hended
  | exited | undefined | lost => trivial

theorem refines_run {g : Tty} {point : Point}
    (h : Refines (g, point) (app.machine.run lines ⟨[], 0⟩)) :
    Point.Ended point ∧ (Right app lines point ↔ app.Handles lines) := by
  rw [← run_right_iff app, App.Right]
  rcases run_cases app.machine lines ⟨[], 0⟩ with ⟨s', hrun⟩ | hrun
  · rw [hrun] at h ⊢
    cases h with
    | exited =>
      refine ⟨trivial, fun hright ↦ ⟨s', rfl, hright⟩, ?_⟩
      rintro ⟨s'', heq, hright⟩
      cases heq
      exact hright
  · rw [hrun] at h ⊢
    cases h with
    | undefined =>
      refine ⟨trivial, fun hright ↦ hright.elim, ?_⟩
      rintro ⟨s', heq, -⟩
      cases heq

structure Writes (lines : List (List UInt8)) (s : System) : Prop where
  stored : s.parties.stored <+: text lines
  closed : s.writeEnd = false → s.parties.stored = text lines

variable (hlines : ∀ line ∈ lines, (∀ c ∈ line, Printable c) ∧ line.length ≤ 99)
include hlines

theorem right_iff (h : Good app.program app.act t a s) (hwrites : Writes lines s)
    (hended : Point.Ended s.point) : Right app lines s.point ↔ app.Handles lines := by
  have hrefines := h.refines
  have hrun := feed_part (fun line hline ↦ isLine app (hlines line hline))
    (keys_part h hwrites.stored hwrites.closed) (refines_ended hrefines hended)
  rw [App.machine] at hrun
  rw [hrun] at hrefines
  exact (refines_run hrefines).2

theorem reader_finishes (h : Good app.program app.act t a s) (hwrites : Writes lines s)
    (hclosed : s.writeEnd = false) :
    ∃ tr s', Run (Step app.program t a) s tr s' ∧ Point.Ended s'.point ∧
      (Right app lines s'.point ↔ app.Handles lines) := by
  induction hn : (unread (s.parties.kernel.pipe a)).length using Nat.strong_induction_on
    generalizing s with
  | _ n ih =>
    by_cases hended : Point.Ended s.point
    · exact ⟨[], s, .nil s, hended, right_iff hlines h hwrites hended⟩
    · obtain ⟨x, s₁, hstep, h₁, hclosed₁, hstored₁, hless | hkeys⟩ :=
        reader_goes app.acts h hclosed hended
      · have hwrites₁ : Writes lines s₁ := by
          refine ⟨?_, fun _ ↦ ?_⟩
          · rw [hstored₁]
            exact hwrites.stored
          · rw [hstored₁]
            exact hwrites.closed hclosed
        obtain ⟨tr, s', hrun, hend⟩ := ih _ (hn ▸ hless) h₁ hwrites₁ hclosed₁ rfl
        exact ⟨_, s', .cons hstep hrun, hend⟩
      · rw [hwrites.closed hclosed] at hkeys
        have hrefines := h₁.refines
        have hfold := feed_whole (m := app.machine) (s := ⟨[], 0⟩)
          (fun line hline ↦ isLine app (hlines line hline)) hkeys
        rw [App.machine] at hfold
        rw [hfold] at hrefines
        exact ⟨_, s₁, .one hstep, refines_run hrefines⟩

/-- In every run in which a text is written into a new pipe, a program that has
ended has put out what it is to put out exactly if it handles the text; and once
the end is closed it can go on until it has ended. -/
theorem filters_iff (app : App) {k₀ k : Kernel} {f0 f1 g0 g1 : FdPipe} {g : Tty}
    {buffer : Ipc.PipeConsole.Buffer} {tr : List (System × Act)}
    (hmake : createPipe k₀ g0 g1 a = (k, f0, f1, 0)) (hmayus : g.mayus = false)
    (hrun : Run (Step app.program t a) (boot k g buffer) tr s) (hwrites : Writes lines s) :
    (Point.Ended s.point → (Right app lines s.point ↔ app.Handles lines)) ∧
      (s.writeEnd = false → ∃ tr' s', Run (Step app.program t a) s tr' s' ∧
        Point.Ended s'.point ∧ (Right app lines s'.point ↔ app.Handles lines)) := by
  have h : Good app.program app.act t a s :=
    hrun.invariant (fun _ _ _ h hs ↦ step_good app.acts h hs) (boot_good hmake hmayus)
  exact ⟨right_iff hlines h hwrites, reader_finishes hlines h hwrites⟩

end Texts

section Examples

open PipeRun (newPipe newPipe_made twoProcesses)
open Terminal.LineDiscipline (bootTty)

abbrev CatStep := Step cat twoProcesses 0x3000

def catBoot : System := boot newPipe bootTty fun _ ↦ 0

theorem filters_one_line : ∃ tr s, Run CatStep catBoot tr s ∧ Point.Ended s.point ∧
    Right .cat [[97]] s.point := by
  have hwrite : CatStep catBoot (.write [97, 10]) _ :=
    .write rfl (by decide) (.write rfl (by decide) rfl)
  have hrun := (Run.one hwrite).trans (.one (.closeWrite rfl rfl))
  have hlines : ∀ line ∈ [[97]], (∀ c ∈ line, Printable c) ∧ line.length ≤ 99 := by
    simp [Printable]
  obtain ⟨-, hends⟩ := filters_iff hlines .cat newPipe_made rfl hrun
    ⟨List.prefix_rfl, fun _ ↦ rfl⟩
  obtain ⟨tr, s, hrun', hended, hright⟩ := hends rfl
  have hhandles : [] ∉ [[(97 : UInt8)]] := by decide
  exact ⟨_, s, hrun.trans hrun', hended, hright.mpr hhandles⟩

/-- `cat` stops at an empty line: of `a`, the empty line and `b` it puts out `a`. -/
theorem cat_stops_at_empty_line : ∃ tr s tr' s', Run CatStep catBoot tr s ∧
    s.parties.stored = text [[97], [], [98]] ∧ s.writeEnd = false ∧ Run CatStep s tr' s' ∧
    Point.Ended s'.point ∧ ¬ Right .cat [[97], [], [98]] s'.point := by
  have hwrite : CatStep catBoot (.write [97, 10, 10, 98, 10]) _ :=
    .write rfl (by decide) (.write rfl (by decide) rfl)
  have hrun := (Run.one hwrite).trans (.one (.closeWrite rfl rfl))
  have hlines : ∀ line ∈ [[97], [], [98]], (∀ c ∈ line, Printable c) ∧ line.length ≤ 99 := by
    simp [Printable]
  have h := hrun.invariant (fun _ _ _ h hs ↦ step_good (App.acts .cat) h hs)
    (boot_good newPipe_made rfl)
  obtain ⟨tr', s', hrun', hended, hright⟩ :=
    reader_finishes hlines h ⟨List.prefix_rfl, fun _ ↦ rfl⟩ rfl
  have hhandles : ¬ [] ∉ [[(97 : UInt8)], [], [98]] := by decide
  exact ⟨_, _, tr', s', hrun, rfl, rfl, hrun', hended, fun h ↦ hhandles (hright.mp h)⟩

end Examples

end ShellOS.Userland.FiltersRun
