import ShellOS.Ipc.PipeRun
import ShellOS.Ipc.PipeTable

namespace ShellOS.Ipc.PipeEnds

open Library.Ring Library.Runs Pipes PipeSpec Function
open PipeRun (Parties Writer Reader writerNext readerNext holds_setWaiting)
open PipeTable (shutRead shutWrite release closeFdPipe_read closeFdPipe_write)

/-- The two parties of a pipe, and whether each still has its descriptor. -/
structure System where
  parties : PipeRun.System
  readEnd : Bool
  writeEnd : Bool

inductive Act
  | call (x : PipeRun.Act)
  | closeRead
  | closeWrite
  | changeProcessState (process : ℕ)

/-- `changeProcessState` of a pcb that `getPCB` has found. -/
def changeProcessState (k : Kernel) (process : ℕ) : Kernel :=
  if k.pstate process = 1 then k.setState process 0
  else if k.pstate process = 0 then k.setState process 1
  else k

def Usable (s : System) : PipeRun.Act → Prop
  | .write _ | .resumeWrite => s.writeEnd = true
  | .read _ | .resumeRead => s.readEnd = true

variable (t : Parties) (a : ℕ)

inductive Step : System → Act → System → Prop
  | call {s : System} {x : PipeRun.Act} {p : PipeRun.System} :
      Usable s x → PipeRun.Step t ⟨1, 0, a⟩ ⟨0, 1, a⟩ s.parties x p →
      Step s (.call x) { s with parties := p }
  | closeRead {s : System} :
      s.readEnd = true → s.parties.reader = .idle →
      Step s .closeRead { s with
        parties := { s.parties with
          kernel := (closeFdPipe s.parties.kernel (some ⟨1, 0, a⟩)).1 }
        readEnd := false }
  | closeWrite {s : System} :
      s.writeEnd = true → s.parties.writer = .idle →
      Step s .closeWrite { s with
        parties := { s.parties with
          kernel := (closeFdPipe s.parties.kernel (some ⟨0, 1, a⟩)).1 }
        writeEnd := false }
  | changeProcessState {s : System} {process : ℕ} :
      process = t.writer ∨ process = t.reader →
      Step s (.changeProcessState process) { s with
        parties := { s.parties with
          kernel := changeProcessState s.parties.kernel process } }

def boot (k : Kernel) : System := ⟨PipeRun.boot k, true, true⟩

/-- The ring is within its bound, and a byte that was stored and not yet
obtained is still in it. -/
def Kept (s : System) : Prop :=
  (s.parties.kernel.pipe a).bytesToRead ≤ pipeSize ∧
    s.parties.stored = s.parties.obtained ++ unread (s.parties.kernel.pipe a)

def FindsRoom (s : System) : Act → Prop
  | .call .resumeWrite => (s.parties.kernel.pipe a).bytesToRead ≠ pipeSize
  | _ => True

def FindsBytes (s : System) : Act → Prop
  | .call .resumeRead =>
    (s.parties.kernel.pipe a).bytesToRead = 0 → s.writeEnd = false
  | _ => True

def EndOfFile (s : System) : Prop :=
  s.writeEnd = false ∧ s.parties.obtained = s.parties.stored

def ZeroIsEof (s : System) : Act → Prop
  | .call (.read limit) => ∀ k buffer,
    pipeRead s.parties.kernel t.reader ⟨1, 0, a⟩ limit = some (k, .returned 0 buffer) →
      EndOfFile s
  | .call .resumeRead => ∀ limit k buffer, s.parties.reader = .waits limit →
    resumeRead s.parties.kernel ⟨1, 0, a⟩ limit = some (k, .returned 0 buffer) → EndOfFile s
  | _ => True

structure Sound (s : System) : Prop where
  holds : Holds (s.parties.kernel.pipe a) s.parties.stored s.parties.obtained
  rest_no_nul : ∀ i c string, s.parties.writer = .waits i c string → 0 ∉ c :: string
  readOpen : (s.parties.kernel.pipe a).readOpen = 0 ↔ s.readEnd = false
  writeOpen : (s.parties.kernel.pipe a).writeOpen = 0 ↔ s.writeEnd = false

variable {t a} {s s' : System} {k : Kernel} {x : Act}

theorem Sound.kept (h : Sound a s) : Kept a s := ⟨h.holds.bytes_le, h.holds.content⟩

theorem pipeWrite_cases {stored obtained string : List UInt8} {w : ℕ}
    (h : Holds (k.pipe a) stored obtained) (hs : 0 ∉ string) :
    ∃ k' out, pipeWrite k w ⟨0, 1, a⟩ string = some (k', out) ∧
      (Wrote k a w 0 string stored obtained k' out ∨ k' = k ∧ out = .returned (-1)) := by
  by_cases hno : (k.pipe a).readOpen = 0 ∧ (k.pipe a).bytesToRead = pipeSize
  · exact ⟨k, .returned (-1), by simp [pipeWrite, hno], Or.inr ⟨rfl, rfl⟩⟩
  · obtain ⟨k', out, hloop, hw⟩ := writeLoop_wrote (i := 0) (w := w) h hs
    refine ⟨k', out, ?_, Or.inl hw⟩
    rw [← hloop]
    simp only [pipeWrite, one_ne_zero, false_or, if_neg hno]

theorem pipeRead_cases {stored obtained : List UInt8} {r : ℕ} (limit : ℤ)
    (h : Holds (k.pipe a) stored obtained) :
    ∃ k' out, pipeRead k r ⟨1, 0, a⟩ limit = some (k', out) ∧
      (Took k a r limit stored obtained k' out ∨
        (k.pipe a).bytesToRead = 0 ∧ (k.pipe a).writeOpen = 0 ∧ k' = k ∧ out = .returned 0 []) := by
  by_cases hb : (k.pipe a).bytesToRead = 0
  · by_cases hopen : (k.pipe a).writeOpen = 0
    · exact ⟨k, .returned 0 [], by simp [pipeRead, hb, hopen], Or.inr ⟨hb, hopen, rfl, rfl⟩⟩
    · exact ⟨block k a r, .blocked, by simp [pipeRead, hb, hopen], Or.inl (.blocked hb)⟩
  · obtain ⟨k', out, hread, ht⟩ := resumeRead_spec (r := r) limit h
    refine ⟨k', out, ?_, Or.inl ht⟩
    rw [← hread]
    simp [pipeRead, hb]

theorem wrote_pipe {stored obtained string : List UInt8} {w i : ℕ} {k' : Kernel} {out : Written}
    (h : Wrote k a w i string stored obtained k' out) :
    Holds (k'.pipe a) (stored ++ string.take (out.count - i)) obtained ∧
      (k'.pipe a).readOpen = (k.pipe a).readOpen ∧
      (k'.pipe a).writeOpen = (k.pipe a).writeOpen ∧
      ∀ j c rest, writerNext out = .waits j c rest → ∃ pre, string = pre ++ c :: rest := by
  cases h with
  | @returned p' hh hsame hb =>
    have htake : string.take (i + string.length - i) = string := by
      rw [Nat.add_sub_cancel_left, List.take_length]
    simp only [awake_pipe, Kernel.setPipe, update_self, Written.count, Int.toNat_natCast, htake]
    refine ⟨holds_setWaiting hh 0, hsame.readOpen, hsame.writeOpen, fun j d rest hnext ↦ ?_⟩
    cases hnext
  | @blocked p' s₁ s₂ c hstring hh hsame hb hlen =>
    have htake : string.take (i + s₁.length - i) = s₁ := by
      rw [hstring, Nat.add_sub_cancel_left, List.take_left]
    simp only [block_pipe, Kernel.setPipe, update_self, Written.count, htake]
    refine ⟨holds_setWaiting hh w, hsame.readOpen, hsame.writeOpen, fun j d rest hnext ↦ ?_⟩
    cases hnext
    exact ⟨s₁, hstring⟩

theorem took_pipe {stored obtained : List UInt8} {r : ℕ} {limit : ℤ} {k' : Kernel} {out : Read}
    (ht : Took k a r limit stored obtained k' out) (h : Holds (k.pipe a) stored obtained) :
    Holds (k'.pipe a) stored (obtained ++ received limit out) ∧
      (k'.pipe a).readOpen = (k.pipe a).readOpen ∧
      (k'.pipe a).writeOpen = (k.pipe a).writeOpen := by
  cases ht with
  | @returned p' out hh hsame hb hout =>
    simp only [awake_pipe, Kernel.setPipe, update_self]
    exact ⟨holds_setWaiting hh 0, hsame.readOpen, hsame.writeOpen⟩
  | blocked hb =>
    rw [block_pipe, received, List.append_nil]
    exact ⟨holds_setWaiting h r, rfl, rfl⟩

theorem closeRead_pipe : ∃ w, (closeFdPipe k (some ⟨1, 0, a⟩)).1.pipe a =
    { k.pipe a with readOpen := 0, waitingProcess := w } := by
  rw [closeFdPipe_read, release]
  split
  · exact ⟨(k.pipe a).waitingProcess, by simp [PipeTable.pipe_deletePipeFromArray, shutRead]⟩
  · exact ⟨0, by simp [awake_pipe, shutRead]⟩

theorem closeWrite_pipe : ∃ w, (closeFdPipe k (some ⟨0, 1, a⟩)).1.pipe a =
    { k.pipe a with writeOpen := 0, waitingProcess := w } := by
  rw [closeFdPipe_write, release]
  split
  · exact ⟨(k.pipe a).waitingProcess, by simp [PipeTable.pipe_deletePipeFromArray, shutWrite]⟩
  · exact ⟨0, by simp [awake_pipe, shutWrite]⟩

theorem changeProcessState_pipe (process : ℕ) : (changeProcessState k process).pipe = k.pipe := by
  unfold changeProcessState
  split
  · rfl
  · split <;> rfl

theorem call_sound (h : Sound a s) {y : PipeRun.Act} {p : PipeRun.System}
    (hs : PipeRun.Step t ⟨1, 0, a⟩ ⟨0, 1, a⟩ s.parties y p)
    (hroom : y = .resumeWrite → (s.parties.kernel.pipe a).bytesToRead ≠ pipeSize) :
    Sound a { s with parties := p } := by
  cases hs with
  | @write string k out hidle hnul hcall =>
    obtain ⟨k', out', hcall', hcases⟩ := pipeWrite_cases (w := t.writer) h.holds hnul
    rw [hcall] at hcall'
    cases hcall'
    rcases hcases with hw | ⟨rfl, rfl⟩
    · obtain ⟨hholds, hread, hwrite, hrest⟩ := wrote_pipe hw
      rw [Nat.sub_zero] at hholds
      refine ⟨hholds, fun i c rest hnext ↦ ?_, by rw [← h.readOpen, ← hread],
        by rw [← h.writeOpen, ← hwrite]⟩
      obtain ⟨pre, rfl⟩ := hrest i c rest hnext
      exact fun h0 ↦ hnul (List.mem_append_right pre h0)
    · refine ⟨?_, nofun, h.readOpen, h.writeOpen⟩
      simpa [Written.count] using h.holds
  | @resumeWrite i c string k out hwaits hready hcall =>
    have hnul := h.rest_no_nul i c string hwaits
    obtain ⟨k', out', hcall', hw⟩ := resumeWrite_spec (i := i) (w := t.writer) h.holds hnul
      (lt_of_le_of_ne h.holds.bytes_le (hroom rfl))
    rw [hcall] at hcall'
    cases hcall'
    obtain ⟨hholds, hread, hwrite, hrest⟩ := wrote_pipe hw
    refine ⟨hholds, fun j d rest hnext ↦ ?_, by rw [← h.readOpen, ← hread],
      by rw [← h.writeOpen, ← hwrite]⟩
    obtain ⟨pre, hpre⟩ := hrest j d rest hnext
    rw [hpre] at hnul
    exact fun h0 ↦ hnul (List.mem_append_right pre h0)
  | @read limit k out hidle hcall =>
    obtain ⟨k', out', hcall', hcases⟩ := pipeRead_cases (r := t.reader) limit h.holds
    rw [hcall] at hcall'
    cases hcall'
    rcases hcases with ht | ⟨-, -, rfl, rfl⟩
    · obtain ⟨hholds, hread, hwrite⟩ := took_pipe ht h.holds
      exact ⟨hholds, h.rest_no_nul, by rw [← h.readOpen, ← hread],
        by rw [← h.writeOpen, ← hwrite]⟩
    · refine ⟨?_, h.rest_no_nul, h.readOpen, h.writeOpen⟩
      simpa [received] using h.holds
  | @resumeRead limit k out hwaits hready hcall =>
    obtain ⟨k', out', hcall', ht⟩ := resumeRead_spec (r := t.reader) limit h.holds
    rw [hcall] at hcall'
    cases hcall'
    obtain ⟨hholds, hread, hwrite⟩ := took_pipe ht h.holds
    exact ⟨hholds, h.rest_no_nul, by rw [← h.readOpen, ← hread],
      by rw [← h.writeOpen, ← hwrite]⟩

theorem holds_setFlags {p : Pipe} {stored obtained : List UInt8} (h : Holds p stored obtained)
    (r w x : ℕ) : Holds { p with readOpen := r, writeOpen := w, waitingProcess := x }
      stored obtained :=
  ⟨h.read_le, h.write_eq, h.bytes_le, h.content, h.no_nul⟩

theorem step_sound (h : Sound a s) (hs : Step t a s x s') (hroom : FindsRoom a s x) :
    Sound a s' := by
  cases hs with
  | @call y p huse hcall =>
    refine call_sound h hcall (fun hy ↦ ?_)
    subst hy
    exact hroom
  | closeRead hend hidle =>
    obtain ⟨w, hpipe⟩ := closeRead_pipe (k := s.parties.kernel) (a := a)
    refine ⟨?_, h.rest_no_nul, ?_, ?_⟩
    · simp only [hpipe]
      exact holds_setFlags h.holds 0 _ w
    · simp only [hpipe]
    · simp only [hpipe]
      exact h.writeOpen
  | closeWrite hend hidle =>
    obtain ⟨w, hpipe⟩ := closeWrite_pipe (k := s.parties.kernel) (a := a)
    refine ⟨?_, h.rest_no_nul, ?_, ?_⟩
    · simp only [hpipe]
      exact holds_setFlags h.holds _ 0 w
    · simp only [hpipe]
      exact h.readOpen
    · simp only [hpipe]
  | changeProcessState hparty =>
    refine ⟨?_, h.rest_no_nul, ?_, ?_⟩
    all_goals simp only [changeProcessState_pipe]
    · exact h.holds
    · exact h.readOpen
    · exact h.writeOpen

theorem writeLoop_count {p p' : Pipe} {i : ℕ} {string : List UInt8} {out : Written}
    (h : writeLoop p i string = some (p', out)) : i ≤ out.count := by
  induction string generalizing p i with
  | nil =>
    cases h
    simp [Written.count]
  | cons c string ih =>
    rw [writeLoop] at h
    split at h
    · cases h
      rfl
    · obtain ⟨p₁, -, hloop⟩ := Option.bind_eq_some_iff.mp h
      exact (Nat.le_succ i).trans (ih hloop)

theorem resumeWrite_count {w i : ℕ} {c : UInt8} {string : List UInt8} {k' : Kernel}
    {out : Written} (h : resumeWrite k w ⟨0, 1, a⟩ i c string = some (k', out)) :
    i + 1 ≤ out.count := by
  obtain ⟨⟨p, out'⟩, hloop, hend⟩ := Option.map_eq_some_iff.mp h
  obtain ⟨p₁, -, hloop⟩ := Option.bind_eq_some_iff.mp hloop
  have hout : out' = out := by
    cases out' <;> exact congrArg Prod.snd hend
  rw [← hout]
  exact writeLoop_count hloop

theorem length_unread (p : Pipe) : (unread p).length = p.bytesToRead := by
  simp [unread, window]

theorem step_kept_iff (h : Sound a s) (hs : Step t a s x s') :
    Kept a s' ↔ FindsRoom a s x := by
  constructor
  · intro hkept
    cases hs with
    | @call y p huse hcall =>
      cases hcall with
      | write | read | resumeRead => exact trivial
      | @resumeWrite i c string k out hwaits hready hcall =>
        intro hfull
        have hcount := resumeWrite_count hcall
        have hlen := congrArg List.length hkept.2
        have hlen₀ := congrArg List.length h.holds.content
        have hle := hkept.1
        simp only [List.length_append, List.length_take, List.length_cons,
          length_unread] at hlen hlen₀ hle
        omega
    | closeRead | closeWrite | changeProcessState => exact trivial
  · intro hroom
    exact (step_sound h hs hroom).kept

theorem boot_sound {k₀ : Kernel} {f0 f1 g0 g1 : FdPipe}
    (h : createPipe k₀ g0 g1 a = (k, f0, f1, 0)) : Sound a (boot k) := by
  unfold createPipe at h
  split at h
  · cases h
  · cases h
    refine ⟨⟨?_, ?_, ?_, ?_, ?_⟩, nofun, ?_, ?_⟩
    all_goals simp [boot, PipeRun.boot, unread]

/-- The ring keeps its bound and its unread bytes in exactly those runs in
which a writer that goes on after its wait finds the ring not full. -/
theorem pipe_capacity_iff {k₀ : Kernel} {f0 f1 g0 g1 : FdPipe} {tr : List (System × Act)}
    (hmake : createPipe k₀ g0 g1 a = (k, f0, f1, 0)) (hrun : Run (Step t a) (boot k) tr s) :
    Always (Kept a) tr s ↔ ∀ e ∈ tr, FindsRoom a e.1 e.2 := by
  have hboot := boot_sound hmake
  exact hrun.always_iff
    (fun _ _ _ h _ hs hkept ↦ step_sound h hs ((step_kept_iff h hs).mp hkept))
    (fun _ _ _ h _ hs ↦ step_kept_iff h hs) hboot hboot.kept

section Perform

instance : DecidablePred (Usable s)
  | .write _ | .resumeWrite => inferInstanceAs (Decidable (s.writeEnd = true))
  | .read _ | .resumeRead => inferInstanceAs (Decidable (s.readEnd = true))

instance : DecidablePred (FindsRoom a s)
  | .call .resumeWrite =>
    inferInstanceAs (Decidable ((s.parties.kernel.pipe a).bytesToRead ≠ pipeSize))
  | .call (.write _) | .call (.read _) | .call .resumeRead | .closeRead | .closeWrite
  | .changeProcessState _ => inferInstanceAs (Decidable True)

def perform (t : Parties) (a : ℕ) (s : System) : Act → Option System
  | .call x =>
    if Usable s x then
      (PipeRun.perform t ⟨1, 0, a⟩ ⟨0, 1, a⟩ s.parties x).map fun p ↦ { s with parties := p }
    else none
  | .closeRead =>
    match s.parties.reader with
    | .idle =>
      if s.readEnd = true then
        some { s with
          parties := { s.parties with
            kernel := (closeFdPipe s.parties.kernel (some ⟨1, 0, a⟩)).1 }
          readEnd := false }
      else none
    | .waits _ => none
  | .closeWrite =>
    match s.parties.writer with
    | .idle =>
      if s.writeEnd = true then
        some { s with
          parties := { s.parties with
            kernel := (closeFdPipe s.parties.kernel (some ⟨0, 1, a⟩)).1 }
          writeEnd := false }
      else none
    | .waits .. => none
  | .changeProcessState process =>
    if process = t.writer ∨ process = t.reader then
      some { s with
        parties := { s.parties with
          kernel := changeProcessState s.parties.kernel process } }
    else none

theorem step_perform (h : perform t a s x = some s') : Step t a s x s' := by
  cases x with
  | call x =>
    obtain ⟨husable, h⟩ := Option.ite_none_right_eq_some.mp h
    obtain ⟨p, hp, rfl⟩ := Option.map_eq_some_iff.mp h
    exact .call husable (PipeRun.step_perform hp)
  | closeRead =>
    cases hr : s.parties.reader with
    | idle =>
      simp only [perform, hr] at h
      obtain ⟨hopen, h⟩ := Option.ite_none_right_eq_some.mp h
      cases h
      rw [← hr]
      exact .closeRead hopen hr
    | waits limit => simp [perform, hr] at h
  | closeWrite =>
    cases hw : s.parties.writer with
    | idle =>
      simp only [perform, hw] at h
      obtain ⟨hopen, h⟩ := Option.ite_none_right_eq_some.mp h
      cases h
      rw [← hw]
      exact .closeWrite hopen hw
    | waits i c string => simp [perform, hw] at h
  | changeProcessState process =>
    obtain ⟨hparty, h⟩ := Option.ite_none_right_eq_some.mp h
    cases h
    exact .changeProcessState hparty

theorem run_of_perform {acts : List Act}
    (h : acts.foldlM (fun s x ↦ if FindsRoom a s x then perform t a s x else none) s = some s') :
    ∃ tr, Run (Step t a) s tr s' ∧ tr.map Prod.snd = acts ∧ ∀ e ∈ tr, FindsRoom a e.1 e.2 := by
  obtain ⟨tr, hrun, hacts, hroom⟩ := run_of_checked h
  exact ⟨tr, hrun.mono fun _ _ _ hs ↦ step_perform hs, hacts, hroom⟩

end Perform

open PipeRun (newPipe newPipe_made twoProcesses)

def overfill : List Act :=
  [.call (.write (List.replicate 513 104)), .call (.read 0), .call .resumeWrite, .closeWrite,
    .call (.read 1), .closeRead]

theorem pipe_capacity_overfill : ∃ tr s, Run (Step twoProcesses 0x3000) (boot newPipe) tr s ∧
    tr.map Prod.snd = overfill ∧ s.parties.obtained.length = 513 ∧ Always (Kept 0x3000) tr s := by
  have hend : (overfill.foldlM (fun s x ↦ if FindsRoom 0x3000 s x then
      perform twoProcesses 0x3000 s x else none) (boot newPipe)).map
      (fun s ↦ s.parties.obtained.length) = some 513 := by decide +kernel
  obtain ⟨s, hs, hlength⟩ := Option.map_eq_some_iff.mp hend
  obtain ⟨tr, hrun, hacts, hroom⟩ := run_of_perform hs
  exact ⟨tr, s, hrun, hacts, hlength, (pipe_capacity_iff newPipe_made hrun).mpr hroom⟩

theorem write_full (h : Sound a s) (hempty : (s.parties.kernel.pipe a).bytesToRead = 0)
    (hopen : (s.parties.kernel.pipe a).readOpen = 1) {string : List UInt8} {w : ℕ}
    (hs : 0 ∉ string) (hlen : string.length = pipeSize + 1) :
    ∃ k c, pipeWrite s.parties.kernel w ⟨0, 1, a⟩ string =
        some (k, .blocked pipeSize c []) ∧
      (k.pipe a).bytesToRead = pipeSize ∧ (k.pipe a).waitingProcess = w := by
  obtain ⟨k, out, hcall, hw⟩ := pipeWrite_spec (w := w) h.holds hopen hs
  cases hw with
  | returned hholds hsame hb =>
    have hle := hholds.bytes_le
    omega
  | @blocked p' s₁ s₂ c hstring hholds hsame hb hlen₁ =>
    have h₁ : s₁.length = pipeSize := by omega
    have h₂ : s₂ = [] := by
      rw [hstring, List.length_append, List.length_cons] at hlen
      exact List.eq_nil_of_length_eq_zero (by omega)
    subst h₂
    rw [Nat.zero_add, h₁] at hcall
    exact ⟨_, c, hcall, by simp [block_pipe, hb], by simp [block_pipe]⟩

theorem closeRead_wakes {w : ℕ} (hw : w ≠ 0) (hwaits : (k.pipe a).waitingProcess = w)
    (hopen : (k.pipe a).writeOpen ≠ 0) :
    (closeFdPipe k (some ⟨1, 0, a⟩)).1.pstate w = 1 := by
  rw [closeFdPipe_read, release, if_neg hopen, awake_pstate _ _ _ hw]
  simp [shutRead, hwaits]

theorem resumeWrite_runs {stored obtained : List UInt8} {w i : ℕ} {c : UInt8}
    (h : Holds (k.pipe a) stored obtained) :
    ∃ k' out, resumeWrite k w ⟨0, 1, a⟩ i c [] = some (k', out) := by
  have hlt : (k.pipe a).writePos < pipeSize := by
    rw [h.write_eq]
    exact Nat.mod_lt _ (by decide)
  simp [resumeWrite, storeByte, hlt, writeLoop, endWrite]

/-- The reader's close sets a writer ready that waits for room, and the writer
goes on with a full ring. -/
theorem close_overwrites {i : ℕ} {c : UInt8} (h : Sound a s) (hwrite : s.writeEnd = true)
    (hread : s.readEnd = true) (hidle : s.parties.reader = .idle)
    (hwaits : s.parties.writer = .waits i c [])
    (hfull : (s.parties.kernel.pipe a).bytesToRead = pipeSize)
    (hw : (s.parties.kernel.pipe a).waitingProcess = t.writer) :
    ∃ tr s', Run (Step t a) s tr s' ∧ ¬ Kept a s' := by
  have hopen : (s.parties.kernel.pipe a).writeOpen ≠ 0 := by
    intro h0
    rw [h.writeOpen, hwrite] at h0
    cases h0
  have hclose := Step.closeRead (t := t) (a := a) hread hidle
  have hready := closeRead_wakes t.writer_ne_null hw hopen
  have h₁ := step_sound h hclose trivial
  obtain ⟨k', out, hcall⟩ := resumeWrite_runs (w := t.writer) (i := i) (c := c) h₁.holds
  have hgoes := Step.call (t := t) (a := a) (s := { s with
    parties := { s.parties with kernel := (closeFdPipe s.parties.kernel (some ⟨1, 0, a⟩)).1 }
    readEnd := false }) (x := .resumeWrite) hwrite (.resumeWrite hwaits hready hcall)
  refine ⟨_, _, (Run.one hclose).trans (Run.one hgoes), fun hkept ↦ ?_⟩
  have hroom := (step_kept_iff h₁ hgoes).mp hkept
  obtain ⟨w, hpipe⟩ := closeRead_pipe (k := s.parties.kernel) (a := a)
  apply hroom
  simp only [hpipe]
  exact hfull

theorem overwritten : ∃ tr s, Run (Step twoProcesses 0x3000) (boot newPipe) tr s ∧
    ¬ Kept 0x3000 s := by
  have h₀ := boot_sound newPipe_made
  have hnul : 0 ∉ List.replicate (pipeSize + 1) (104 : UInt8) := by simp
  obtain ⟨k, c, hwrite, hb, hw⟩ :=
    write_full (w := twoProcesses.writer) h₀ rfl rfl hnul List.length_replicate
  have hstep := Step.call (t := twoProcesses) (a := 0x3000) (s := boot newPipe)
    (x := .write (List.replicate (pipeSize + 1) 104)) rfl (.write rfl hnul hwrite)
  obtain ⟨tr, s, hrun, hkept⟩ :=
    close_overwrites (t := twoProcesses) (step_sound h₀ hstep trivial) rfl rfl rfl rfl hb hw
  exact ⟨_, s, (Run.one hstep).trans hrun, hkept⟩

theorem readLoop_length {limit : ℤ} (hl : limit ≠ 1) {n : ℕ} {p p' : Pipe}
    {buffer buffer' : List UInt8} {i : ℤ}
    (h : readLoop limit n p buffer = some (p', .returned i buffer')) :
    i = (buffer.length + n : ℕ) := by
  induction n generalizing p buffer with
  | zero =>
    cases h
    rfl
  | succ n ih =>
    rw [readLoop] at h
    obtain ⟨r, -, hloop⟩ := Option.bind_eq_some_iff.mp h
    rw [if_neg hl] at hloop
    rw [ih hloop, List.length_append, List.length_singleton, Nat.add_assoc, Nat.add_comm 1]

theorem resumeRead_ne_zero {stored obtained buffer : List UInt8} {limit i : ℤ} {k' : Kernel}
    (h : Holds (k.pipe a) stored obtained) (hb : (k.pipe a).bytesToRead ≠ 0)
    (hread : resumeRead k ⟨1, 0, a⟩ limit = some (k', .returned i buffer)) : i ≠ 0 := by
  obtain ⟨⟨p, out⟩, hloop, hend⟩ := Option.map_eq_some_iff.mp hread
  obtain ⟨-, rfl⟩ := Prod.mk.inj hend
  obtain ⟨n, hn⟩ := Nat.exists_eq_succ_of_ne_zero hb
  by_cases hl : limit = 1
  · obtain ⟨p₁, c, htake, hne, -⟩ := takeByte_spec h (by omega)
    simp only [hn] at hloop
    rw [readLoop, htake, Option.bind_some, if_pos hl] at hloop
    cases hloop
    exact (byte_of_return hne).1
  · have hlen := readLoop_length hl hloop
    simp only [List.length_nil] at hlen
    omega

theorem resumeRead_empty (limit : ℤ) (hb : (k.pipe a).bytesToRead = 0) :
    ∃ k', resumeRead k ⟨1, 0, a⟩ limit = some (k', .returned 0 []) := by
  refine ⟨awake (k.setPipe a (k.pipe a)) a, ?_⟩
  simp [resumeRead, hb, readLoop]

theorem endOfFile_of_empty (h : Sound a s) (hb : (s.parties.kernel.pipe a).bytesToRead = 0)
    (hend : s.writeEnd = false) : EndOfFile s := by
  have hcontent := h.holds.content
  have hunread := List.eq_nil_of_length_eq_zero ((length_unread _).trans hb)
  rw [hunread, List.append_nil] at hcontent
  exact ⟨hend, hcontent.symm⟩

theorem zeroIsEof_iff (h : Sound a s) (hs : Step t a s x s') :
    ZeroIsEof t a s x ↔ FindsBytes a s x := by
  cases hs with
  | @call y p huse hcall =>
    cases hcall with
    | write | resumeWrite => exact Iff.rfl
    | @read limit =>
      refine ⟨fun _ ↦ trivial, fun _ k buffer hread ↦ ?_⟩
      by_cases hb : (s.parties.kernel.pipe a).bytesToRead = 0
      · have hclosed : (s.parties.kernel.pipe a).writeOpen = 0 := by
          by_contra hopen
          simp [pipeRead, hb, hopen] at hread
        exact endOfFile_of_empty h hb (h.writeOpen.mp hclosed)
      · simp only [pipeRead, one_ne_zero, if_false, if_neg hb] at hread
        exact absurd rfl (resumeRead_ne_zero h.holds hb hread)
    | @resumeRead limit k out hwaits hready hcall =>
      constructor
      · intro hzero hb
        obtain ⟨k', hread⟩ := resumeRead_empty limit hb
        exact (hzero limit k' [] hwaits hread).1
      · intro hfinds limit' k' buffer hwaits' hread
        by_cases hb : (s.parties.kernel.pipe a).bytesToRead = 0
        · exact endOfFile_of_empty h hb (hfinds hb)
        · exact absurd rfl (resumeRead_ne_zero h.holds hb hread)
  | closeRead | closeWrite | changeProcessState => exact Iff.rfl

/-- When every writer that goes on finds the ring not full, zero means the end
of the file at exactly the calls whose reader, if it goes on after its wait,
finds a byte or a closed end. -/
theorem pipe_zero_iff {k₀ : Kernel} {f0 f1 g0 g1 : FdPipe} {tr : List (System × Act)}
    (hmake : createPipe k₀ g0 g1 a = (k, f0, f1, 0)) (hrun : Run (Step t a) (boot k) tr s)
    (hroom : ∀ e ∈ tr, FindsRoom a e.1 e.2) :
    ∀ e ∈ tr, ZeroIsEof t a e.1 e.2 ↔ FindsBytes a e.1 e.2 := by
  intro e he
  obtain ⟨pre, post, b, rfl, hpre, hstep, -⟩ := hrun.visited he
  have hsound : ∀ b y c, Sound a b → FindsRoom a b y → Step t a b y c → Sound a c :=
    fun _ _ _ h hok hs ↦ step_sound h hs hok
  have h : Sound a e.1 := hpre.invariant_of hsound
    (fun e he ↦ hroom e (List.mem_append_left _ he)) (boot_sound hmake)
  exact zeroIsEof_iff h hstep

def readToEnd : List Act :=
  [.call (.read 1), .call (.write [104, 105]), .call .resumeRead, .closeWrite, .call (.read 0),
    .call (.read 0)]

theorem pipe_zero_read_to_end : ∃ tr s, Run (Step twoProcesses 0x3000) (boot newPipe) tr s ∧
    tr.map Prod.snd = readToEnd ∧ s.parties.obtained = [104, 105] ∧
    ∀ e ∈ tr, ZeroIsEof twoProcesses 0x3000 e.1 e.2 ↔ FindsBytes 0x3000 e.1 e.2 := by
  have hend : (readToEnd.foldlM (fun s x ↦ if FindsRoom 0x3000 s x then
      perform twoProcesses 0x3000 s x else none) (boot newPipe)).map
      (fun s ↦ s.parties.obtained) = some [104, 105] := by decide +kernel
  obtain ⟨s, hs, hobtained⟩ := Option.map_eq_some_iff.mp hend
  obtain ⟨tr, hrun, hacts, hroom⟩ := run_of_perform hs
  exact ⟨tr, s, hrun, hacts, hobtained, pipe_zero_iff newPipe_made hrun hroom⟩

def readerWaits : System :=
  { boot newPipe with
    parties := { PipeRun.boot newPipe with
      kernel := block newPipe 0x3000 twoProcesses.reader, reader := .waits 1 } }

def readerGoesOn : System :=
  { readerWaits with
    parties := { readerWaits.parties with
      kernel := changeProcessState readerWaits.parties.kernel twoProcesses.reader } }

/-- The shell's `block` sets the waiting reader ready, and the reader returns
0 from an open pipe. -/
theorem zero_while_open : ∃ tr s, Run (Step twoProcesses 0x3000) (boot newPipe) tr s ∧
    ¬ ∀ e ∈ tr, ZeroIsEof twoProcesses 0x3000 e.1 e.2 := by
  have hcall : pipeRead newPipe twoProcesses.reader ⟨1, 0, 0x3000⟩ 1 =
      some (readerWaits.parties.kernel, .blocked) := rfl
  have hread : Step twoProcesses 0x3000 (boot newPipe) (.call (.read 1)) readerWaits :=
    Step.call (s := boot newPipe) rfl (.read (s := PipeRun.boot newPipe) rfl hcall)
  have hready : Step twoProcesses 0x3000 readerWaits
      (.changeProcessState twoProcesses.reader) readerGoesOn := .changeProcessState (Or.inr rfl)
  have hgoes := Step.call (t := twoProcesses) (a := 0x3000) (x := .resumeRead)
    (s := readerGoesOn) rfl (.resumeRead rfl rfl rfl)
  refine ⟨_, _, .cons hread (.cons hready (Run.one hgoes)), fun hzero ↦ ?_⟩
  have hend := hzero (readerGoesOn, .call .resumeRead) (by simp) 1 _ [] rfl rfl
  cases hend.1

end ShellOS.Ipc.PipeEnds
