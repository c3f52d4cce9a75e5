import ShellOS.Ipc.PipeRun

namespace ShellOS.Ipc.PipeConsole

open Library.Runs Pipes PipeSpec PipeRun Function

abbrev Buffer := ℕ → UInt8

/-- Where a call of `write` stands: before a test of `while (string[i])`, in
the wait for room for `string[i]`, or behind its `return count`. -/
inductive Point
  | test (i : ℕ)
  | waits (i : ℕ)
  | returned

/-- A call of `write`, with the bytes that it has put out and the indices that
it has read. -/
structure Call where
  point : Point
  put : List UInt8
  reads : List ℕ

def enter (k : Kernel) (fd : FdPipe) : Point :=
  let p := k.pipe fd.pipe
  if fd.writable = 0 ∨ (p.readOpen = 0 ∧ p.bytesToRead = pipeSize) then .returned else .test 0

/-- `write`, up to the loop of `pipeWrite` when there is a pipe. -/
def write (k : Kernel) (stdout : Option FdPipe) (buf : Buffer) (count : ℕ) : Call :=
  match stdout with
  | none => ⟨.returned, (List.range count).map buf, List.range count⟩
  | some fd => ⟨enter k fd, [], []⟩

def turn (buf : Buffer) (k : Kernel) (current : ℕ) (fd : FdPipe) (i : ℕ) :
    Option (Kernel × Point) :=
  if buf i = 0 then some (awake k fd.pipe, .returned)
  else if (k.pipe fd.pipe).bytesToRead = pipeSize then some (block k fd.pipe current, .waits i)
  else (storeByte (k.pipe fd.pipe) (buf i)).map fun p ↦ (k.setPipe fd.pipe p, .test (i + 1))

/-- The rest of a turn, from its return out of `runScheduler`. -/
def resume (buf : Buffer) (k : Kernel) (fd : FdPipe) (i : ℕ) : Option (Kernel × Point) :=
  (storeByte (k.pipe fd.pipe) (buf i)).map fun p ↦ (k.setPipe fd.pipe p, .test (i + 1))

def stored (buf : Buffer) (i : ℕ) : Point → List UInt8
  | .test _ => [buf i]
  | _ => []

structure System where
  kernel : Kernel
  call : Call
  reader : Reader
  obtained : List UInt8

inductive Act
  | turn
  | resume
  | read (limit : ℤ)
  | resumeRead

variable (t : Parties) (f0 f1 : FdPipe) (buf : Buffer)

inductive Step : System → Act → System → Prop
  | turn {s : System} {i : ℕ} {k : Kernel} {point : Point} :
      s.call.point = .test i → turn buf s.kernel t.writer f1 i = some (k, point) →
      Step s .turn { s with
        kernel := k
        call := ⟨point, s.call.put ++ stored buf i point, s.call.reads ++ [i]⟩ }
  | resume {s : System} {i : ℕ} {k : Kernel} {point : Point} :
      s.call.point = .waits i → s.kernel.pstate t.writer = 1 →
      resume buf s.kernel f1 i = some (k, point) →
      Step s .resume { s with
        kernel := k
        call := ⟨point, s.call.put ++ stored buf i point, s.call.reads ++ [i]⟩ }
  | read {s : System} {limit : ℤ} {k : Kernel} {out : Read} :
      s.reader = .idle → pipeRead s.kernel t.reader f0 limit = some (k, out) →
      Step s (.read limit) { s with
        kernel := k
        reader := readerNext limit out
        obtained := s.obtained ++ received limit out }
  | resumeRead {s : System} {limit : ℤ} {k : Kernel} {out : Read} :
      s.reader = .waits limit → s.kernel.pstate t.reader = 1 →
      resumeRead s.kernel f0 limit = some (k, out) →
      Step s .resumeRead { s with
        kernel := k
        reader := readerNext limit out
        obtained := s.obtained ++ received limit out }

/-- A call that has put out `n` bytes has met no NUL among them, and it ends
at one. -/
inductive Progress : Call → ℕ → Prop
  | test (n : ℕ) (reads : List ℕ) : Progress ⟨.test n, (List.range n).map buf, reads⟩ n
  | waits (n : ℕ) (reads : List ℕ) : buf n ≠ 0 →
      Progress ⟨.waits n, (List.range n).map buf, reads⟩ n
  | returned (n : ℕ) (reads : List ℕ) : buf n = 0 → n ∈ reads →
      Progress ⟨.returned, (List.range n).map buf, reads⟩ n

structure Invariant (a : ℕ) (before : List UInt8) (s : System) : Prop where
  holds : Holds (s.kernel.pipe a) (before ++ s.call.put) s.obtained
  readOpen : (s.kernel.pipe a).readOpen = 1
  writeOpen : (s.kernel.pipe a).writeOpen = 1
  text : ∃ n, (∀ j < n, buf j ≠ 0) ∧ Progress buf s.call n
  room : ∀ i, s.call.point = .waits i → s.kernel.pstate t.writer = 1 →
    (s.kernel.pipe a).bytesToRead < pipeSize

variable {t f0 f1 buf} {s s' : System} {a i n : ℕ} {before : List UInt8}

theorem Progress.of_test {c : Call} (h : Progress buf c n) (hpoint : c.point = .test i) :
    n = i ∧ c.put = (List.range i).map buf := by
  cases h with
  | test n reads =>
    cases hpoint
    exact ⟨rfl, rfl⟩
  | waits n reads hn => cases hpoint
  | returned n reads hn hmem => cases hpoint

theorem Progress.of_waits {c : Call} (h : Progress buf c n) (hpoint : c.point = .waits i) :
    n = i ∧ buf i ≠ 0 ∧ c.put = (List.range i).map buf := by
  cases h with
  | test n reads => cases hpoint
  | waits n reads hn =>
    cases hpoint
    exact ⟨rfl, hn, rfl⟩
  | returned n reads hn hmem => cases hpoint

theorem Progress.of_returned {c : Call} (h : Progress buf c n) (hpoint : c.point = .returned) :
    buf n = 0 ∧ n ∈ c.reads ∧ c.put = (List.range n).map buf := by
  cases h with
  | test n reads => cases hpoint
  | waits n reads hn => cases hpoint
  | returned n reads hn hmem => exact ⟨hn, hmem, rfl⟩

theorem text_succ (htext : ∀ j < n, buf j ≠ 0) (hn : buf n ≠ 0) : ∀ j < n + 1, buf j ≠ 0 := by
  intro j hj
  rcases Nat.lt_succ_iff_lt_or_eq.mp hj with hlt | heq
  · exact htext j hlt
  · rwa [heq]

theorem resume_invariant (h : Invariant t buf a before s) (htext : ∀ j < i, buf j ≠ 0)
    (hi : buf i ≠ 0) (hput : s.call.put = (List.range i).map buf)
    (hroom : (s.kernel.pipe a).bytesToRead < pipeSize) (reads : List ℕ) :
    ∃ k, resume buf s.kernel ⟨0, 1, a⟩ i = some (k, .test (i + 1)) ∧
      Invariant t buf a before
        { s with kernel := k, call := ⟨.test (i + 1), s.call.put ++ [buf i], reads⟩ } := by
  obtain ⟨p, hstore, hholds, -, hsame⟩ := storeByte_spec h.holds hroom hi
  rw [List.append_assoc] at hholds
  have hput' : s.call.put ++ [buf i] = (List.range (i + 1)).map buf := by
    rw [hput, List.range_succ, List.map_append, List.map_singleton]
  refine ⟨s.kernel.setPipe a p, ?_, ?_, ?_, ?_, ⟨i + 1, text_succ htext hi, ?_⟩, nofun⟩
  · rw [resume, hstore, Option.map_some]
  · simpa using hholds
  · simpa using hsame.readOpen.trans h.readOpen
  · simpa using hsame.writeOpen.trans h.writeOpen
  · rw [hput']
    exact .test (i + 1) reads

theorem turn_invariant (h : Invariant t buf a before s) (hpoint : s.call.point = .test i)
    {k : Kernel} {point : Point} (hturn : turn buf s.kernel t.writer ⟨0, 1, a⟩ i = some (k, point)) :
    Invariant t buf a before { s with
      kernel := k, call := ⟨point, s.call.put ++ stored buf i point, s.call.reads ++ [i]⟩ } := by
  obtain ⟨n, htext, hprogress⟩ := h.text
  obtain ⟨rfl, hput⟩ := hprogress.of_test hpoint
  unfold turn at hturn
  split at hturn
  · rename_i hnul
    cases hturn
    simp only [stored, List.append_nil]
    refine ⟨?_, ?_, ?_, ⟨n, htext, ?_⟩, nofun⟩
    · simpa only [awake_pipe] using holds_setWaiting h.holds 0
    · simpa only [awake_pipe] using h.readOpen
    · simpa only [awake_pipe] using h.writeOpen
    · rw [hput]
      exact .returned n _ hnul (by simp)
  split at hturn
  · rename_i hne hfull
    cases hturn
    simp only [stored, List.append_nil]
    refine ⟨?_, ?_, ?_, ⟨n, htext, ?_⟩, fun i hwaits hready ↦ ?_⟩
    · simpa only [block_pipe] using holds_setWaiting h.holds t.writer
    · simpa only [block_pipe] using h.readOpen
    · simpa only [block_pipe] using h.writeOpen
    · rw [hput]
      exact .waits n _ hne
    · rw [block_pstate, if_pos rfl] at hready
      cases hready
  · rename_i hne hfull
    have hroom := lt_of_le_of_ne h.holds.bytes_le hfull
    obtain ⟨k', hresume, h'⟩ := resume_invariant h htext hne hput hroom (s.call.reads ++ [n])
    rw [resume, hturn] at hresume
    cases hresume
    exact h'

theorem reader_invariant (h : Invariant t buf a before s) {limit : ℤ} {k : Kernel} {out : Read}
    (ht : Took s.kernel a t.reader limit (before ++ s.call.put) s.obtained k out) :
    Invariant t buf a before { s with
      kernel := k, reader := readerNext limit out, obtained := s.obtained ++ received limit out } := by
  obtain ⟨hholds, hread, hwrite, hroom⟩ := took_after h.holds ht
  exact ⟨hholds, hread.trans h.readOpen, hwrite.trans h.writeOpen, h.text, fun _ _ _ ↦ hroom⟩

theorem step_invariant (h : Invariant t buf a before s) {x : Act}
    (hs : Step t ⟨1, 0, a⟩ ⟨0, 1, a⟩ buf s x s') : Invariant t buf a before s' := by
  cases hs with
  | turn hpoint hturn => exact turn_invariant h hpoint hturn
  | @resume i k point hpoint hready hresume =>
    obtain ⟨n, htext, hprogress⟩ := h.text
    have hroom := h.room i hpoint hready
    obtain ⟨rfl, hne, hput⟩ := hprogress.of_waits hpoint
    obtain ⟨k', hresume', h'⟩ := resume_invariant h htext hne hput hroom (s.call.reads ++ [n])
    rw [hresume] at hresume'
    cases hresume'
    exact h'
  | @read limit k out hidle hread =>
    obtain ⟨k', out', hread', ht⟩ := pipeRead_spec (r := t.reader) limit h.holds h.writeOpen
    rw [hread] at hread'
    cases hread'
    exact reader_invariant h ht
  | @resumeRead limit k out hwaits hready hread =>
    obtain ⟨k', out', hread', ht⟩ := resumeRead_spec (r := t.reader) limit h.holds
    rw [hread] at hread'
    cases hread'
    exact reader_invariant h ht

section Turns

variable {k : Kernel} {current : ℕ} {string : List UInt8}

/-- The bytes of `buf` from `i` up to a NUL. -/
def Text (buf : Buffer) : ℕ → List UInt8 → Prop
  | i, [] => buf i = 0
  | i, c :: string => buf i = c ∧ c ≠ 0 ∧ Text buf (i + 1) string

def Turn (buf : Buffer) (current : ℕ) (fd : FdPipe) (s : Kernel × Point) (i : ℕ)
    (s' : Kernel × Point) : Prop :=
  s.2 = .test i ∧ turn buf s.1 current fd i = some s'

def pointOf : Written → Point
  | .returned _ => .returned
  | .blocked i _ _ => .waits i

theorem endWrite_setPipe (p : Pipe) (r : Pipe × Written) :
    endWrite (k.setPipe a p) a current r = endWrite k a current r := by
  obtain ⟨p', out⟩ := r
  have hset : (k.setPipe a p).setPipe a p' = k.setPipe a p' := by simp
  cases out with
  | returned j => simp only [endWrite, hset]
  | blocked j c string => simp only [endWrite, hset]

/-- The loop over a string takes the turns of the loop over the buffer that
holds it. -/
theorem writeLoop_turns (htext : Text buf i string) {r : Pipe × Written}
    (hloop : writeLoop (k.pipe a) i string = some r) :
    ∃ tr, Run (Turn buf current ⟨0, 1, a⟩) (k, .test i) tr
      ((endWrite k a current r).1, pointOf r.2) := by
  have hself : k.setPipe a (k.pipe a) = k := by simp
  induction string generalizing k i with
  | nil =>
    cases hloop
    have hturn : Turn buf current ⟨0, 1, a⟩ (k, .test i) i (awake k a, .returned) :=
      ⟨rfl, if_pos htext⟩
    simp only [endWrite, hself, pointOf]
    exact ⟨_, .one hturn⟩
  | cons c string ih =>
    obtain ⟨hc, hne, hrest⟩ := htext
    have hnul : buf i ≠ 0 := by rwa [hc]
    rw [writeLoop] at hloop
    split at hloop
    · rename_i hfull
      cases hloop
      have hturn : Turn buf current ⟨0, 1, a⟩ (k, .test i) i (block k a current, .waits i) := by
        refine ⟨rfl, ?_⟩
        rw [turn, if_neg hnul, if_pos hfull]
      simp only [endWrite, hself, pointOf]
      exact ⟨_, .one hturn⟩
    · rename_i hroom
      obtain ⟨p, hstore, hloop⟩ := Option.bind_eq_some_iff.mp hloop
      have hturn : Turn buf current ⟨0, 1, a⟩ (k, .test i) i (k.setPipe a p, .test (i + 1)) := by
        refine ⟨rfl, ?_⟩
        rw [turn, if_neg hnul, if_neg hroom, hc, hstore, Option.map_some]
      have hpipe : (k.setPipe a p).pipe a = p := by simp
      obtain ⟨tr, hrun⟩ := ih (k := k.setPipe a p) hrest (by rwa [hpipe]) (by simp)
      rw [endWrite_setPipe] at hrun
      exact ⟨_, .cons hturn hrun⟩

end Turns

/-- The pipe gets what the console would print, and no other byte is read. -/
structure Agrees (buf : Buffer) (k : Kernel) (count : ℕ) (c : Call) : Prop where
  put : c.put = (write k none buf count).put
  reads : ∀ j ∈ c.reads, j < count

theorem enter_invariant {k : Kernel} {stored obtained : List UInt8} {reader : Reader} {count : ℕ}
    (hholds : Holds (k.pipe a) stored obtained) (hread : (k.pipe a).readOpen = 1)
    (hwrite : (k.pipe a).writeOpen = 1) :
    Invariant t buf a stored ⟨k, write k (some ⟨0, 1, a⟩) buf count, reader, obtained⟩ := by
  have henter : enter k ⟨0, 1, a⟩ = .test 0 := if_neg (by simp [hread])
  have hcall : write k (some ⟨0, 1, a⟩) buf count = ⟨.test 0, (List.range 0).map buf, []⟩ := by
    simp only [write, henter, List.range_zero, List.map_nil]
  rw [hcall]
  refine ⟨?_, hread, hwrite, ⟨0, fun j hj ↦ absurd hj (Nat.not_lt_zero j), .test 0 []⟩, nofun⟩
  simpa using hholds

/-- A call of `write` that returned, on a buffer without NUL before `count`. It
never kept to the buffer, and it put out the same bytes as on the console
exactly if there is a NUL at `count`. What it put out is behind what was there
before. -/
theorem write_overruns {k₀ k : Kernel} {g0 g1 : FdPipe} {tr : List (PipeRun.System × PipeRun.Act)}
    {s : PipeRun.System} {count : ℕ} {tr' : List (System × Act)} {s' : System}
    (hmake : createPipe k₀ g0 g1 a = (k, f0, f1, 0))
    (hrun : Run (PipeRun.Step t f0 f1) (boot k) tr s) (htext : ∀ j < count, buf j ≠ 0)
    (hcall : Run (Step t f0 f1 buf)
      ⟨s.kernel, write s.kernel (some f1) buf count, s.reader, s.obtained⟩ tr' s')
    (hreturn : s'.call.point = .returned) :
    ¬ Agrees buf s.kernel count s'.call ∧
      (s'.call.put = (write s.kernel none buf count).put ↔ buf count = 0) ∧
      s.stored ++ s'.call.put = s'.obtained ++ unread (s'.kernel.pipe a) := by
  obtain ⟨rfl, rfl, -, -, -, hboot⟩ := createPipe_ends (t := t) hmake
  have h : PipeRun.Invariant t a s :=
    hrun.invariant (fun _ _ _ ha hs ↦ PipeRun.step_invariant ha hs) hboot
  have h' : Invariant t buf a s.stored s' := hcall.invariant (fun _ _ _ ha hs ↦ step_invariant ha hs)
    (enter_invariant h.holds h.readOpen h.writeOpen)
  obtain ⟨n, hbefore, hprogress⟩ := h'.text
  obtain ⟨hn, hmem, hput⟩ := hprogress.of_returned hreturn
  have hle : count ≤ n := by
    by_contra hlt
    exact htext n (by omega) hn
  refine ⟨fun hagrees ↦ ?_, ?_, h'.holds.content⟩
  · have hlt := hagrees.reads n hmem
    omega
  · rw [hput]
    constructor
    · intro heq
      have hlen := congrArg List.length heq
      simp only [write, List.length_map, List.length_range] at hlen
      rwa [← hlen]
    · intro hcount
      have hge : n ≤ count := by
        by_contra hlt
        exact hbefore count (by omega) hcount
      have heq : n = count := by omega
      rw [heq]
      rfl

def newCall (buf : Buffer) : System :=
  ⟨newPipe, write newPipe (some ⟨0, 1, 0x3000⟩) buf 1, .idle, []⟩

theorem write_overruns_letter : ∃ tr s,
    Run (Step twoProcesses ⟨1, 0, 0x3000⟩ ⟨0, 1, 0x3000⟩ fun j ↦ if j = 0 then 97 else 0)
      (newCall fun j ↦ if j = 0 then 97 else 0) tr s ∧
    s.call.put = [97] ∧ ¬ ∀ j ∈ s.call.reads, j < 1 := by
  let buf : Buffer := fun j ↦ if j = 0 then 97 else 0
  have htext : ∀ j < 1, buf j ≠ 0 := by decide
  obtain ⟨tr, s, hcall, hreturn⟩ : ∃ tr s,
      Run (Step twoProcesses ⟨1, 0, 0x3000⟩ ⟨0, 1, 0x3000⟩ buf) (newCall buf) tr s ∧
        s.call.point = .returned := ⟨_, _, .cons (.turn rfl rfl) (.one (.turn rfl rfl)), rfl⟩
  obtain ⟨hagrees, hput, -⟩ := write_overruns newPipe_made (.nil (boot newPipe)) htext hcall hreturn
  have hsame := hput.mpr rfl
  exact ⟨_, _, hcall, hsame, fun hreads ↦ hagrees ⟨hsame, hreads⟩⟩

/-- `putChar('a')` when the byte behind its `c` is `x`. -/
theorem putChar_two_bytes : ∃ tr s,
    Run (Step twoProcesses ⟨1, 0, 0x3000⟩ ⟨0, 1, 0x3000⟩
        fun j ↦ if j = 0 then 97 else if j = 1 then 120 else 0)
      (newCall fun j ↦ if j = 0 then 97 else if j = 1 then 120 else 0) tr s ∧
    s.call.point = .returned ∧ s.call.put = [97, 120] ∧
      ¬ Agrees (fun j ↦ if j = 0 then 97 else if j = 1 then 120 else 0) newPipe 1 s.call := by
  refine ⟨_, _, .cons (.turn rfl rfl) (.cons (.turn rfl rfl) (.one (.turn rfl rfl))), rfl, rfl,
    fun hagrees ↦ ?_⟩
  exact absurd hagrees.put (by decide)

end ShellOS.Ipc.PipeConsole
