import ShellOS.Library.Ring
import ShellOS.Library.Words

namespace ShellOS.Ipc.Pipes

open Library.Words Function

def maxPipes : ℕ := 20
def pipeSize : ℕ := 512

structure Pipe where
  id : ℕ
  data : ℕ → UInt8
  readPos : ℕ
  writePos : ℕ
  readOpen : ℕ
  writeOpen : ℕ
  bytesToRead : ℕ
  waitingProcess : ℕ

structure FdPipe where
  readable : ℕ
  writable : ℕ
  pipe : ℕ

/-- The pipes by address, the table `pipes[0..pipeAmount)`, and the `pstate`
of the process at each pcb address. Address 0 is `NULL`. -/
structure Kernel where
  pipe : ℕ → Pipe
  pipes : List ℕ
  pipeIds : ℕ
  pstate : ℕ → ℕ

@[simp] def Kernel.setPipe (k : Kernel) (a : ℕ) (p : Pipe) : Kernel :=
  { k with pipe := update k.pipe a p }

@[simp] def Kernel.setState (k : Kernel) (process v : ℕ) : Kernel :=
  { k with pstate := update k.pstate process v }

/-- `newPipe` is the address that `alloc` returns. -/
def createPipe (k : Kernel) (f0 f1 : FdPipe) (newPipe : ℕ) : Kernel × FdPipe × FdPipe × ℤ :=
  if k.pipes.length = maxPipes then (k, f0, f1, -1)
  else
    let p : Pipe :=
      { k.pipe newPipe with
        readPos := 0, writePos := 0, readOpen := 1, writeOpen := 1, bytesToRead := 0,
        id := maxPipes + k.pipeIds, waitingProcess := 0 }
    ({ k.setPipe newPipe p with
        pipes := k.pipes ++ [newPipe], pipeIds := (k.pipeIds + 1) % 2 ^ 8 },
      ⟨1, 0, newPipe⟩, ⟨0, 1, newPipe⟩, 0)

/-- `newPipe` is the address that `alloc` returns. An existing pipe is opened
through what the descriptor pointed to before. -/
def openPipeId (k : Kernel) (fd : FdPipe) (id reader newPipe : ℕ) : Kernel × FdPipe × ℤ :=
  if id ≥ maxPipes then (k, fd, -1)
  else
    let i := k.pipes.findIdx (fun q ↦ (k.pipe q).id = id)
    let fd :=
      { fd with
        readable := if reader ≠ 0 then 1 else 0
        writable := if reader ≠ 0 then 0 else 1 }
    if i = k.pipes.length then
      if k.pipes.length = pipeSize then (k, fd, -1)
      else
        let p : Pipe :=
          { k.pipe newPipe with
            bytesToRead := 0, readPos := 0, writePos := 0,
            readOpen := if reader ≠ 0 then 1 else 0
            writeOpen := if reader ≠ 0 then 0 else 1
            id := id }
        ({ k.setPipe newPipe p with pipes := k.pipes ++ [newPipe] }, { fd with pipe := newPipe }, 0)
    else
      let a := k.pipes.getD i 0
      if reader ≠ 0 ∧ (k.pipe a).readOpen ≠ 0 ∨ reader = 0 ∧ (k.pipe a).writeOpen ≠ 0 then
        (k, fd, -1)
      else
        let p := k.pipe fd.pipe
        (k.setPipe fd.pipe (if reader ≠ 0 then { p with readOpen := 1 } else { p with writeOpen := 1 }),
          { fd with pipe := a }, 1)

/-- `fd->pipe->waitingProcess = blockCurrentProcess()` -/
def block (k : Kernel) (a current : ℕ) : Kernel :=
  (k.setState current 0).setPipe a { k.pipe a with waitingProcess := current }

def awake (k : Kernel) (a : ℕ) : Kernel :=
  let waitingProcess := (k.pipe a).waitingProcess
  if waitingProcess ≠ 0 then
    (k.setState waitingProcess 1).setPipe a { k.pipe a with waitingProcess := 0 }
  else k

/-- How a segment of `pipeWrite` ends: it returns, or it waits for room for
the byte `c`, with `string` behind it and `i` bytes already stored. -/
inductive Written
  | returned (i : ℤ)
  | blocked (i : ℕ) (c : UInt8) (string : List UInt8)

def Written.count : Written → ℕ
  | .returned i => i.toNat
  | .blocked i _ _ => i

/-- There is no result when the index is outside `data`. -/
def storeByte (p : Pipe) (c : UInt8) : Option Pipe :=
  if p.writePos < pipeSize then
    some { p with
      data := update p.data p.writePos c
      writePos := if p.writePos + 1 = pipeSize then 0 else p.writePos + 1
      bytesToRead := u32 (p.bytesToRead + 1) }
  else none

def writeLoop (p : Pipe) (i : ℕ) : List UInt8 → Option (Pipe × Written)
  | [] => some (p, .returned i)
  | c :: string =>
    if p.bytesToRead = pipeSize then some (p, .blocked i c string)
    else (storeByte p c).bind fun p ↦ writeLoop p (i + 1) string

def endWrite (k : Kernel) (a current : ℕ) : Pipe × Written → Kernel × Written
  | (p, .returned i) => (awake (k.setPipe a p) a, .returned i)
  | (p, .blocked i c string) => (block (k.setPipe a p) a current, .blocked i c string)

/-- `pipeWrite` of a string, given by its bytes before the NUL, from its entry
to its first wait or its return. -/
def pipeWrite (k : Kernel) (current : ℕ) (fd : FdPipe) (string : List UInt8) :
    Option (Kernel × Written) :=
  let p := k.pipe fd.pipe
  if fd.writable = 0 ∨ (p.readOpen = 0 ∧ p.bytesToRead = pipeSize) then
    some (k, .returned (-1))
  else (writeLoop p 0 string).map (endWrite k fd.pipe current)

def resumeWrite (k : Kernel) (current : ℕ) (fd : FdPipe) (i : ℕ) (c : UInt8)
    (string : List UInt8) : Option (Kernel × Written) :=
  ((storeByte (k.pipe fd.pipe) c).bind fun p ↦ writeLoop p (i + 1) string).map
    (endWrite k fd.pipe current)

/-- How a segment of `pipeRead` ends, with the bytes it put into the buffer. -/
inductive Read
  | returned (i : ℤ) (buffer : List UInt8)
  | blocked

/-- There is no result when the index is outside `data`. -/
def takeByte (p : Pipe) : Option (Pipe × UInt8) :=
  let readPos := if p.readPos = pipeSize then 0 else p.readPos
  if readPos < pipeSize then
    some ({ p with bytesToRead := p.bytesToRead - 1, readPos := readPos + 1 }, p.data readPos)
  else none

/-- The loop of `pipeRead` is entered once for each of the `bytesToRead`. -/
def readLoop (limit : ℤ) : ℕ → Pipe → List UInt8 → Option (Pipe × Read)
  | 0, p, buffer => some (p, .returned buffer.length buffer)
  | n + 1, p, buffer =>
    (takeByte p).bind fun r ↦
      if limit = 1 then some (r.1, .returned r.2.toInt8.toInt buffer)
      else readLoop limit n r.1 (buffer ++ [r.2])

/-- `pipeRead` from its return out of `runScheduler`, or from its entry when
there is something to read. -/
def resumeRead (k : Kernel) (fd : FdPipe) (limit : ℤ) : Option (Kernel × Read) :=
  let p := k.pipe fd.pipe
  (readLoop limit p.bytesToRead p []).map fun r ↦ (awake (k.setPipe fd.pipe r.1) fd.pipe, r.2)

def pipeRead (k : Kernel) (current : ℕ) (fd : FdPipe) (limit : ℤ) : Option (Kernel × Read) :=
  let p := k.pipe fd.pipe
  if fd.readable = 0 then some (k, .returned (-1) [])
  else if p.bytesToRead = 0 then
    if p.writeOpen = 0 then some (k, .returned 0 [])
    else some (block k fd.pipe current, .blocked)
  else resumeRead k fd limit

def deletePipeFromArray (k : Kernel) (a : ℕ) : Kernel :=
  let i := k.pipes.findIdx (fun q ↦ (k.pipe q).id = (k.pipe a).id)
  if i = k.pipes.length then k else { k with pipes := k.pipes.eraseIdx i }

/-- `closeFdPipe`, with the address of the pipe when it is freed. A descriptor
that is `NULL` is `none`. -/
def closeFdPipe (k : Kernel) (fd : Option FdPipe) : Kernel × Option ℕ :=
  match fd with
  | none => (k, none)
  | some fd =>
    let a := fd.pipe
    if fd.readable ≠ 0 then
      let k := k.setPipe a { k.pipe a with readOpen := 0 }
      if (k.pipe a).writeOpen = 0 then (deletePipeFromArray k a, some a) else (awake k a, none)
    else if fd.writable ≠ 0 then
      let k := k.setPipe a { k.pipe a with writeOpen := 0 }
      if (k.pipe a).readOpen = 0 then (deletePipeFromArray k a, some a) else (awake k a, none)
    else (k, none)

/-- The loop of `deleteProcessFromPipes` over the table, with the number of
times that it reads through a `NULL`. `pidOf` gives the pid at each pcb
address. -/
def deleteLoop (pidOf : ℕ → ℕ) (pid : ℕ) : List ℕ → Kernel → Kernel × ℕ
  | [], k => (k, 0)
  | a :: pipes, k =>
    let waitingProcess := (k.pipe a).waitingProcess
    let k :=
      if pidOf waitingProcess = pid then k.setPipe a { k.pipe a with waitingProcess := 0 } else k
    let r := deleteLoop pidOf pid pipes k
    (r.1, (if waitingProcess = 0 then 1 else 0) + r.2)

def deleteProcessFromPipes (pidOf : ℕ → ℕ) (pid : ℕ) (k : Kernel) : Kernel × ℕ :=
  deleteLoop pidOf pid k.pipes k

def noPipes : Kernel := ⟨fun _ ↦ ⟨0, fun _ ↦ 0, 0, 0, 0, 0, 0, 0⟩, [], 0, fun _ ↦ 1⟩

def noFd : FdPipe := ⟨0, 0, 0⟩

section Awake

variable (k : Kernel) (a w x : ℕ)

theorem block_pipe : (block k a w).pipe a = { k.pipe a with waitingProcess := w } := by
  simp [block]

theorem block_pstate : (block k a w).pstate x = if x = w then 0 else k.pstate x := by
  simp [block, update_apply]

theorem awake_pipe : (awake k a).pipe a = { k.pipe a with waitingProcess := 0 } := by
  simp only [awake]
  split
  · simp
  · rename_i h
    have h0 : (k.pipe a).waitingProcess = 0 := by simpa using h
    rw [← h0]

theorem awake_pstate (hx : x ≠ 0) :
    (awake k a).pstate x = if x = (k.pipe a).waitingProcess then 1 else k.pstate x := by
  simp only [awake]
  split
  · simp [update_apply]
  · rename_i h
    have h0 : (k.pipe a).waitingProcess = 0 := by simpa using h
    rw [h0, if_neg hx]

end Awake

section Delete

variable {pidOf : ℕ → ℕ} {pid : ℕ} {l : List ℕ} {k : Kernel}

theorem deleteLoop_spec :
    (deleteLoop pidOf pid l k).1 = { k with pipe := (deleteLoop pidOf pid l k).1.pipe } ∧
      ∀ b, (deleteLoop pidOf pid l k).1.pipe b =
        if b ∈ l ∧ pidOf (k.pipe b).waitingProcess = pid then
          { k.pipe b with waitingProcess := 0 } else k.pipe b := by
  induction l generalizing k with
  | nil => exact ⟨rfl, fun b ↦ by simp [deleteLoop]⟩
  | cons a l ih =>
    rw [deleteLoop]
    by_cases hpid : pidOf (k.pipe a).waitingProcess = pid
    · simp only [if_pos hpid]
      obtain ⟨hfields, hpipe⟩ := ih (k := k.setPipe a { k.pipe a with waitingProcess := 0 })
      refine ⟨hfields, fun b ↦ ?_⟩
      rw [hpipe]
      by_cases hb : b = a
      · simp [hb, hpid]
      · simp [hb]
    · simp only [if_neg hpid]
      obtain ⟨hfields, hpipe⟩ := ih (k := k)
      refine ⟨hfields, fun b ↦ ?_⟩
      rw [hpipe]
      by_cases hb : b = a
      · simp [hb, hpid]
      · simp [hb]

theorem deleteLoop_pstate (f : ℕ → ℕ) : deleteLoop pidOf pid l { k with pstate := f } =
    ({ (deleteLoop pidOf pid l k).1 with pstate := f }, (deleteLoop pidOf pid l k).2) := by
  induction l generalizing k with
  | nil => rfl
  | cons a l ih =>
    by_cases hpid : pidOf (k.pipe a).waitingProcess = pid
    · have hset : Kernel.setPipe { k with pstate := f } a { k.pipe a with waitingProcess := 0 } =
          { k.setPipe a { k.pipe a with waitingProcess := 0 } with pstate := f } := rfl
      simp only [deleteLoop, if_pos hpid]
      rw [hset, ih]
    · simp only [deleteLoop, if_neg hpid]
      rw [ih]

theorem deleteLoop_null : (deleteLoop pidOf pid l k).2 = 0 ↔
    (∀ a ∈ l, (k.pipe a).waitingProcess ≠ 0) ∧
      ∀ a, pidOf (k.pipe a).waitingProcess = pid → l.count a ≤ 1 := by
  induction l generalizing k with
  | nil => simp [deleteLoop]
  | cons a l ih =>
    have hone : (if (k.pipe a).waitingProcess = 0 then 1 else 0) = 0 ↔
        (k.pipe a).waitingProcess ≠ 0 := by simp
    rw [deleteLoop, List.forall_mem_cons]
    by_cases hpid : pidOf (k.pipe a).waitingProcess = pid
    · let k' := k.setPipe a { k.pipe a with waitingProcess := 0 }
      have hself : (k'.pipe a).waitingProcess = 0 := by simp [k']
      have hother : ∀ b, b ≠ a → k'.pipe b = k.pipe b := fun b hb ↦ by simp [k', hb]
      simp only [if_pos hpid, Nat.add_eq_zero_iff, hone]
      rw [ih (k := k'), and_assoc]
      refine and_congr_right (fun _ ↦ ?_)
      constructor
      · intro ⟨hall, hcount⟩
        have ha : a ∉ l := fun hmem ↦ hall a hmem hself
        refine ⟨fun b hb ↦ hother b (ne_of_mem_of_not_mem hb ha) ▸ hall b hb, fun b hb ↦ ?_⟩
        by_cases hba : b = a
        · rw [hba, List.count_cons_self, List.count_eq_zero.mpr ha]
        · rw [List.count_cons_of_ne (Ne.symm hba)]
          exact hcount b (by rw [hother b hba]; exact hb)
      · intro ⟨hall, hcount⟩
        have ha : a ∉ l := by
          have h := hcount a hpid
          rw [List.count_cons_self] at h
          exact List.count_eq_zero.mp (by omega)
        refine ⟨fun b hb ↦ ?_, fun b hb ↦ ?_⟩
        · rw [hother b (ne_of_mem_of_not_mem hb ha)]
          exact hall b hb
        · by_cases hba : b = a
          · rw [hba, List.count_eq_zero.mpr ha]
            exact Nat.zero_le 1
          · rw [hother b hba] at hb
            have h := hcount b hb
            rwa [List.count_cons_of_ne (Ne.symm hba)] at h
    · simp only [if_neg hpid, Nat.add_eq_zero_iff, hone]
      rw [ih, and_assoc]
      refine and_congr_right (fun _ ↦ and_congr_right (fun _ ↦ forall_congr' (fun b ↦ ?_)))
      refine imp_congr_right (fun hb ↦ ?_)
      have hba : a ≠ b := fun heq ↦ hpid (heq ▸ hb)
      rw [List.count_cons_of_ne hba]

end Delete

end ShellOS.Ipc.Pipes
