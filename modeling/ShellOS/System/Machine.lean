import ShellOS.Ipc.Pipes
import ShellOS.Ipc.Semaphores
import ShellOS.Sched.Keyboard
import ShellOS.Sched.SchedulerRun
import ShellOS.Time.Timer

namespace ShellOS.System.Machine

open Library.Fuel Ipc Sched Time Function

/-- The scheduler with its pcbs, and what the other parts of the kernel keep:
the pipes, their table and the descriptors, the semaphores, the timer's queue
and the keyboard ring. `livePipes` are the pipes that were allocated and not freed,
and `nullReads` counts the reads through a `NULL`. -/
structure Kernel where
  sched : Scheduler.Kernel
  pipe : ℕ → Pipes.Pipe
  pipes : List ℕ
  pipeIds : ℕ
  fd : ℕ → Pipes.FdPipe
  livePipes : List ℕ
  sem : ℕ → Semaphores.Semaphore
  semaphores : List ℕ
  mutexSem : ℕ
  timerNode : ℕ → Timer.TimerNode
  timerStart : ℕ
  ticks : ℕ
  waitingNode : ℕ → Keyboard.WaitingNode
  current : ℕ
  tail : ℕ
  size : ℕ
  nullReads : ℕ

def setStates (k : Scheduler.Kernel) (pstate : ℕ → ℕ) : Scheduler.Kernel :=
  { k with node := fun a ↦
      { k.node a with process := { (k.node a).process with pstate := pstate a } } }

section Parts

variable (s : Kernel)

def pstate (a : ℕ) : ℕ := (s.sched.pcb a).pstate

def pidOf (a : ℕ) : ℕ := (s.sched.pcb a).pid

def pipeKernel : Pipes.Kernel := ⟨s.pipe, s.pipes, s.pipeIds, pstate s⟩

def setPipes (k : Pipes.Kernel) : Kernel :=
  { s with
    sched := setStates s.sched k.pstate
    pipe := k.pipe
    pipes := k.pipes
    pipeIds := k.pipeIds }

def semKernel : Semaphores.Kernel := ⟨s.sem, s.semaphores, s.mutexSem, pstate s⟩

def setSems (k : Semaphores.Kernel) : Kernel :=
  { s with
    sched := setStates s.sched k.pstate
    sem := k.sem
    semaphores := k.semaphores
    mutexSem := k.mutexSem }

def timerKernel : Timer.Kernel := ⟨s.timerNode, s.timerStart, s.ticks, pstate s, pidOf s⟩

def setTimer (k : Timer.Kernel) : Kernel :=
  { s with
    sched := setStates s.sched k.pstate
    timerNode := k.node
    timerStart := k.start
    ticks := k.ticks }

def keyboardKernel : Keyboard.Kernel :=
  ⟨s.waitingNode, s.current, s.tail, s.size, pstate s⟩

def setKeyboard (k : Keyboard.Kernel) : Kernel :=
  { s with
    sched := setStates s.sched k.pstate
    waitingNode := k.node
    current := k.current
    tail := k.tail
    size := k.size }

end Parts

def deleteProcessFromSemaphores (s : Kernel) (pid : ℕ) : Kernel :=
  setSems s (Semaphores.deleteProcessFromSemaphores (pidOf s) pid (semKernel s))

def deleteProcessFromPipes (s : Kernel) (pid : ℕ) : Kernel :=
  let r := Pipes.deleteProcessFromPipes (pidOf s) pid (pipeKernel s)
  { setPipes s r.1 with nullReads := s.nullReads + r.2 }

/-- What `deleteProcess` does besides for the process that it takes out. -/
def deleteWaiter (s : Kernel) (pid : ℕ) : Kernel :=
  deleteProcessFromPipes (deleteProcessFromSemaphores s pid) pid

def deleteProcess (pid : ℕ) : ℕ → Kernel → ℕ → Option (Kernel × ℕ)
  | 0, _, _ => none
  | fuel + 1, s, node =>
    if node = 0 then some (s, node)
    else if pidOf s node = pid then
      let next := s.sched.next node
      some (deleteWaiter { s with sched := Scheduler.setState s.sched node 2 } pid, next)
    else
      (deleteProcess pid fuel s (s.sched.next node)).map fun r ↦
        ({ r.1 with sched := r.1.sched.setNext node r.2 }, node)

def setStart (s : Kernel) (start : ℕ) : Kernel :=
  { s with sched := { s.sched with start := start } }

def exitCurrentProcess (fuel : ℕ) (s : Kernel) : Option Kernel :=
  let pid := pidOf s s.sched.currentProcess
  let s := { s with sched := SchedulerRun.exitFlag s.sched }
  (deleteProcess pid fuel s s.sched.start).map fun r ↦ setStart r.1 r.2

def killPid (fuel : ℕ) (s : Kernel) (pid : ℕ) : Option Kernel :=
  if pid > 1 then (deleteProcess pid fuel s s.sched.start).map fun r ↦ setStart r.1 r.2
  else some s

def closeFdPipe (s : Kernel) (f : ℕ) : Kernel :=
  let r := Pipes.closeFdPipe (pipeKernel s) (if f = 0 then none else some (s.fd f))
  { setPipes s r.1 with livePipes := s.livePipes.filter fun a ↦ r.2 ≠ some a }

/-- The system call `exit`, up to its call of `runScheduler`. -/
def exit (fuel : ℕ) (s : Kernel) : Option Kernel :=
  let s := closeFdPipe s (s.sched.pcb s.sched.currentProcess).customStdin
  let s := closeFdPipe s (s.sched.pcb s.sched.currentProcess).customStdout
  exitCurrentProcess fuel s

variable {s : Kernel} {k : Scheduler.Kernel} {a pid n : ℕ}

theorem setStates_self : setStates s.sched (pstate s) = s.sched := rfl

theorem setSems_pstate {q : Semaphores.Kernel} (h : q.pstate = pstate s) :
    setSems s q = { s with sem := q.sem, semaphores := q.semaphores, mutexSem := q.mutexSem } := by
  rw [setSems, h]
  rfl

theorem setPipes_pstate {q : Pipes.Kernel} (h : q.pstate = pstate s) :
    setPipes s q = { s with pipe := q.pipe, pipes := q.pipes, pipeIds := q.pipeIds } := by
  rw [setPipes, h]
  rfl

theorem deleteProcessFromSemaphores_eq (s : Kernel) (pid : ℕ) : deleteProcessFromSemaphores s pid =
    let k := Semaphores.deleteProcessFromSemaphores (pidOf s) pid
      ⟨s.sem, s.semaphores, s.mutexSem, fun _ ↦ 0⟩
    { s with sem := k.sem, semaphores := k.semaphores, mutexSem := k.mutexSem } := by
  have hdelete := Semaphores.deleteProcessFromSemaphores_pstate (pidOf s) pid
    ⟨s.sem, s.semaphores, s.mutexSem, fun _ ↦ 0⟩ (pstate s)
  exact (congrArg (setSems s) hdelete).trans (setSems_pstate rfl)

theorem deleteProcessFromPipes_eq (s : Kernel) (pid : ℕ) : deleteProcessFromPipes s pid =
    let r := Pipes.deleteProcessFromPipes (pidOf s) pid ⟨s.pipe, s.pipes, s.pipeIds, fun _ ↦ 0⟩
    { s with
      pipe := r.1.pipe, pipes := r.1.pipes, pipeIds := r.1.pipeIds
      nullReads := s.nullReads + r.2 } := by
  have hdelete : Pipes.deleteProcessFromPipes (pidOf s) pid (pipeKernel s) = _ :=
    Pipes.deleteLoop_pstate (k := ⟨s.pipe, s.pipes, s.pipeIds, fun _ ↦ 0⟩) (pstate s)
  rw [deleteProcessFromPipes, hdelete, setPipes_pstate rfl]
  rfl

theorem deleteWaiter_sched (hpid : ∀ a, (k.pcb a).pid = (s.sched.pcb a).pid) :
    deleteWaiter { s with sched := k } pid = { deleteWaiter s pid with sched := k } := by
  have hpids : pidOf { s with sched := k } = pidOf s := funext hpid
  have hsems : deleteProcessFromSemaphores { s with sched := k } pid =
      { deleteProcessFromSemaphores s pid with sched := k } := by
    rw [deleteProcessFromSemaphores_eq, deleteProcessFromSemaphores_eq, hpids]
  have hsched : (deleteProcessFromSemaphores s pid).sched = s.sched := by
    rw [deleteProcessFromSemaphores_eq]
  have hpids' : pidOf { deleteProcessFromSemaphores s pid with sched := k } =
      pidOf (deleteProcessFromSemaphores s pid) := by
    funext a
    rw [pidOf, pidOf, hsched]
    exact hpid a
  rw [deleteWaiter, deleteWaiter, hsems, deleteProcessFromPipes_eq, deleteProcessFromPipes_eq, hpids']

theorem deleteWaiter_keeps (s : Kernel) (pid : ℕ) : (deleteWaiter s pid).sched = s.sched := by
  have h : deleteWaiter s pid = { deleteWaiter s pid with sched := s.sched } :=
    deleteWaiter_sched (k := s.sched) (fun _ ↦ rfl)
  rw [h]

theorem deleteProcess_sched (pid n : ℕ) (s : Kernel) (a : ℕ) :
    (deleteProcess pid n s a).map (fun r ↦ (r.1.sched, r.2)) =
      Scheduler.deleteProcess pid n s.sched a := by
  induction n generalizing a with
  | zero => rfl
  | succ n ih =>
    rw [deleteProcess, Scheduler.deleteProcess]
    by_cases ha : a = 0
    · rw [if_pos ha, if_pos ha]
      rfl
    by_cases hpid : pidOf s a = pid
    · have hpid' : (s.sched.pcb a).pid = pid := hpid
      rw [if_neg ha, if_pos hpid, if_neg ha, if_pos hpid', Option.map_some, deleteWaiter_keeps]
      rfl
    · have hpid' : ¬ (s.sched.pcb a).pid = pid := hpid
      rw [if_neg ha, if_neg hpid, if_neg ha, if_neg hpid', ← ih, Option.map_map, Option.map_map]
      rfl

theorem deleteProcess_mono {m : ℕ} (h : n ≤ m) (s : Kernel) (a : ℕ) :
    Extends (deleteProcess pid n s a) (deleteProcess pid m s a) := by
  induction n generalizing m s a with
  | zero => exact extends_none _
  | succ n ih =>
    obtain ⟨m, rfl⟩ : ∃ i, m = i + 1 := ⟨m - 1, by omega⟩
    simp only [deleteProcess]
    apply Extends.ite (.refl _)
    exact Extends.ite (.refl _) ((ih (by omega) s _).map _)

theorem killPid_mono {m : ℕ} (h : n ≤ m) : Extends (killPid n s pid) (killPid m s pid) :=
  Extends.ite ((deleteProcess_mono h _ _).map _) (.refl _)

theorem killPid_sched (n : ℕ) (s : Kernel) (pid : ℕ) :
    (killPid n s pid).map Kernel.sched = Scheduler.killPid n s.sched pid := by
  rw [killPid, Scheduler.killPid]
  split
  · rw [← deleteProcess_sched, Option.map_map, Option.map_map]
    rfl
  · rfl

theorem exitCurrentProcess_sched (n : ℕ) (s : Kernel) :
    (exitCurrentProcess n s).map Kernel.sched = Scheduler.exitCurrentProcess n s.sched := by
  rw [SchedulerRun.exitCurrentProcess_eq, exitCurrentProcess]
  change Option.map _ (Option.map _ (deleteProcess (pidOf s s.sched.currentProcess) n
    { s with sched := SchedulerRun.exitFlag s.sched } s.sched.start)) = _
  have hdelete := deleteProcess_sched (s.sched.pcb s.sched.currentProcess).pid n
    { s with sched := SchedulerRun.exitFlag s.sched } s.sched.start
  rw [← hdelete, Option.map_map, Option.map_map]
  rfl

/-- The process that `getPCB` finds is the one whose waits are deleted. No other
pcb changes. -/
theorem deleteProcess_cases {r : Kernel × ℕ} (h : deleteProcess pid n s a = some r) :
    Scheduler.getPCB s.sched pid n a = some 0 ∧ r = (s, a) ∨
      ∃ x k, x ≠ 0 ∧ Scheduler.getPCB s.sched pid n a = some x ∧ pidOf s x = pid ∧
        r.1 = { deleteWaiter s pid with sched := k } ∧ ∀ y ≠ x, k.pcb y = s.sched.pcb y := by
  induction n generalizing a r with
  | zero => cases h
  | succ n ih =>
    rw [deleteProcess] at h
    rw [Scheduler.getPCB, Library.Links.seek]
    by_cases ha : a = 0
    · rw [if_pos ha, Option.some_inj] at h
      exact Or.inl ⟨by simp [ha], h.symm⟩
    rw [if_neg ha] at h
    by_cases hpid : pidOf s a = pid
    · have hpid' : (s.sched.pcb a).pid = pid := hpid
      rw [if_pos hpid, Option.some_inj] at h
      subst h
      refine Or.inr ⟨a, Scheduler.setState s.sched a 2, ha, by simp [hpid'], hpid, ?_, ?_⟩
      · exact deleteWaiter_sched (fun y ↦ SchedulerRun.setState_pid y 2)
      · intro y hy
        rw [SchedulerRun.setState_pcb, if_neg hy]
    · have hpid' : ¬ (s.sched.pcb a).pid = pid := hpid
      have hstop : (decide (a = 0) || decide ((s.sched.pcb a).pid = pid)) = false := by
        simp [ha, hpid']
      rw [if_neg hpid] at h
      obtain ⟨q, hq, rfl⟩ := Option.map_eq_some_iff.mp h
      rw [hstop]
      rcases ih hq with ⟨hget, rfl⟩ | ⟨x, k, hx, hget, hxp, hk, hpcb⟩
      · exact Or.inl ⟨hget, by rw [Scheduler.setNext_self]⟩
      · refine Or.inr ⟨x, k.setNext a q.2, hx, hget, hxp, ?_, fun y hy ↦ ?_⟩
        · rw [hk]
        · rw [Scheduler.pcb_setNext]
          exact hpcb y hy

theorem killPid_cases {s' : Kernel} (h1 : 1 < pid) (h : killPid n s pid = some s') :
    Scheduler.getPCB s.sched pid n s.sched.start = some 0 ∧ s' = s ∨
      ∃ x k, x ≠ 0 ∧ Scheduler.getPCB s.sched pid n s.sched.start = some x ∧ pidOf s x = pid ∧
        s' = { deleteWaiter s pid with sched := k } ∧ ∀ y ≠ x, k.pcb y = s.sched.pcb y := by
  rw [killPid, if_pos h1] at h
  obtain ⟨r, hr, rfl⟩ := Option.map_eq_some_iff.mp h
  rcases deleteProcess_cases hr with ⟨hget, rfl⟩ | ⟨x, k, hx, hget, hxp, hk, hpcb⟩
  · exact Or.inl ⟨hget, rfl⟩
  · refine Or.inr ⟨x, { k with start := r.2 }, hx, hget, hxp, ?_, hpcb⟩
    rw [setStart, hk]

end ShellOS.System.Machine
