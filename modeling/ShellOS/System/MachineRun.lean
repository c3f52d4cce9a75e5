import ShellOS.System.Machine
import ShellOS.Time.TimerRun

namespace ShellOS.System.MachineRun

open Library.Fuel Library.Runs Ipc Sched Time Machine Function

inductive Act
  | create (c : Scheduler.Create)
  | killPid (pid : ℕ)
  | exit
  | changeProcessPriority (pid newPriority : ℕ)
  | changeProcessState (pid : ℕ)
  | switchProcess (sp : ℕ)
  | createPipe (f0 f1 newPipe : ℕ)
  | openPipeId (f id reader newPipe : ℕ)
  | closeFdPipe (f : ℕ)
  | pipeWrite (f : ℕ) (string : List UInt8)
  | resumeWrite (f i : ℕ) (c : UInt8) (string : List UInt8)
  | pipeRead (f : ℕ) (limit : ℤ)
  | resumeRead (f : ℕ) (limit : ℤ)
  | semOpen (id : ℕ) (value : ℤ) (newSem : ℕ)
  | semClose (sem : ℕ)
  | semWait (sem : ℕ)
  | semWaitLoop (sem : ℕ)
  | semPost (sem : ℕ)
  | sleep (newNode seconds : ℕ)
  | timerHandler
  | waitForKeyboard
  | awakeKeyboardQueue

/-- The system calls of the other parts, up to a call of `runScheduler`. -/
def call (s : Kernel) : Act → Option Kernel
  | .createPipe f0 f1 newPipe =>
    let r := Pipes.createPipe (pipeKernel s) (s.fd f0) (s.fd f1) newPipe
    some { setPipes s r.1 with
      fd := update (update s.fd f0 r.2.1) f1 r.2.2.1
      livePipes := if r.2.2.2 = 0 then newPipe :: s.livePipes else s.livePipes }
  | .openPipeId f id reader newPipe =>
    let r := Pipes.openPipeId (pipeKernel s) (s.fd f) id reader newPipe
    some { setPipes s r.1 with
      fd := update s.fd f r.2.1
      livePipes := if r.2.2 = 0 then newPipe :: s.livePipes else s.livePipes }
  | .closeFdPipe f => some (closeFdPipe s f)
  | .pipeWrite f string =>
    (Pipes.pipeWrite (pipeKernel s) s.sched.currentProcess (s.fd f) string).map fun r ↦
      setPipes s r.1
  | .resumeWrite f i c string =>
    (Pipes.resumeWrite (pipeKernel s) s.sched.currentProcess (s.fd f) i c string).map fun r ↦
      setPipes s r.1
  | .pipeRead f limit =>
    (Pipes.pipeRead (pipeKernel s) s.sched.currentProcess (s.fd f) limit).map fun r ↦
      setPipes s r.1
  | .resumeRead f limit =>
    (Pipes.resumeRead (pipeKernel s) (s.fd f) limit).map fun r ↦ setPipes s r.1
  | .semOpen id value newSem =>
    (Semaphores.semOpen (semKernel s) id value newSem).map fun r ↦ setSems s r.1
  | .semClose sem => (Semaphores.semClose (semKernel s) sem).map fun r ↦ setSems s r.1
  | .semWait sem =>
    (Semaphores.semWait (semKernel s) s.sched.currentProcess sem).map fun r ↦ setSems s r.1
  | .semWaitLoop sem =>
    some (setSems s (Semaphores.semWaitLoop (semKernel s) s.sched.currentProcess sem).1)
  | .semPost sem => (Semaphores.semPost (semKernel s) sem).map fun r ↦ setSems s r.1
  | .sleep newNode seconds =>
    some (setTimer s (Timer.sleep (timerKernel s) newNode s.sched.currentProcess seconds))
  | .waitForKeyboard =>
    some (setKeyboard s (Keyboard.waitForKeyboard (keyboardKernel s) s.sched.currentProcess))
  | _ => none

def Unqueued (n : ℕ) (s : Kernel) (a : ℕ) : Prop :=
  Library.Links.seek (fun y ↦ y = 0 || y = a) (timerKernel s).next n s.timerStart = some 0

instance (n : ℕ) (s : Kernel) (a : ℕ) : Decidable (Unqueued n s a) := by
  unfold Unqueued
  infer_instance

/-- A step, with `n` turns for each loop of the scheduler and the timer. `alloc`
returns memory that is not in the list of processes or in the timer's queue, and
system calls are made by a process. -/
def perform (n : ℕ) (s : Kernel) : Act → Option Kernel
  | .create c =>
    if c.newNode ≠ 0 ∧ c.newNode ≠ s.sched.dummy ∧ SchedulerRun.Unlisted n s.sched c.newNode then
      (Scheduler.createProcess n s.sched c).map fun r ↦ { s with sched := r.1 }
    else none
  | .killPid pid => killPid n s pid
  | .changeProcessPriority pid newPriority =>
    (Scheduler.changeProcessPriority n s.sched pid newPriority).map fun k ↦ { s with sched := k }
  | .changeProcessState pid =>
    (Scheduler.changeProcessState n s.sched pid).map fun k ↦ { s with sched := k }
  | .switchProcess sp =>
    (Scheduler.switchProcess n s.sched sp).map fun r ↦ { s with sched := r.1 }
  | .timerHandler => (Timer.timerHandler n (timerKernel s)).map (setTimer s)
  | .awakeKeyboardQueue => some (setKeyboard s (Keyboard.awakeKeyboardQueue (keyboardKernel s)))
  | act =>
    if s.sched.currentProcess ≠ 0 ∧ s.sched.currentProcess ≠ s.sched.dummy then
      match act with
      | .exit => exit n s
      | .sleep newNode seconds =>
        if newNode ≠ 0 ∧ Unqueued n s newNode then call s (.sleep newNode seconds) else none
      | act => call s act
    else none

def Step (s : Kernel) (act : Act) (s' : Kernel) : Prop := ∃ n, perform n s act = some s'

structure Boot extends SchedulerRun.Boot where
  pipe : ℕ → Pipes.Pipe
  fd : ℕ → Pipes.FdPipe
  sem : ℕ → Semaphores.Semaphore
  timerNode : ℕ → Timer.TimerNode
  waitingNode : ℕ → Keyboard.WaitingNode
  current : ℕ
  newNodes : List ℕ
  newNodes_length : newNodes.length = Keyboard.maxWaitingKeyboard

def main (n : ℕ) (b : Boot) : Option Kernel :=
  (SchedulerRun.main n b.toBoot).map fun k ↦
    let ring := Keyboard.initScheduler b.waitingNode (fun _ ↦ 0) b.current b.newNodes
    { sched := k
      pipe := b.pipe
      pipes := []
      pipeIds := 0
      fd := b.fd
      livePipes := []
      sem := b.sem
      semaphores := []
      mutexSem := 0
      timerNode := b.timerNode
      timerStart := 0
      ticks := 0
      waitingNode := ring.node
      current := ring.current
      tail := ring.tail
      size := ring.size
      nullReads := 0 }

/-- The process counter did not wrap, the first node of a list has no link in
it, and the head of the list is not moved. -/
def Regular (s : Kernel) : Act → Prop
  | .create c => s.sched.pid ≠ 0 ∧ (s.sched.start = 0 → s.sched.next c.newNode = 0)
  | .changeProcessPriority pid _ =>
    s.sched.start ≠ 0 → 1 < pid → (s.sched.pcb s.sched.start).pid ≠ pid
  | _ => True

variable {s s' : Kernel} {k k' : Scheduler.Kernel} {L : List ℕ} {act : Act} {n : ℕ}

theorem linked_setStates (h : SchedulerRun.Linked k L) (f : ℕ → ℕ) :
    SchedulerRun.Linked (setStates k f) L :=
  h.perm ⟨h.listed.path, h.listed.not_null, h.listed.nodup⟩ (.refl L) (fun _ _ ↦ rfl) rfl rfl rfl
    (fun _ ↦ rfl)

theorem call_sched (h : call s act = some s') : ∃ f, s'.sched = setStates s.sched f := by
  cases act <;> first
    | (obtain rfl := Option.some_inj.mp h; exact ⟨_, rfl⟩)
    | (obtain ⟨r, -, rfl⟩ := Option.map_eq_some_iff.mp h; exact ⟨_, rfl⟩)
    | cases h

theorem linked_select {k₁ : Scheduler.Kernel} {sp : ℕ} {b : Option ℕ}
    (hl : SchedulerRun.Linked k L) (h : SwitchSpec.AfterAging { k with quantum := 0 } k₁ L) :
    SchedulerRun.Linked (Scheduler.select (SwitchSpec.saveSp k₁ sp) b).1 L := by
  have hselect := SwitchSpec.select_fields (k := SwitchSpec.saveSp k₁ sp) (b := b)
  have hfields := h.saved_fields sp
  have hnext : (Scheduler.select (SwitchSpec.saveSp k₁ sp) b).1.next = k.next :=
    SwitchSpec.select_next.trans (h.saved_next sp)
  refine hl.perm ⟨?_, hl.listed.not_null, hl.listed.nodup⟩ (.refl L) (fun y _ ↦ ?_) ?_ ?_ ?_
    (fun y ↦ ?_)
  · rw [hnext, hselect, hfields]
    exact hl.listed.path
  · rw [hnext]
  · rw [hselect, hfields]
  · rw [hselect, hfields]
  · rw [hselect, hfields]
    exact hl.quantum.symm
  · have hpid := h.saved_pid sp y
    rw [SwitchSpec.select_pcb]
    split
    · exact hpid
    · exact hpid

theorem linked_switchProcess {sp : ℕ} {r : Scheduler.Kernel × ℕ} (hl : SchedulerRun.Linked k L)
    (h : Scheduler.switchProcess n k sp = some r) : SchedulerRun.Linked r.1 L := by
  rw [Scheduler.switchProcess] at h
  by_cases hfirst : k.firstProcess = 0
  · rw [if_neg (not_not.mpr hfirst), if_neg (by rw [hl.quantum]; omega)] at h
    obtain ⟨k₁, haging, h⟩ := Option.bind_eq_some_iff.mp h
    obtain ⟨x, -, h⟩ := Option.bind_eq_some_iff.mp h
    obtain ⟨y, -, rfl⟩ := Option.map_eq_some_iff.mp h
    have hlisted : ProcessList.Listed { k with quantum := 0 } L :=
      ⟨hl.listed.path, hl.listed.not_null, hl.listed.nodup⟩
    obtain ⟨k₂, henough, haged⟩ := SwitchSpec.aging_spec hlisted
    have hk := eq_of_enough (fun n m h ↦ Scheduler.aging_mono h) haging henough
    exact linked_select hl (hk ▸ haged)
  · rw [if_pos hfirst, Option.some_inj] at h
    subst h
    exact hl.perm ⟨hl.listed.path, hl.listed.not_null, hl.listed.nodup⟩ (.refl L) (fun _ _ ↦ rfl)
      rfl rfl rfl (fun _ ↦ rfl)

theorem call_linked (hl : SchedulerRun.Linked s.sched L) (h : call s act = some s') :
    SchedulerRun.Linked s'.sched L := by
  obtain ⟨f, hf⟩ := call_sched h
  rw [hf]
  exact linked_setStates hl f

theorem exit_linked (hl : SchedulerRun.Linked s.sched L) (h : exit n s = some s') :
    ∃ L', SchedulerRun.Linked s'.sched L' := by
  rw [exit] at h
  let s₁ := closeFdPipe s (s.sched.pcb s.sched.currentProcess).customStdin
  let s₂ := closeFdPipe s₁ (s₁.sched.pcb s₁.sched.currentProcess).customStdout
  have hl₁ : SchedulerRun.Linked s₁.sched L := linked_setStates hl _
  have hl₂ : SchedulerRun.Linked s₂.sched L := linked_setStates hl₁ _
  have hexit : Scheduler.exitCurrentProcess n s₂.sched = some s'.sched := by
    rw [← exitCurrentProcess_sched]
    exact congrArg (Option.map Kernel.sched) h
  exact ⟨_, hl₂.exitFlag.removed (SchedulerRun.exit_removed hl₂ hexit)⟩

theorem perform_linked (hl : SchedulerRun.Linked s.sched L) (hok : Regular s act)
    (h : perform n s act = some s') : ∃ L', SchedulerRun.Linked s'.sched L' := by
  have hcall : ∀ a, (if s.sched.currentProcess ≠ 0 ∧ s.sched.currentProcess ≠ s.sched.dummy then
      call s a else none) = some s' → ∃ L', SchedulerRun.Linked s'.sched L' := by
    intro a h
    exact ⟨L, call_linked hl (Option.ite_none_right_eq_some.mp h).2⟩
  cases act with
  | create c =>
    obtain ⟨⟨h0, hdummy, hnew⟩, h⟩ := Option.ite_none_right_eq_some.mp h
    obtain ⟨r, hcreate, rfl⟩ := Option.map_eq_some_iff.mp h
    have heffect := SchedulerRun.create_effect hl h0 hdummy (hnew.not_mem h0 hl.listed) hok hcreate
    exact ⟨_, heffect.linked hl⟩
  | killPid pid =>
    have hkill : Scheduler.killPid n s.sched pid = some s'.sched := by
      rw [← killPid_sched]
      exact congrArg (Option.map Kernel.sched) h
    obtain ⟨L', heffect⟩ := SchedulerRun.killPid_effect hl hkill
    exact ⟨L', heffect.linked hl⟩
  | exit => exact exit_linked hl (Option.ite_none_right_eq_some.mp h).2
  | sleep newNode seconds =>
    have hsleep := (Option.ite_none_right_eq_some.mp h).2
    exact ⟨L, call_linked hl (Option.ite_none_right_eq_some.mp hsleep).2⟩
  | changeProcessPriority pid v =>
    obtain ⟨k, hchange, rfl⟩ := Option.map_eq_some_iff.mp h
    obtain ⟨L', heffect⟩ := SchedulerRun.changeProcessPriority_effect hl hok hchange
    exact ⟨L', heffect.linked hl⟩
  | changeProcessState pid =>
    obtain ⟨k, hchange, rfl⟩ := Option.map_eq_some_iff.mp h
    exact ⟨L, (SchedulerRun.changeProcessState_effect hl hchange).linked hl⟩
  | switchProcess sp =>
    obtain ⟨r, hswitch, rfl⟩ := Option.map_eq_some_iff.mp h
    exact ⟨L, linked_switchProcess hl hswitch⟩
  | timerHandler =>
    obtain ⟨k, -, rfl⟩ := Option.map_eq_some_iff.mp h
    exact ⟨L, linked_setStates hl _⟩
  | awakeKeyboardQueue =>
    obtain rfl := Option.some_inj.mp h
    exact ⟨L, linked_setStates hl _⟩
  | _ => exact hcall _ h

theorem main_linked {b : Boot} (h : main n b = some s) :
    SchedulerRun.Linked s.sched [b.newNode] := by
  obtain ⟨k, hk, rfl⟩ := Option.map_eq_some_iff.mp h
  exact (SchedulerRun.main_started hk).linked

theorem run_linked {b : Boot} {tr : List (Kernel × Act)} {s₀ : Kernel} (hb : main n b = some s₀)
    (hrun : Run Step s₀ tr s) (hok : ∀ e ∈ tr, Regular e.1 e.2) :
    ∃ L, SchedulerRun.Linked s.sched L := by
  refine hrun.invariant_of (I := fun s ↦ ∃ L, SchedulerRun.Linked s.sched L)
    (fun s act s' ⟨L, hl⟩ hok hs ↦ ?_) hok ⟨_, main_linked hb⟩
  obtain ⟨m, hs⟩ := hs
  exact perform_linked hl hok hs

theorem killPid_returns (hl : SchedulerRun.Linked s.sched L) (pid : ℕ) :
    ∃ s', ∀ n, L.length < n → killPid n s pid = some s' := by
  obtain ⟨k, hk⟩ : ∃ k, Scheduler.killPid (L.length + 1) s.sched pid = some k := by
    obtain ⟨r, hr, -⟩ := ProcessList.deleteProcess_spec hl.listed hl.pids pid
    rw [Scheduler.killPid, hr _ (Nat.lt_succ_self _)]
    split
    · exact ⟨_, rfl⟩
    · exact ⟨_, rfl⟩
  rw [← killPid_sched] at hk
  obtain ⟨s', hs', -⟩ := Option.map_eq_some_iff.mp hk
  exact ⟨s', fun n hn ↦ killPid_mono hn s' hs'⟩

theorem run_killPid_returns {b : Boot} {tr : List (Kernel × Act)} {s₀ : Kernel}
    (hb : main n b = some s₀) (hrun : Run Step s₀ tr s) (hok : ∀ e ∈ tr, Regular e.1 e.2)
    (pid : ℕ) : ∃ l s', ∀ n, l < n → killPid n s pid = some s' := by
  obtain ⟨L, hl⟩ := run_linked hb hrun hok
  obtain ⟨s', hs'⟩ := killPid_returns hl pid
  exact ⟨L.length, s', hs'⟩

section Queue

variable {Q : List ℕ}

def TimerKept (s s' : Kernel) : Prop :=
  s'.timerNode = s.timerNode ∧ s'.timerStart = s.timerStart

theorem deleteProcess_timer {pid a : ℕ} {r : Kernel × ℕ} (h : deleteProcess pid n s a = some r) :
    TimerKept s r.1 := by
  rcases deleteProcess_cases h with ⟨-, rfl⟩ | ⟨x, k, -, -, -, hr, -⟩
  · exact ⟨rfl, rfl⟩
  · rw [hr]
    exact ⟨rfl, rfl⟩

theorem killPid_timer {pid : ℕ} (h : killPid n s pid = some s') : TimerKept s s' := by
  rw [killPid] at h
  split at h
  · obtain ⟨r, hr, rfl⟩ := Option.map_eq_some_iff.mp h
    exact deleteProcess_timer hr
  · obtain rfl := Option.some_inj.mp h
    exact ⟨rfl, rfl⟩

theorem exit_timer (h : exit n s = some s') : TimerKept s s' := by
  obtain ⟨r, hr, rfl⟩ := Option.map_eq_some_iff.mp h
  have hkept := deleteProcess_timer hr
  exact hkept

theorem call_timer (h : call s act = some s') (hsleep : ∀ a seconds, act ≠ .sleep a seconds) :
    TimerKept s s' := by
  cases act <;> first
    | exact absurd rfl (hsleep _ _)
    | (obtain rfl := Option.some_inj.mp h; exact ⟨rfl, rfl⟩)
    | (obtain ⟨r, -, rfl⟩ := Option.map_eq_some_iff.mp h; exact ⟨rfl, rfl⟩)
    | cases h

theorem sleep_queue {newNode seconds : ℕ} (hQ : Timer.Queue (timerKernel s) Q)
    (h0 : newNode ≠ 0) (hfresh : Unqueued n s newNode)
    (h : call s (.sleep newNode seconds) = some s') :
    Timer.Queue (timerKernel s') (newNode :: Q) := by
  obtain rfl := Option.some_inj.mp h
  have hnew := Path.not_mem_of_seek hQ.path hQ.not_null h0 hfresh
  have hfresh' : TimerRun.fresh (timerKernel s) newNode :=
    ⟨h0, fun Q' hQ' ↦ hQ.unique hQ' ▸ hnew⟩
  have hqueue := (TimerRun.queue_sleep s.sched.currentProcess seconds hQ hfresh').1
  exact hqueue.congr rfl rfl

theorem timerHandler_queue {k : Timer.Kernel} (hQ : Timer.Queue (timerKernel s) Q)
    (h : Timer.timerHandler n (timerKernel s) = some k) :
    ∃ Q', Timer.Queue (timerKernel (setTimer s k)) Q' := by
  obtain ⟨k', hrun, -, ⟨Q', hQ'⟩, -⟩ := TimerSpec.timerHandler_spec hQ
  obtain rfl := TimerRun.timerHandler_unique h (hrun _ (Nat.lt_succ_self _))
  exact ⟨Q', hQ'.congr rfl rfl⟩

theorem perform_queue (hQ : Timer.Queue (timerKernel s) Q) (h : perform n s act = some s') :
    ∃ Q', Timer.Queue (timerKernel s') Q' := by
  have hkept : TimerKept s s' → ∃ Q', Timer.Queue (timerKernel s') Q' :=
    fun hkept ↦ ⟨Q, hQ.congr hkept.1 hkept.2⟩
  have hcall : ∀ a, (if s.sched.currentProcess ≠ 0 ∧ s.sched.currentProcess ≠ s.sched.dummy then
      call s a else none) = some s' → (∀ b seconds, a ≠ .sleep b seconds) → TimerKept s s' := by
    intro a h ha
    exact call_timer (Option.ite_none_right_eq_some.mp h).2 ha
  cases act with
  | create c =>
    obtain ⟨r, -, rfl⟩ := Option.map_eq_some_iff.mp (Option.ite_none_right_eq_some.mp h).2
    exact hkept ⟨rfl, rfl⟩
  | killPid pid => exact hkept (killPid_timer h)
  | exit => exact hkept (exit_timer (Option.ite_none_right_eq_some.mp h).2)
  | changeProcessPriority pid v =>
    obtain ⟨k, -, rfl⟩ := Option.map_eq_some_iff.mp h
    exact hkept ⟨rfl, rfl⟩
  | changeProcessState pid =>
    obtain ⟨k, -, rfl⟩ := Option.map_eq_some_iff.mp h
    exact hkept ⟨rfl, rfl⟩
  | switchProcess sp =>
    obtain ⟨r, -, rfl⟩ := Option.map_eq_some_iff.mp h
    exact hkept ⟨rfl, rfl⟩
  | sleep newNode seconds =>
    have hsleep := (Option.ite_none_right_eq_some.mp h).2
    obtain ⟨⟨h0, hfresh⟩, hcall⟩ := Option.ite_none_right_eq_some.mp hsleep
    exact ⟨_, sleep_queue hQ h0 hfresh hcall⟩
  | timerHandler =>
    obtain ⟨k, hk, rfl⟩ := Option.map_eq_some_iff.mp h
    exact timerHandler_queue hQ hk
  | awakeKeyboardQueue =>
    obtain rfl := Option.some_inj.mp h
    exact hkept ⟨rfl, rfl⟩
  | _ => exact hkept (hcall _ h (fun _ _ ↦ nofun))

theorem run_queue {b : Boot} {tr : List (Kernel × Act)} {s₀ : Kernel} (hb : main n b = some s₀)
    (hrun : Run Step s₀ tr s) : ∃ Q, Timer.Queue (timerKernel s) Q := by
  have hboot : s₀.timerStart = 0 := by
    obtain ⟨k, -, rfl⟩ := Option.map_eq_some_iff.mp hb
    rfl
  refine hrun.invariant (I := fun s ↦ ∃ Q, Timer.Queue (timerKernel s) Q)
    (fun s act s' ⟨Q, hQ⟩ ⟨m, hs⟩ ↦ perform_queue hQ hs) ⟨[], Timer.queue_nil hboot⟩

end Queue

def smallBoot : Boot where
  toBoot := SchedulerRun.smallBoot
  pipe := fun _ ↦ ⟨0, fun _ ↦ 0, 0, 0, 0, 0, 0, 0⟩
  fd := fun _ ↦ ⟨0, 0, 0⟩
  sem := fun _ ↦ ⟨0, 0, [], 0⟩
  timerNode := fun _ ↦ ⟨0, 0, 0, 0⟩
  waitingNode := fun _ ↦ ⟨0, 0⟩
  current := 100
  newNodes := [101, 102, 103, 104, 105, 106, 107, 108, 109, 110]
  newNodes_length := rfl

theorem main_isSome : (main 1 smallBoot).isSome := rfl

def booted : Kernel := (main 1 smallBoot).get main_isSome

theorem main_smallBoot : main 1 smallBoot = some booted := (Option.some_get main_isSome).symm

theorem run_of_booted {acts : List Act} (h : acts.foldlM (perform n) booted = some s) :
    ∃ tr, Run Step booted tr s := by
  obtain ⟨tr, hrun, -⟩ := run_of_foldlM h
  exact ⟨tr, hrun.mono (fun _ _ _ h ↦ ⟨n, h⟩)⟩

end ShellOS.System.MachineRun
