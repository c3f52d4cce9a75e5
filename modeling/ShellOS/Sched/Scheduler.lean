import ShellOS.Library.Fuel
import ShellOS.Library.Words

namespace ShellOS.Sched.Scheduler

open Library.Fuel Library.Links Library.Words Function

def quantumTicks : ℕ := 1
def priorityQuantumTicks : ℕ := 5
def defaultProgramSize : ℕ := 4096

structure Pcb where
  args : List (List UInt8)
  pid : ℕ
  pstate : ℕ
  priority : ℕ
  auxPriority : ℕ
  sp : ℕ
  bp : ℕ
  processMemory : ℕ
  customStdin : ℕ
  customStdout : ℕ

/-- A pcb has the address of its node. -/
structure ListNode where
  process : Pcb
  next : ℕ

/-- The nodes by address, the scheduler's own fields, and the globals
`firstProcess`, `pid` and `dummy`. Address 0 is `NULL`, and what is read there
is not fixed. -/
structure Kernel where
  node : ℕ → ListNode
  quantum : ℕ
  priorityQuantum : ℕ
  fgTaken : ℕ
  currentProcess : ℕ
  start : ℕ
  firstProcess : ℕ
  pid : ℕ
  dummy : ℕ

namespace Kernel

variable (k : Kernel) (a : ℕ)

def pcb : Pcb := (k.node a).process

def next : ℕ := (k.node a).next

def setPcb (p : Pcb) : Kernel := { k with node := update k.node a { k.node a with process := p } }

def setNext (v : ℕ) : Kernel := { k with node := update k.node a { k.node a with next := v } }

end Kernel

/-- The stack pointer that `initProcess` returns for a stack that ends at `top`. -/
def initProcess (top : ℕ) : ℕ := top - 160

/-- What `createProcess` is called with, and the two addresses that `alloc`
returns to it. -/
structure Create where
  priority : ℕ
  args : List (List UInt8)
  customStdin : ℕ
  customStdout : ℕ
  newNode : ℕ
  processMemory : ℕ

def newPcb (c : Create) (pid : ℕ) (old : Pcb) : Pcb where
  args := c.args ++ old.args.drop c.args.length
  pid := pid
  pstate := 1
  priority := c.priority
  auxPriority := c.priority
  sp := initProcess (c.processMemory + defaultProgramSize)
  bp := c.processMemory + defaultProgramSize - 1
  processMemory := c.processMemory
  customStdin := c.customStdin
  customStdout := c.customStdout

def writeProcess (k : Kernel) (c : Create) (pid : ℕ) : Kernel :=
  k.setPcb c.newNode (newPcb c pid (k.pcb c.newNode))

def loadProcess (c : Create) (pid : ℕ) : ℕ → Kernel → ℕ → Option (Kernel × ℕ)
  | 0, _, _ => none
  | fuel + 1, k, node =>
    if node = 0 then some (writeProcess k c pid, c.newNode)
    else if k.next node ≠ 0 ∧ (k.pcb (k.next node)).priority ≤ c.priority then
      (loadProcess c pid fuel k (k.next node)).map fun r ↦ (r.1.setNext node r.2, node)
    else
      some (writeProcess ((k.setNext c.newNode (k.next node)).setNext node c.newNode) c pid, node)

def createProcess (fuel : ℕ) (k : Kernel) (c : Create) : Option (Kernel × ℤ) :=
  let k := if c.priority = 1 ∧ k.pid > 1 then { k with fgTaken := 1 } else k
  (loadProcess c k.pid fuel { k with pid := u32 (k.pid + 1) } k.start).map fun r ↦
    ({ r.1 with start := r.2 }, i32 (u32Sub r.1.pid 1))

/-- `deleteProcess`, without what it does to semaphores and pipes. -/
def deleteProcess (pid : ℕ) : ℕ → Kernel → ℕ → Option (Kernel × ℕ)
  | 0, _, _ => none
  | fuel + 1, k, node =>
    if node = 0 then some (k, node)
    else if (k.pcb node).pid = pid then
      some (k.setPcb node { k.pcb node with pstate := 2 }, k.next node)
    else (deleteProcess pid fuel k (k.next node)).map fun r ↦ (r.1.setNext node r.2, node)

def exitCurrentProcess (fuel : ℕ) (k : Kernel) : Option Kernel :=
  let k := if (k.pcb k.currentProcess).priority = 1 then { k with fgTaken := 0 } else k
  (deleteProcess (k.pcb k.currentProcess).pid fuel k k.start).map fun r ↦
    { r.1 with start := r.2 }

def killPid (fuel : ℕ) (k : Kernel) (pid : ℕ) : Option Kernel :=
  if pid > 1 then
    (deleteProcess pid fuel k k.start).map fun r ↦ { r.1 with start := r.2 }
  else some k

def getPCB (k : Kernel) (pid : ℕ) : ℕ → ℕ → Option ℕ :=
  seek (fun node ↦ node = 0 || (k.pcb node).pid = pid) k.next

def setPriority (k : Kernel) (a newPriority : ℕ) : Kernel :=
  k.setPcb a { k.pcb a with priority := newPriority, auxPriority := newPriority }

/-- The end of `changeProcessPriority`, which moves the node in the list. -/
def moveProcess (fuel : ℕ) (k : Kernel) (pid newPriority : ℕ) : Option Kernel :=
  (seek (fun headPID ↦ (k.pcb (k.next headPID)).pid = pid) k.next fuel k.start).bind
    fun headPID ↦
      let process := k.next headPID
      let k := k.setNext headPID (k.next process)
      (seek (fun headPID ↦ k.next headPID = 0 ||
          newPriority < (k.pcb (k.next headPID)).priority) k.next fuel k.start).map
        fun headPID ↦ (k.setNext headPID process).setNext process (k.next headPID)

def changeProcessPriority (fuel : ℕ) (k : Kernel) (pid newPriority : ℕ) : Option Kernel :=
  if pid ≤ 1 then some k
  else if newPriority ≤ 1 ∨ newPriority > 10 then some k
  else
    (getPCB k pid fuel k.start).bind fun pidPCB ↦
      if pidPCB = 0 then some k
      else moveProcess fuel (setPriority k pidPCB newPriority) pid newPriority

def setState (k : Kernel) (a v : ℕ) : Kernel := k.setPcb a { k.pcb a with pstate := v }

/-- `changeProcessState` up to its call of `runScheduler`. -/
def changeProcessState (fuel : ℕ) (k : Kernel) (pid : ℕ) : Option Kernel :=
  if pid ≤ 1 then some k
  else
    (getPCB k pid fuel k.start).map fun pidPCB ↦
      if pidPCB = 0 then k
      else if (k.pcb pidPCB).pstate = 1 then setState k pidPCB 0
      else if (k.pcb pidPCB).pstate = 0 then setState k pidPCB 1
      else k

def blockCurrentProcess (k : Kernel) : Kernel := setState k k.currentProcess 0

def ageLoop : ℕ → Kernel → ℕ → Option Kernel
  | 0, _, _ => none
  | fuel + 1, k, auxNodeIter =>
    if auxNodeIter = 0 then some k
    else
      let p := k.pcb auxNodeIter
      let k :=
        if p.auxPriority > 1 ∧ p.pid ≠ (k.pcb k.currentProcess).pid ∧ p.pstate = 1 then
          k.setPcb auxNodeIter { p with auxPriority := p.auxPriority - 1 }
        else k
      ageLoop fuel k (k.next auxNodeIter)

def aging (fuel : ℕ) (k : Kernel) : Option Kernel :=
  (if k.priorityQuantum = 0 then
    (ageLoop fuel k k.start).map fun k ↦ { k with priorityQuantum := priorityQuantumTicks + 1 }
  else some k).map fun k ↦ { k with priorityQuantum := k.priorityQuantum - 1 }

def nextStep (k : Kernel) (nextProcess auxNextProcess : ℕ) : ℕ :=
  let nextProcess := if (k.pcb nextProcess).pstate ≠ 1 then auxNextProcess else nextProcess
  if (k.pcb auxNextProcess).auxPriority < (k.pcb nextProcess).auxPriority ∧
      (k.pcb auxNextProcess).pstate = 1 then auxNextProcess
  else nextProcess

def nextLoop (k : Kernel) : ℕ → ℕ → ℕ → Option ℕ
  | 0, _, _ => none
  | fuel + 1, nextProcess, auxNextProcess =>
    if auxNextProcess = 0 then some nextProcess
    else nextLoop k fuel (nextStep k nextProcess auxNextProcess) (k.next auxNextProcess)

def firstStep (k : Kernel) (first auxFirst : ℕ) : ℕ :=
  if (k.pcb auxFirst).pid = 1 ∧ k.fgTaken ≠ 0 then
    if (k.pcb first).pid = 1 then k.next first else first
  else
    let first :=
      if (k.pcb first).pstate ≠ 1 ∧ (k.fgTaken = 0 ∨ (k.pcb auxFirst).pid ≠ 1) then auxFirst
      else first
    if (k.pcb auxFirst).auxPriority < (k.pcb first).auxPriority ∧ (k.pcb first).pstate = 1 then
      auxFirst
    else first

def firstLoop (k : Kernel) : ℕ → ℕ → ℕ → Option ℕ
  | 0, _, _ => none
  | fuel + 1, first, auxFirst =>
    if auxFirst = 0 ∨ (k.pcb auxFirst).pid = (k.pcb k.currentProcess).pid then some first
    else firstLoop k fuel (firstStep k first auxFirst) (k.next auxFirst)

/-- The result of the second search, with the current process in its place when
it is not ready, and `NULL` in the place of a shell that is held back. -/
def adjustFirst (k : Kernel) (first : ℕ) : ℕ :=
  let first :=
    if (k.pcb first).pstate ≠ 1 ∧ (k.pcb k.currentProcess).pstate = 1 ∧
        (k.pcb k.currentProcess).pid ≠ 0 then k.currentProcess
    else first
  if k.fgTaken ≠ 0 ∧ (k.pcb first).pid = 1 then 0 else first

/-- The choice of `switchProcess` between the results of its two searches. It
is the dummy process when there is none. -/
def choose (k : Kernel) (nextProcess first : ℕ) : Option ℕ :=
  if (nextProcess = 0 ∨ (k.pcb nextProcess).pstate ≠ 1) ∧
      (first = 0 ∨ (k.pcb first).pstate ≠ 1) then none
  else if nextProcess = 0 ∨ (k.pcb nextProcess).pstate ≠ 1 then some first
  else if first = 0 ∨ (k.pcb first).pstate ≠ 1 then some nextProcess
  else if (k.pcb first).auxPriority < (k.pcb nextProcess).auxPriority then some first
  else some nextProcess

def select (k : Kernel) : Option ℕ → Kernel × ℕ
  | none => ({ k with currentProcess := k.dummy }, (k.pcb k.dummy).sp)
  | some a =>
    ({ k.setPcb a { k.pcb a with auxPriority := (k.pcb a).priority } with currentProcess := a },
      (k.pcb a).sp)

def switchProcess (fuel : ℕ) (k : Kernel) (sp : ℕ) : Option (Kernel × ℕ) :=
  if k.firstProcess ≠ 0 then
    some ({ k with firstProcess := 0, currentProcess := k.start }, (k.pcb k.start).sp)
  else if k.quantum > 0 then some ({ k with quantum := k.quantum - 1 }, 0)
  else
    (aging fuel { k with quantum := quantumTicks - 1 }).bind fun k ↦
      let k := k.setPcb k.currentProcess { k.pcb k.currentProcess with sp := sp }
      (nextLoop k fuel (k.next k.currentProcess) (k.next k.currentProcess)).bind fun nextProcess ↦
        (firstLoop k fuel k.start k.start).map fun first ↦
          select k (choose k nextProcess (adjustFirst k first))

/-- `initScheduler`, with the memory as it finds it and the addresses that
`alloc` returns. -/
def initScheduler (node : ℕ → ListNode) (dummyMemory dummy : ℕ) : Kernel where
  node := update node dummy ⟨{ (node dummy).process with
    pid := 0, sp := initProcess (dummyMemory + 2048), processMemory := dummyMemory, pstate := 1,
    priority := 1 }, 0⟩
  quantum := quantumTicks - 1
  priorityQuantum := priorityQuantumTicks
  fgTaken := 0
  currentProcess := 0
  start := 0
  firstProcess := 1
  pid := 1
  dummy := dummy

section Access

variable (k : Kernel) (a v : ℕ) (p : Pcb)

@[simp] theorem pcb_setPcb : (k.setPcb a p).pcb = update k.pcb a p := by
  funext b
  by_cases hb : b = a
  · simp [Kernel.setPcb, Kernel.pcb, hb]
  · simp [Kernel.setPcb, Kernel.pcb, hb]

@[simp] theorem next_setPcb : (k.setPcb a p).next = k.next := by
  funext b
  by_cases hb : b = a
  · simp [Kernel.setPcb, Kernel.next, hb]
  · simp [Kernel.setPcb, Kernel.next, hb]

@[simp] theorem pcb_setNext : (k.setNext a v).pcb = k.pcb := by
  funext b
  by_cases hb : b = a
  · simp [Kernel.setNext, Kernel.pcb, hb]
  · simp [Kernel.setNext, Kernel.pcb, hb]

@[simp] theorem next_setNext : (k.setNext a v).next = update k.next a v := by
  funext b
  by_cases hb : b = a
  · simp [Kernel.setNext, Kernel.next, hb]
  · simp [Kernel.setNext, Kernel.next, hb]

theorem setNext_self : k.setNext a (k.next a) = k := by
  simp [Kernel.setNext, Kernel.next]

end Access

def SameFields (k k' : Kernel) : Prop := k' = { k with node := k'.node, start := k'.start }

variable {k k' k'' : Kernel} {n m pid : ℕ} {c : Create}

theorem SameFields.trans (h : SameFields k k') (h' : SameFields k' k'') : SameFields k k'' := by
  rw [SameFields] at h h' ⊢
  rw [h', h]

theorem SameFields.field {β : Type} (h : SameFields k k') (f : Kernel → β)
    (hf : ∀ k node start, f { k with node := node, start := start } = f k) : f k' = f k :=
  (congrArg f h).trans (hf k k'.node k'.start)

theorem SameFields.currentProcess (h : SameFields k k') : k'.currentProcess = k.currentProcess :=
  h.field Kernel.currentProcess (fun _ _ _ ↦ rfl)

theorem SameFields.firstProcess (h : SameFields k k') : k'.firstProcess = k.firstProcess :=
  h.field Kernel.firstProcess (fun _ _ _ ↦ rfl)

theorem SameFields.quantum (h : SameFields k k') : k'.quantum = k.quantum :=
  h.field Kernel.quantum (fun _ _ _ ↦ rfl)

theorem SameFields.fgTaken (h : SameFields k k') : k'.fgTaken = k.fgTaken :=
  h.field Kernel.fgTaken (fun _ _ _ ↦ rfl)

theorem SameFields.dummy (h : SameFields k k') : k'.dummy = k.dummy :=
  h.field Kernel.dummy (fun _ _ _ ↦ rfl)

theorem SameFields.counter (h : SameFields k k') : k'.pid = k.pid :=
  h.field Kernel.pid (fun _ _ _ ↦ rfl)

theorem SameFields.setPcb (k : Kernel) (a : ℕ) (p : Pcb) : SameFields k (k.setPcb a p) := rfl

theorem SameFields.setNext (k : Kernel) (a v : ℕ) : SameFields k (k.setNext a v) := rfl

section Mono

theorem loadProcess_mono (h : n ≤ m) (k : Kernel) (node : ℕ) :
    Extends (loadProcess c pid n k node) (loadProcess c pid m k node) := by
  induction n generalizing m k node with
  | zero => exact extends_none _
  | succ n ih =>
    obtain ⟨m, rfl⟩ : ∃ i, m = i + 1 := ⟨m - 1, by omega⟩
    simp only [loadProcess]
    apply Extends.ite (.refl _)
    exact Extends.ite ((ih (by omega) k _).map _) (.refl _)

theorem createProcess_mono (h : n ≤ m) :
    Extends (createProcess n k c) (createProcess m k c) := by
  simp only [createProcess]
  exact (loadProcess_mono h _ _).map _

theorem deleteProcess_mono (h : n ≤ m) (k : Kernel) (node : ℕ) :
    Extends (deleteProcess pid n k node) (deleteProcess pid m k node) := by
  induction n generalizing m k node with
  | zero => exact extends_none _
  | succ n ih =>
    obtain ⟨m, rfl⟩ : ∃ i, m = i + 1 := ⟨m - 1, by omega⟩
    simp only [deleteProcess]
    apply Extends.ite (.refl _)
    exact Extends.ite (.refl _) ((ih (by omega) k _).map _)

theorem moveProcess_mono (h : n ≤ m) (k : Kernel) (newPriority : ℕ) :
    Extends (moveProcess n k pid newPriority) (moveProcess m k pid newPriority) := by
  refine Extends.bind (extends_seek _ h) (fun b ↦ ?_)
  exact (extends_seek _ h).map _

theorem changeProcessPriority_mono (h : n ≤ m) (newPriority : ℕ) :
    Extends (changeProcessPriority n k pid newPriority)
      (changeProcessPriority m k pid newPriority) := by
  simp only [changeProcessPriority]
  apply Extends.ite (.refl _)
  apply Extends.ite (.refl _)
  refine Extends.bind (extends_seek _ h) (fun a ↦ ?_)
  exact Extends.ite (.refl _) (moveProcess_mono h _ _)

theorem ageLoop_mono (h : n ≤ m) (k : Kernel) (node : ℕ) :
    Extends (ageLoop n k node) (ageLoop m k node) := by
  induction n generalizing m k node with
  | zero => exact extends_none _
  | succ n ih =>
    obtain ⟨m, rfl⟩ : ∃ i, m = i + 1 := ⟨m - 1, by omega⟩
    simp only [ageLoop]
    exact Extends.ite (.refl _) (ih (by omega) _ _)

theorem aging_mono (h : n ≤ m) : Extends (aging n k) (aging m k) := by
  apply Extends.map
  exact Extends.ite ((ageLoop_mono h _ _).map _) (.refl _)

theorem nextLoop_mono (h : n ≤ m) (x a : ℕ) : Extends (nextLoop k n x a) (nextLoop k m x a) := by
  induction n generalizing m x a with
  | zero => exact extends_none _
  | succ n ih =>
    obtain ⟨m, rfl⟩ : ∃ i, m = i + 1 := ⟨m - 1, by omega⟩
    simp only [nextLoop]
    exact Extends.ite (.refl _) (ih (by omega) _ _)

theorem firstLoop_mono (h : n ≤ m) (x a : ℕ) :
    Extends (firstLoop k n x a) (firstLoop k m x a) := by
  induction n generalizing m x a with
  | zero => exact extends_none _
  | succ n ih =>
    obtain ⟨m, rfl⟩ : ∃ i, m = i + 1 := ⟨m - 1, by omega⟩
    simp only [firstLoop]
    exact Extends.ite (.refl _) (ih (by omega) _ _)

theorem switchProcess_mono (h : n ≤ m) (sp : ℕ) :
    Extends (switchProcess n k sp) (switchProcess m k sp) := by
  simp only [switchProcess]
  apply Extends.ite (.refl _)
  apply Extends.ite (.refl _)
  refine (aging_mono h).bind (fun k ↦ ?_)
  refine (nextLoop_mono h _ _).bind (fun a ↦ ?_)
  exact (firstLoop_mono h _ _).map _

end Mono

end ShellOS.Sched.Scheduler
