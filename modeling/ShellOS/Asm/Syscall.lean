import ShellOS.Asm.Processor
import ShellOS.Library.Words

namespace ShellOS.Asm.Syscall

open Library.Bytes Library.Words Processor Cpu

/-- The calls of the kernel that `syscallDispatcher` makes. A pointer is a word,
an `int` an integer. -/
inductive Call
  | read (buf : Word) (limit : ℤ)
  | write (buf count : Word)
  | inforeg (registers : Word)
  | printmem (pos : Word)
  | getDateTime (time : Word)
  | clearScreen
  | alloc (memoryToAllocate : BitVec 32)
  | free (memoryToFree : Word)
  | memStatus (status : Word)
  | createProcessWrapper (ip : Word) (priority : BitVec 8) (argc : BitVec 32)
      (argv customStdin customStdout : Word)
  | exit
  | printProcess
  | killProcess (pid : BitVec 32)
  | changePriority (pid : BitVec 32) (newPriority : BitVec 8)
  | changeState (pid : BitVec 32)
  | semOpen (id : BitVec 32) (value : ℤ)
  | semClose (sem : Word)
  | semWait (sem : Word)
  | semPost (sem : Word)
  | printSemaphores
  | createPipe (f0 f1 : Word)
  | createFdPipe
  | closeFdPipe (fd : Word)
  | pipeWrite (fd string : Word)
  | pipeRead (fd buffer : Word) (limit : ℤ)
  | openPipeId (fd : Word) (id : BitVec 32) (reader : BitVec 8)
  | printPipes
  | runScheduler
  | getCurrentPid
  | sleep (seconds : BitVec 32)
deriving DecidableEq

def toInt (arg : Word) : ℤ := (arg.setWidth 32).toInt

/-- The default case makes no call. -/
def syscallDispatcher (sysNum : ℤ) (arg0 arg1 arg2 arg3 arg4 arg5 : Word) : Option Call :=
  match sysNum with
  | 0 => some (.read arg0 (toInt arg1))
  | 1 => some (.write arg0 arg1)
  | 10 => some (.inforeg arg0)
  | 11 => some (.printmem arg0)
  | 12 => some (.getDateTime arg0)
  | 13 => some .clearScreen
  | 14 => some (.alloc (arg0.setWidth 32))
  | 15 => some (.free arg0)
  | 16 => some (.memStatus arg0)
  | 17 =>
    some (.createProcessWrapper arg0 (arg1.setWidth 8) (arg2.setWidth 32) arg3 arg4 arg5)
  | 18 => some .exit
  | 19 => some .printProcess
  | 20 => some (.killProcess (arg0.setWidth 32))
  | 21 => some (.changePriority (arg0.setWidth 32) (arg1.setWidth 8))
  | 22 => some (.changeState (arg0.setWidth 32))
  | 23 => some (.semOpen (arg0.setWidth 32) (toInt arg1))
  | 24 => some (.semClose arg0)
  | 25 => some (.semWait arg0)
  | 26 => some (.semPost arg0)
  | 27 => some .printSemaphores
  | 28 => some (.createPipe arg0 arg1)
  | 29 => some .createFdPipe
  | 30 => some (.closeFdPipe arg0)
  | 31 => some (.pipeWrite arg0 arg1)
  | 32 => some (.pipeRead arg0 arg2 0)
  | 33 => some (.openPipeId arg0 (arg1.setWidth 32) (arg2.setWidth 8))
  | 34 => some .printPipes
  | 35 => some .runScheduler
  | 36 => some .getCurrentPid
  | 37 => some (.sleep (arg0.setWidth 32))
  | _ => none

/-- The registers in the order of this handler's `pushState`, which leaves `rax`
to the result. -/
def saved (r : Registers) : List Word :=
  [r.rbx, r.rcx, r.rdx, r.rbp, r.rdi, r.rsi, r.r8, r.r9, r.r10, r.r11, r.r12, r.r13, r.r14, r.r15]

/-- `push rdi; mov rdi, rax; call loadSysNum; pop rdi`, with the number that is
loaded. -/
def loadSysNum (c : Cpu) : ℤ × Cpu :=
  let c := c.push c.reg.rdi
  let c := { c with reg := { c.reg with rdi := c.reg.rax } }
  let sysNum := toInt c.reg.rdi
  let (rdi, c) := c.pop
  (sysNum, { c with reg := { c.reg with rdi := rdi } })

def dispatch (sysNum : ℤ) (r : Registers) : Option Call :=
  syscallDispatcher sysNum r.rdi r.rsi r.rdx r.rcx r.r8 r.r9

def syscallHandler (c : Cpu) : Option Call :=
  let loaded := loadSysNum (c.cli.pushes (saved c.reg))
  dispatch loaded.1 loaded.2.reg

/-- A function of the user library: `mov rax, n; int 80h`. -/
def sys (n : ℕ) (handler : Word) (c : Cpu) : Option Call :=
  syscallHandler
    (({ c with reg := { c.reg with rax := BitVec.ofNat 64 n } } : Cpu).interrupt handler)

variable {c : Cpu} {handler : Word} {n : ℕ}

theorem push_pop (c : Cpu) (v : Word) : (c.push v).pop = (v, { c.push v with rsp := c.rsp }) := by
  have hrsp : c.rsp - 8 + 8 = c.rsp := by bv_omega
  unfold pop
  change (load (store c.mem 8 (c.rsp - 8) v) 8 (c.rsp - 8), _) = _
  rw [load_store (by decide)]
  change (v, ({ c.push v with rsp := c.rsp - 8 + 8 } : Cpu)) = _
  rw [hrsp]

theorem loadSysNum_eq (c : Cpu) :
    (loadSysNum c).1 = toInt c.reg.rax ∧ (loadSysNum c).2.reg = c.reg := by
  have hpop := push_pop c c.reg.rdi
  have hload : load (c.push c.reg.rdi).mem 8 (c.push c.reg.rdi).rsp = c.reg.rdi :=
    congrArg Prod.fst hpop
  unfold loadSysNum pop
  refine ⟨rfl, ?_⟩
  change ({ c.reg with rdi := load (c.push c.reg.rdi).mem 8 (c.push c.reg.rdi).rsp } :
    Registers) = _
  rw [hload]

theorem pushes_reg (c : Cpu) (vs : List Word) : (c.pushes vs).reg = c.reg := by
  rw [pushes_eq]

theorem toInt_ofNat (hn : n < 2 ^ 31) : toInt (BitVec.ofNat 64 n) = n := by
  unfold toInt
  rw [BitVec.toInt_eq_toNat_of_lt] <;> rw [BitVec.toNat_setWidth, BitVec.toNat_ofNat] <;> omega

theorem syscallHandler_eq (c : Cpu) : syscallHandler c = dispatch (toInt c.reg.rax) c.reg := by
  obtain ⟨hnum, hkept⟩ := loadSysNum_eq (c.cli.pushes (saved c.reg))
  have hreg : (c.cli.pushes (saved c.reg)).reg = c.reg := pushes_reg c.cli _
  rw [hreg] at hnum hkept
  rw [syscallHandler, hnum, hkept]

theorem sys_eq (handler : Word) (c : Cpu) (hn : n < 2 ^ 31) :
    sys n handler c = dispatch n c.reg := by
  rw [sys, syscallHandler_eq]
  have hreg : (({ c with reg := { c.reg with rax := BitVec.ofNat 64 n } } : Cpu).interrupt
      handler).reg = { c.reg with rax := BitVec.ofNat 64 n } := pushes_reg _ _
  rw [hreg, toInt_ofNat hn]
  rfl

end ShellOS.Asm.Syscall
