import ShellOS.Asm.InitProcess
import ShellOS.Sched.SchedulerRun
import ShellOS.Userland.Packing

namespace ShellOS.System.ProcessArgs

open Library.Bytes Library.Links Library.Words Asm.Processor Asm.Syscall Asm.InitProcess
open Sched.Scheduler Sched.ProcessList
open Userland.Strings Userland.CommandLine Userland.Shell Function
open Userland.Packing hiding createProcess
open Ipc.PipeConsole (Buffer Text)

/-- The loop of `createProcessWrapper` over so many strings, into the rows of
its `args` from `args[i]` on. -/
def unpackLoop (argv : Buffer) : ℕ → ℕ → Args → ℕ → Option Args
  | 0, _, args, _ => some args
  | n + 1, i, args, j =>
    (copyRow (fun args ↦ storeArg args i) argv args j 0).bind fun r ↦
      unpackLoop argv n (i + 1) r.1 (r.2.1 + 1)

/-- The calls of `copyString` in `loadProcess`, one a row. -/
def copyArgs (args : Args) (argc : ℕ) (pcbArgs : Args) : Option Args :=
  copyRows storeArg args argc 0 0 pcbArgs

/-- The string in a row, which is all of the row when no byte of it is NUL. -/
def rowText (args : Args) (i : ℕ) : List UInt8 :=
  ((List.range (maxArgCommandLen + 1)).map (row args i)).takeWhile (· ≠ 0)

/-- What `createProcessWrapper` leaves: the kernel, the bytes of `args` in the
new pcb, and its result. -/
structure Made where
  kernel : Kernel
  pcbArgs : Args
  pid : ℤ

/-- `createProcessWrapper`, with the bytes that its own `args` and those of the
new pcb hold before. -/
def createProcessWrapper (n : ℕ) (k : Kernel) (args pcbArgs : Args) (newNode processMemory : ℕ)
    (priority : BitVec 8) (argc : BitVec 32) (argv : Buffer) (customStdin customStdout : Word) :
    Option Made :=
  (unpackLoop argv argc.toNat 0 args 0).bind fun args ↦
    (copyArgs args argc.toNat pcbArgs).bind fun pcbArgs ↦
      (createProcess n k ⟨priority.toNat, (List.range argc.toNat).map (rowText args),
        customStdin.toNat, customStdout.toNat, newNode, processMemory⟩).map fun r ↦
          ⟨r.1, pcbArgs, r.2⟩

structure Enters (c : Cpu) (newNode processMemory : ℕ) (ip : Word) (argc : BitVec 32) : Prop where
  stackBase : c.reg.rdi = BitVec.ofNat 64 (processMemory + defaultProgramSize)
  ip : c.reg.rsi = ip
  argc : c.reg.rdx.setWidth 32 = argc
  argv : c.reg.rcx = BitVec.ofNat 64 newNode

variable {args args' argv : Args} {ws toks : List (List UInt8)} {w : List UInt8} {k k' : Kernel}
  {L : List ℕ} {i j n : ℕ}

section Rows

theorem storeArg_row (i : ℕ) (hi : i < 6) (args : Args) (k : ℕ) (c : UInt8) (hk : k ≤ 20) :
    storeArg args i k c = some (update args (21 * i + k) c) :=
  storeArg_eq (Nat.le_of_lt_succ hi) hk args c

theorem unpackLoop_spec (hpacked : Packed argv j ws) (hlen : ∀ w ∈ ws, w.length ≤ 20)
    (hroom : i + ws.length ≤ 6) (args : Args) :
    ∃ args', unpackLoop argv ws.length i args j = some args' ∧ Stored args args' i ws := by
  induction ws generalizing i j args with
  | nil => exact ⟨args, rfl, .nil args i⟩
  | cons w ws ih =>
    obtain ⟨htext, hrest⟩ := hpacked
    obtain ⟨hw, hlen⟩ := List.forall_mem_cons.mp hlen
    rw [List.length_cons] at hroom
    obtain ⟨args₁, hcopy, hfirst, houtside⟩ := copyRow_spec
      (storeArg_row i (by omega)) htext hw (by omega : 0 + w.length ≤ 20) args
    obtain ⟨args', hloop, hstored⟩ := ih hrest hlen (by omega : i + 1 + ws.length ≤ 6) args₁
    refine ⟨args', ?_, .cons hw hfirst (fun o ho ↦ houtside o (by omega)) hstored⟩
    rw [List.length_cons, unpackLoop, hcopy, Option.bind_some, hloop]

theorem rowText_eq (h : Text (row args i) 0 w) (hlen : w.length ≤ 20) : rowText args i = w := by
  obtain ⟨hline, hnul, hne⟩ := text_iff.mp h
  simp only [Nat.zero_add] at hline hnul
  have hsplit : maxArgCommandLen + 1 = w.length + (20 - w.length + 1) := by
    unfold maxArgCommandLen
    omega
  have hword : (List.range w.length).map (row args i) = w := by
    apply List.ext_getElem
    · simp
    · intro n hn hn'
      simp only [List.getElem_map, List.getElem_range]
      exact hline n hn'
  rw [rowText, hsplit, List.range_add, List.map_append, hword,
    List.takeWhile_append_of_pos (by simpa using hne), List.range_succ_eq_map, List.map_cons,
    List.map_cons, List.takeWhile_cons_of_neg (by simpa using hnul), List.append_nil]

def allRows (args : Args) : List (List UInt8) := (List.range (maxArgAmt + 1)).map (rowText args)

theorem rowText_congr (h : ∀ o, 21 * i ≤ o → o < 21 * (i + 1) → args' o = args o) :
    rowText args' i = rowText args i := by
  unfold rowText
  congr 1
  apply List.map_congr_left
  intro o ho
  have ho : o < 21 := List.mem_range.mp ho
  exact h (21 * i + o) (by omega) (by omega)

theorem stored_rowText (h : Stored args args' 0 ws) (hlen : ∀ w ∈ ws, w.length ≤ 20) :
    (List.range ws.length).map (rowText args') = ws := by
  apply List.ext_getElem
  · simp
  · intro n hn hn'
    have hget : ws[n]? = some ws[n] := List.getElem?_eq_getElem hn'
    have hrow := h.row n _ hget
    rw [Nat.zero_add] at hrow
    rw [List.getElem_map, List.getElem_range]
    exact rowText_eq (text_row.mpr hrow) (hlen _ (List.getElem_mem hn'))

theorem stored_newPcb {c : Create} {old : Pcb} {pid : ℕ} (h : Stored args args' 0 ws)
    (hlen : ∀ w ∈ ws, w.length ≤ 20) (hroom : ws.length ≤ 6) (hc : c.args = ws)
    (hold : old.args = allRows args) : (newPcb c pid old).args = allRows args' := by
  have hsplit : maxArgAmt + 1 = ws.length + (6 - ws.length) := by
    unfold maxArgAmt
    omega
  have hrest : ∀ n, rowText args' (ws.length + n) = rowText args (ws.length + n) := by
    intro n
    exact rowText_congr (fun o ho _ ↦ h.outside o (by omega))
  have hrow : (List.range ws.length).map (rowText args') = ws := stored_rowText h hlen
  simp only [newPcb, hc, hold, allRows]
  rw [hsplit, List.range_add, List.map_append, List.map_append, hrow, List.drop_left' (by simp),
    List.map_map, List.map_map]
  congr 1
  apply List.map_congr_left
  intro n _
  exact (hrest n).symm

end Rows

section Load

variable {a : ℕ} {c : Create}

theorem loadProcess_pcb (pid : ℕ) (h : Path k.next a L 0) (h0 : 0 ∉ L) :
    ∃ r, (∀ n, L.length < n → loadProcess c pid n k a = some r) ∧
      r.1.pcb = update k.pcb c.newNode (newPcb c pid (k.pcb c.newNode)) := by
  induction L generalizing a with
  | nil =>
    cases h
    refine ⟨(writeProcess k c pid, c.newNode), fun n hn ↦ ?_, pcb_setPcb _ _ _⟩
    obtain ⟨n, rfl⟩ := exists_succ hn
    rw [loadProcess, if_pos rfl]
  | cons x L ih =>
    obtain ⟨rfl, hrest⟩ := h
    have ha : a ≠ 0 := (List.ne_of_not_mem_cons h0).symm
    obtain ⟨r, hload, hpcb⟩ := ih hrest (List.not_mem_of_not_mem_cons h0)
    by_cases hwalk : k.next a ≠ 0 ∧ (k.pcb (k.next a)).priority ≤ c.priority
    · refine ⟨(r.1.setNext a r.2, a), fun n hn ↦ ?_, by rw [pcb_setNext, hpcb]⟩
      obtain ⟨n, rfl⟩ := exists_succ hn
      rw [loadProcess, if_neg ha, if_pos hwalk, hload n (Nat.lt_of_succ_lt_succ hn),
        Option.map_some]
    · refine ⟨(writeProcess ((k.setNext c.newNode (k.next a)).setNext a c.newNode) c pid, a),
        fun n hn ↦ ?_, ?_⟩
      · obtain ⟨n, rfl⟩ := exists_succ hn
        rw [loadProcess, if_neg ha, if_neg hwalk]
      · simp only [writeProcess, pcb_setPcb, pcb_setNext]

theorem createProcess_pcb (h : Listed k L) (c : Create) :
    ∃ r, (∀ n, L.length < n → createProcess n k c = some r) ∧
      r.1.pcb = update k.pcb c.newNode (newPcb c k.pid (k.pcb c.newNode)) := by
  have hpath : Path (counted k c).next k.start L 0 := h.path
  obtain ⟨r, hload, hpcb⟩ := loadProcess_pcb (c := c) k.pid hpath h.not_null
  refine ⟨({ r.1 with start := r.2 }, i32 (u32Sub r.1.pid 1)), fun n hn ↦ ?_, hpcb⟩
  rw [createProcess_eq, hload n hn, Option.map_some]

end Load

theorem createProcessWrapper_spec (hpacked : Packed argv 0 ws) (hlen : ∀ w ∈ ws, w.length ≤ 20)
    (hroom : ws.length ≤ 6) (hlist : Listed k L) (args pcbArgs : Args) (newNode processMemory : ℕ)
    (priority : BitVec 8) (customStdin customStdout : Word) :
    let c : Create :=
      ⟨priority.toNat, ws, customStdin.toNat, customStdout.toNat, newNode, processMemory⟩
    ∃ made, (∀ n, L.length < n →
        createProcessWrapper n k args pcbArgs newNode processMemory priority
          (BitVec.ofNat 32 ws.length) argv customStdin customStdout = some made) ∧
      Stored pcbArgs made.pcbArgs 0 ws ∧
      made.kernel.pcb = update k.pcb newNode (newPcb c k.pid (k.pcb newNode)) ∧
      (newNode ∉ L → newNode ≠ 0 → (L = [] → k.next newNode = 0) → Created k made.kernel c L) := by
  intro c
  have hargc : (BitVec.ofNat 32 ws.length).toNat = ws.length := by
    rw [BitVec.toNat_ofNat]
    omega
  obtain ⟨args₁, hunpack, hstored⟩ :=
    unpackLoop_spec hpacked hlen (by omega : 0 + ws.length ≤ 6) args
  have hrow : ∀ n w, ws[n]? = some w → Text (row args₁ (0 + n)) 0 w :=
    fun n w hw ↦ text_row.mpr (hstored.row n w hw)
  obtain ⟨pcbArgs₁, hcopy, hstored₁⟩ :=
    copyRows_spec storeArg_row hrow hlen (by omega : 0 + ws.length ≤ 6) pcbArgs
  have htexts : (List.range ws.length).map (rowText args₁) = ws := stored_rowText hstored hlen
  obtain ⟨r, hcreate, hpcb⟩ := createProcess_pcb hlist c
  refine ⟨⟨r.1, pcbArgs₁, r.2⟩, fun n hn ↦ ?_, hstored₁, hpcb, fun hnew hnull hfirst ↦ ?_⟩
  · rw [createProcessWrapper, hargc, hunpack, Option.bind_some, copyArgs, hcopy, Option.bind_some,
      htexts]
    exact congrArg (Option.map _) (hcreate n hn)
  · obtain ⟨r', hcreate', hcreated⟩ := createProcess_spec hlist (c := c) hnew hnull hfirst
    have heq : r = r' := Option.some.inj
      ((hcreate _ (Nat.lt_succ_self _)).symm.trans (hcreate' _ (Nat.lt_succ_self _)))
    rw [heq]
    exact hcreated

theorem enters_rax {d : Cpu} {newNode processMemory : ℕ} {ip : Word} {argc : BitVec 32}
    (h : Enters d newNode processMemory ip argc) :
    (Asm.InitProcess.initProcess d).reg.rax =
      BitVec.ofNat 64 (Sched.Scheduler.initProcess (processMemory + defaultProgramSize)) := by
  have hsize : processMemory + defaultProgramSize = processMemory + 3936 + 160 := rfl
  have htop : Sched.Scheduler.initProcess (processMemory + 3936 + 160) = processMemory + 3936 :=
    Nat.add_sub_cancel _ _
  have hsum : BitVec.ofNat 64 (processMemory + 3936 + 160) =
      BitVec.ofNat 64 (processMemory + 3936) + 160 := BitVec.ofNat_add _ _
  rw [initProcess_rax, h.stackBase, hsize, htop, hsum, BitVec.add_sub_cancel]

/-- What the new process has in its registers when it runs for the first time. -/
theorem Enters.first_run {d cpu : Cpu} {newNode processMemory : ℕ} {ip sp : Word}
    {argc : BitVec 32} (h : Enters d newNode processMemory ip argc)
    (hsp : sp = BitVec.ofNat 64 (Sched.Scheduler.initProcess (processMemory + defaultProgramSize)))
    (hsame : ∀ x ∈ span sp 160, cpu.mem x = (Asm.InitProcess.initProcess d).mem x) :
    (Asm.Yield.resume cpu sp).rip = ip ∧
      (Asm.Yield.resume cpu sp).reg.rdi.setWidth 32 = argc ∧
      (Asm.Yield.resume cpu sp).reg.rsi = BitVec.ofNat 64 newNode := by
  rw [← enters_rax h] at hsp
  subst hsp
  rw [resume_initProcess hsame]
  exact ⟨h.ip, h.argc, h.argv⟩

/-- The arguments of a program, from `createProcess` of the user library to the
pcb and the first run of the new process. -/
theorem process_arguments {sysAlloc : ℕ → Option Block} {block : Block} {customStdin : Word} {m : ℕ}
    (hm : m = argCount toks customStdin) (hargc : 1 ≤ toks.length ∧ toks.length ≤ 6)
    (hlen : ∀ w ∈ toks, w.length ≤ 20) (hrows : Rows argv toks)
    (halloc : sysAlloc (m * 21) = some block) (hlist : Listed k L) (ip customStdout : Word)
    (args pcbArgs : Args) (newNode processMemory : ℕ) :
    let priority := if customStdin = 0 ∧ toks.getLast? ≠ some (bytes "&") then 1 else 3
    ∃ q made,
      Userland.Packing.createProcess sysAlloc ip toks.length argv customStdin customStdout =
        some q ∧
      (∀ o, m * 21 ≤ o → q.packed o = block.bytes o) ∧
      (∀ handler cpu, Passes q cpu.reg → sys 17 handler cpu =
        some (.createProcessWrapper ip (BitVec.ofNat 8 priority) (BitVec.ofNat 32 m) block.address
          customStdin customStdout)) ∧
      (∀ n, L.length < n → createProcessWrapper n k args pcbArgs newNode processMemory
        (BitVec.ofNat 8 priority) (BitVec.ofNat 32 m) q.packed customStdin customStdout =
          some made) ∧
      Rows made.pcbArgs (toks.take m) ∧
      (made.kernel.pcb newNode).args.take m = toks.take m ∧
      (made.kernel.pcb newNode).priority = priority ∧
      ((k.pcb newNode).args = allRows pcbArgs →
        (made.kernel.pcb newNode).args = allRows made.pcbArgs) ∧
      (newNode ∉ L → newNode ≠ 0 → (L = [] → k.next newNode = 0) →
        Created k made.kernel
          ⟨priority, toks.take m, customStdin.toNat, customStdout.toNat, newNode, processMemory⟩ L) ∧
      ∀ d cpu, Enters d newNode processMemory ip (BitVec.ofNat 32 m) →
        (∀ x ∈ span (BitVec.ofNat 64 (made.kernel.pcb newNode).sp) 160,
          cpu.mem x = (Asm.InitProcess.initProcess d).mem x) →
        let first := Asm.Yield.resume cpu (BitVec.ofNat 64 (made.kernel.pcb newNode).sp)
        first.rip = ip ∧ first.reg.rdi.setWidth 32 = BitVec.ofNat 32 m ∧
          first.reg.rsi = BitVec.ofNat 64 newNode := by
  intro priority
  have hle : m ≤ toks.length := hm ▸ argCount_le toks customStdin
  have hlength : (toks.take m).length = m := by rw [List.length_take, Nat.min_eq_left hle]
  have hpriority : (BitVec.ofNat 8 priority).toNat = priority := by
    change (BitVec.ofNat 8 (ite _ 1 3)).toNat = ite _ 1 3
    split <;> rfl
  have htake : ∀ w ∈ toks.take m, w.length ≤ 20 := fun w hw ↦ hlen w (List.mem_of_mem_take hw)
  obtain ⟨packed, hcreate, hpacked, hkept⟩ :=
    Userland.Packing.createProcess_spec hm hrows hargc hlen halloc ip customStdout
  obtain ⟨made, hmade, hstored, hpcb, hcreated⟩ := createProcessWrapper_spec hpacked htake
    (by omega) hlist args pcbArgs newNode processMemory (BitVec.ofNat 8 priority) customStdin
    customStdout
  rw [hlength] at hmade
  rw [hpriority] at hpcb hcreated
  let c : Create :=
    ⟨priority, toks.take m, customStdin.toNat, customStdout.toNat, newNode, processMemory⟩
  have hnew : made.kernel.pcb newNode = newPcb c k.pid (k.pcb newNode) := by rw [hpcb, update_self]
  have hsp : (made.kernel.pcb newNode).sp =
      Sched.Scheduler.initProcess (processMemory + defaultProgramSize) := by
    rw [hnew]
    rfl
  refine ⟨_, made, hcreate, hkept, fun handler cpu h ↦ h.call handler, hmade, .of_stored hstored,
    ?_, ?_, fun hold ↦ ?_, hcreated, fun d cpu henters hsame ↦ ?_⟩
  · rw [hnew]
    exact List.take_left' hlength
  · rw [hnew]
    rfl
  · rw [hnew]
    exact stored_newPcb hstored htake (by omega) rfl hold
  · exact henters.first_run (congrArg (BitVec.ofNat 64) hsp) hsame

def loopInBackground : Args := fun o ↦
  if o < 21 then (bytes "loop").getD o 0 else (bytes "&").getD (o - 21) 0

theorem loop_rows : Rows loopInBackground [bytes "loop", bytes "&"] := by
  intro i w hw
  match i with
  | 0 =>
    obtain rfl : bytes "loop" = w := Option.some.inj hw
    refine text_congr (text_getD (by decide)) (fun o _ ho ↦ ?_)
    have hlen : (bytes "loop").length = 4 := by decide
    have hin : 21 * 0 + o < 21 := by omega
    rw [row, loopInBackground, if_pos hin, Nat.mul_zero, Nat.zero_add]
  | 1 =>
    obtain rfl : bytes "&" = w := Option.some.inj hw
    refine text_congr (text_getD (by decide)) (fun o _ _ ↦ ?_)
    have hout : ¬ 21 * 1 + o < 21 := by omega
    have hsub : 21 * 1 + o - 21 = o := by omega
    rw [row, loopInBackground, if_neg hout, hsub]
  | i + 2 => cases hw

theorem process_arguments_loop : ∃ q made,
    Userland.Packing.createProcess (fun _ ↦ some ⟨0x100000, fun _ ↦ 0⟩) 0x400000 2 loopInBackground
      0 0 = some q ∧
    createProcessWrapper 2 Sched.SchedulerRun.booted (fun _ ↦ 255) (fun _ ↦ 255) 3 0x3000 3 1
      q.packed 0 0 = some made ∧
    Rows made.pcbArgs [bytes "loop"] ∧ (made.kernel.pcb 3).priority = 3 := by
  let sysAlloc : ℕ → Option Block := fun _ ↦ some ⟨0x100000, fun _ ↦ 0⟩
  have halloc : sysAlloc (1 * 21) = some ⟨0x100000, fun _ ↦ 0⟩ := rfl
  have hm : 1 = argCount [bytes "loop", bytes "&"] 0 := by decide
  have hpriority : (if (0 : Word) = 0 ∧ [bytes "loop", bytes "&"].getLast? ≠ some (bytes "&") then 1
      else 3) = 3 := by decide
  obtain ⟨q, made, hq, -, -, hmade, hrows, -, hprio, -⟩ := process_arguments hm (by decide)
    (by decide) loop_rows halloc Sched.SchedulerRun.booted_listed 0x400000 0 (fun _ ↦ 255)
    (fun _ ↦ 255) 3 0x3000
  rw [hpriority] at hmade hprio
  exact ⟨q, made, hq, hmade 2 (by decide), hrows, hprio⟩

end ShellOS.System.ProcessArgs
