import ShellOS.Sched.ListOrder

namespace ShellOS.Sched.Context

open Library.Fuel Library.Runs Scheduler ProcessList SwitchSpec SchedulerRun ListOrder Function

/-- What an observer of the processor knows: the pid of the process whose code
runs, the stack pointer with which every other process has to go on, and the
pids of the live processes. -/
structure Contexts where
  running : Option ℕ
  saved : ℕ → ℕ
  live : List ℕ

def atBoot (b : Boot) : Contexts where
  running := none
  saved p := if p = 0 then initProcess (b.dummyMemory + 2048)
    else initProcess (b.processMemory + defaultProgramSize)
  live := [1]

/-- A new process starts with the stack that `initProcess` built. A call of
`switchProcess` is handed the stack pointer of the process that runs. -/
def note (g : Contexts) (k : Kernel) (act : Act) (k' : Kernel) : Contexts where
  running := match act with
    | .switchProcess _ => some (k'.pcb k'.currentProcess).pid
    | _ => g.running
  saved := match act with
    | .create c => update g.saved k.pid (initProcess (c.processMemory + defaultProgramSize))
    | .switchProcess sp => g.running.elim g.saved fun p ↦ update g.saved p sp
    | _ => g.saved
  live := liveStep g.live (k, act)

/-- Whatever call of `switchProcess` is made next returns the stack pointer of
the process it selects, which is the dummy process or a live one. -/
def Intact (s : Kernel × Contexts) : Prop :=
  ∀ sp n r, switchProcess n s.1 sp = some r →
    r.2 = (note s.2 s.1 (.switchProcess sp) r.1).saved (r.1.pcb r.1.currentProcess).pid ∧
      ((r.1.pcb r.1.currentProcess).pid = 0 ∨ (r.1.pcb r.1.currentProcess).pid ∈ s.2.live)

/-- A new process does not get the node that `currentProcess` points to. -/
def OwnNode (k : Kernel) : Act → Prop
  | .create c => c.newNode ≠ k.currentProcess
  | _ => True

variable {k k' k₁ : Kernel} {L L' : List ℕ} {act : Act} {g : Contexts} {sp n : ℕ} {c : Create}

theorem ownNode_of_routine (h : Routine k act) : OwnNode k act := by
  cases act with
  | create c => exact h.2.2
  | _ => exact trivial

section StackPointers

theorem aging_sp (h : AfterAging k k₁ L) (y : ℕ) : (k₁.pcb y).sp = (k.pcb y).sp := by
  rw [h.pcb]
  split <;> rfl

theorem select_sp (k : Kernel) (b : Option ℕ) :
    (select k b).2 = ((select k b).1.pcb (select k b).1.currentProcess).sp ∧
      ∀ y, ((select k b).1.pcb y).sp = (k.pcb y).sp := by
  have hsame : ∀ y, ((select k b).1.pcb y).sp = (k.pcb y).sp := by
    intro y
    rw [select_pcb]
    split <;> rfl
  refine ⟨?_, hsame⟩
  rw [hsame, select_current]
  cases b <;> rfl

theorem switchProcess_sp {r : Kernel × ℕ} (hl : Linked k L) (hr : Running k L)
    (hs : switchProcess n k sp = some r) : r.2 = (r.1.pcb r.1.currentProcess).sp ∧
      ∀ y, (r.1.pcb y).sp =
        if k.firstProcess = 0 ∧ y = k.currentProcess then sp else (k.pcb y).sp := by
  by_cases hfirst : k.firstProcess = 0
  · obtain ⟨N, k₁, hN, haging, haged, hswitch, -⟩ := switchProcess_run hl hr hfirst sp
    have hr' := eq_of_enough (fun n m h ↦ switchProcess_mono h sp) hs hswitch
    subst hr'
    have hcurrent : k₁.currentProcess = k.currentProcess := by rw [haged.fields]
    obtain ⟨hret, hsame⟩ := select_sp (saveSp k₁ sp) (chosen (saveSp k₁ sp) L N)
    refine ⟨hret, fun y ↦ ?_⟩
    rw [hsame, saveSp_pcb, hcurrent]
    by_cases hy : y = k.currentProcess
    · rw [if_pos hy, if_pos ⟨hfirst, hy⟩]
    · rw [if_neg hy, if_neg (fun h ↦ hy h.2), aging_sp haged]
  · rw [switchProcess, if_pos hfirst, Option.some_inj] at hs
    subst hs
    refine ⟨rfl, fun y ↦ ?_⟩
    rw [if_neg (fun h ↦ hfirst h.1)]
    rfl

theorem pid_ne {y : ℕ} (hl : Linked k L) (hr : Running k L) (hfirst : k.firstProcess = 0)
    (hy : y ∈ L ∨ y = k.dummy) (hne : y ≠ k.currentProcess) :
    (k.pcb y).pid ≠ (k.pcb k.currentProcess).pid := by
  cases hr with
  | boot hf => exact absurd hfirst hf
  | listed _ hc =>
    rcases hy with hy | rfl
    · exact fun heq ↦ hne (List.inj_on_of_nodup_map hl.pids hy hc heq)
    · have hpos := hl.pid_pos _ hc
      rw [hl.dummy_pid]
      omega
  | gone _ hc hout hpids =>
    rcases hy with hy | rfl
    · exact hpids y hy
    · have hpos := (hout.resolve_left hne.symm).2.1
      rw [hl.dummy_pid]
      omega

end StackPointers

/-- The notes `g` are right: only of the process that runs is the stack pointer
in its pcb out of date. -/
structure Tracked (k : Kernel) (L : List ℕ) (g : Contexts) : Prop where
  linked : Linked k L
  running : Running k L
  live : (L.map fun y ↦ (k.pcb y).pid).Perm g.live
  onCpu : g.running = if k.firstProcess = 0 then some (k.pcb k.currentProcess).pid else none
  sp : ∀ y, y ∈ L ∨ y = k.dummy → g.running ≠ some (k.pcb y).pid →
    (k.pcb y).sp = g.saved (k.pcb y).pid

theorem Tracked.saved {r : Kernel × ℕ} (h : Tracked k L g) (hs : switchProcess n k sp = some r)
    {y : ℕ} (hy : y ∈ L ∨ y = k.dummy) :
    (r.1.pcb y).sp = (note g k (.switchProcess sp) r.1).saved (k.pcb y).pid := by
  rw [(switchProcess_sp h.linked h.running hs).2]
  have hsp := h.sp y hy
  rw [h.onCpu] at hsp
  simp only [note, h.onCpu]
  by_cases hfirst : k.firstProcess = 0
  · rw [if_pos hfirst] at hsp ⊢
    rw [Option.elim_some]
    by_cases hyc : y = k.currentProcess
    · rw [if_pos ⟨hfirst, hyc⟩, hyc, update_self]
    · have hne := pid_ne h.linked h.running hfirst hy hyc
      rw [if_neg (fun h ↦ hyc h.2), update_of_ne hne]
      exact hsp (fun heq ↦ hne (Option.some.inj heq).symm)
  · rw [if_neg hfirst] at hsp ⊢
    rw [if_neg (fun h ↦ hfirst h.1), Option.elim_none]
    exact hsp nofun

theorem Tracked.intact (h : Tracked k L g) : Intact (k, g) := by
  intro sp n r hs
  have hs : switchProcess n k sp = some r := hs
  have hswitched := switchProcess_switched h.linked h.running hs
  have hret := (switchProcess_sp h.linked h.running hs).1
  rw [hswitched.pid_eq]
  refine ⟨hret.trans (h.saved hs hswitched.current), ?_⟩
  rcases hswitched.current with hmem | hdummy
  · exact Or.inr (h.live.mem_iff.mp (List.mem_map.mpr ⟨_, hmem, rfl⟩))
  · rw [hdummy]
    exact Or.inl h.linked.dummy_pid

theorem Tracked.switched {r : Kernel × ℕ} (h : Tracked k L g)
    (hs : switchProcess n k sp = some r) :
    Tracked r.1 L (note g k (.switchProcess sp) r.1) := by
  have hswitched := switchProcess_switched h.linked h.running hs
  refine ⟨h.linked.switched hswitched, .switched h.linked hswitched, ?_, ?_, fun y hy _ ↦ ?_⟩
  · rw [List.map_congr_left (fun y _ ↦ hswitched.pid_eq y)]
    exact h.live
  · rw [if_pos hswitched.firstProcess]
    rfl
  · rw [hswitched.dummy] at hy
    rw [hswitched.pid_eq]
    exact h.saved hs hy

structure Quiet (k k' : Kernel) (L L' : List ℕ) : Prop where
  pid : ∀ y, (k'.pcb y).pid = (k.pcb y).pid
  sp : ∀ y, (k'.pcb y).sp = (k.pcb y).sp
  currentProcess : k'.currentProcess = k.currentProcess
  firstProcess : k'.firstProcess = k.firstProcess
  dummy : k'.dummy = k.dummy
  mem : ∀ y ∈ L', y ∈ L

theorem Quiet.refl (k : Kernel) (L : List ℕ) : Quiet k k L L :=
  ⟨fun _ ↦ rfl, fun _ ↦ rfl, rfl, rfl, rfl, fun _ ↦ id⟩

theorem quiet_removed {pid : ℕ} (hr : Removed k k' L pid) :
    Quiet k k' L (L.filter fun y ↦ (k.pcb y).pid ≠ pid) := by
  refine ⟨hr.pid_eq, fun y ↦ ?_, hr.fields.currentProcess, hr.fields.firstProcess,
    hr.fields.dummy, fun y ↦ List.mem_of_mem_filter⟩
  rw [hr.pcb]
  split <;> rfl

theorem quiet_reordered {x v : ℕ} (hx : x ∈ L.tail) (hr : Reordered k k' L x v) :
    Quiet k k' L (moved k x v L) := by
  refine ⟨reordered_pid hr, fun y ↦ ?_, hr.fields.currentProcess, hr.fields.firstProcess,
    hr.fields.dummy, fun y ↦ (moved_perm hx v).mem_iff.mp⟩
  rw [hr.pcb, update_apply]
  split
  · rename_i h
    rw [h]
  · rfl

theorem quiet_setState (k : Kernel) (L : List ℕ) (a v : ℕ) : Quiet k (setState k a v) L L := by
  refine ⟨fun y ↦ setState_pid y v, fun y ↦ ?_, rfl, rfl, rfl, fun _ ↦ id⟩
  rw [setState_pcb]
  split
  · rename_i h
    rw [h]
  · rfl

theorem Tracked.quiet (h : Tracked k L g) (hkept : Linked k' L' ∧ Running k' L')
    (hq : Quiet k k' L L') (hrunning : (note g k act k').running = g.running)
    (hsaved : (note g k act k').saved = g.saved)
    (hlive : (L'.map fun y ↦ (k'.pcb y).pid).Perm (note g k act k').live) :
    Tracked k' L' (note g k act k') := by
  refine ⟨hkept.1, hkept.2, hlive, ?_, fun y hy hne ↦ ?_⟩
  · rw [hrunning, h.onCpu, hq.firstProcess, hq.currentProcess, hq.pid]
  · rw [hrunning, hq.pid] at hne
    rw [hq.dummy] at hy
    rw [hsaved, hq.pid, hq.sp]
    exact h.sp y (hy.imp (hq.mem y) id) hne

theorem Tracked.created (h : Tracked k L g) (hdummy : c.newNode ≠ k.dummy) (hnew : c.newNode ∉ L)
    (hcounter : k.pid ≠ 0) (hown : c.newNode ≠ k.currentProcess) (hc : Created k k' c L)
    (hlive : ((withNew k c L).map fun y ↦ (k'.pcb y).pid).Perm (note g k (.create c) k').live) :
    Tracked k' (withNew k c L) (note g k (.create c) k') := by
  have hcurrent : k'.currentProcess = k.currentProcess := hc.fields.currentProcess
  have hfirst : k'.firstProcess = k.firstProcess := hc.fields.firstProcess
  have hdummy' : k'.dummy = k.dummy := hc.fields.dummy
  have hold : ∀ y, y ≠ c.newNode → k'.pcb y = k.pcb y := fun y hy ↦ by
    rw [hc.pcb, update_of_ne hy]
  refine ⟨h.linked.created hc hnew hdummy hcounter, h.running.created hc h.linked hnew hcounter,
    hlive, ?_, fun y hy hne ↦ ?_⟩
  · rw [hcurrent, hfirst, hold _ hown.symm]
    exact h.onCpu
  · rw [hdummy', mem_withNew, or_assoc] at hy
    simp only [note] at hne ⊢
    by_cases hyn : y = c.newNode
    · have hpcb : k'.pcb y = newPcb c k.pid (k.pcb c.newNode) := by
        rw [hyn, hc.pcb, update_self]
      rw [hpcb]
      change initProcess (c.processMemory + defaultProgramSize) = update g.saved k.pid _ k.pid
      rw [update_self]
    · have hy := hy.resolve_left hyn
      have hpid : (k.pcb y).pid ≠ k.pid := by
        rcases hy with hy | rfl
        · exact (h.linked.pid_lt hcounter y hy).ne
        · rw [h.linked.dummy_pid]
          exact hcounter.symm
      rw [hold y hyn] at hne ⊢
      rw [update_of_ne hpid]
      exact h.sp y hy hne

theorem Tracked.step (h : Tracked k L g) (hok : Regular k act) (hown : OwnNode k act)
    (hs : Step k act k') : ∃ L', Tracked k' L' (note g k act k') := by
  obtain ⟨L', he⟩ := step_effect h.linked h.running hs hok
  have hlive := effect_live h.live he
  have hkept := And.intro (he.linked h.linked) (he.running h.linked h.running)
  refine ⟨L', ?_⟩
  cases he with
  | created hdummy hnew hcounter hc => exact h.created hdummy hnew hcounter hown hc hlive
  | removed hpid hremoved => exact h.quiet hkept (quiet_removed hremoved) rfl rfl hlive
  | spared hpid hk => exact h.quiet hkept (hk ▸ .refl k L) rfl rfl hlive
  | exited hfirst hdummy hremoved =>
    have hq := quiet_removed (k := exitFlag k) hremoved
    exact h.quiet hkept ⟨hq.pid, hq.sp, hq.currentProcess, hq.firstProcess, hq.dummy, hq.mem⟩
      rfl rfl hlive
  | reordered hx hpid h1 hlo hhi hreordered =>
    exact h.quiet hkept (quiet_reordered hx hreordered) rfl rfl hlive
  | refused hno hk => exact h.quiet hkept (hk ▸ .refl k L) rfl rfl hlive
  | @state act a v hact hmem hk =>
    have hq : Quiet k k' L L := hk ▸ quiet_setState k L a v
    cases act <;> first | exact h.quiet hkept hq rfl rfl hlive | cases hact
  | @same act hact hk =>
    have hq : Quiet k k' L L := hk ▸ .refl k L
    cases act <;> first | exact h.quiet hkept hq rfl rfl hlive | cases hact
  | switched =>
    cases hs with
    | switchProcess hcall => exact h.switched hcall

theorem started_tracked {b : Boot} (h : Started b k) : Tracked k [b.newNode] (atBoot b) := by
  refine ⟨h.linked, h.running, ?_, ?_, fun y hy _ ↦ ?_⟩
  · rw [List.map_singleton, h.shell.1]
    exact .refl _
  · rw [if_neg h.firstProcess]
    rfl
  · rcases hy with hy | rfl
    · rw [List.mem_singleton.mp hy, h.shell.1]
      exact h.shell_sp
    · rw [h.linked.dummy_pid]
      exact h.dummy_sp

/-- In a run in which no new process gets the node of the current one, every
call of `switchProcess` returns the stack pointer that belongs to the process
it selects, and that process was not killed and did not exit. -/
theorem context_integrity {b : Boot} {k₀ : Kernel} {s : Kernel × Contexts}
    {tr : List ((Kernel × Contexts) × Act)} (hmain : main n b = some k₀)
    (hrun : Run (Noted Step note) (k₀, atBoot b) tr s)
    (hok : ∀ e ∈ tr, Regular e.1.1 e.2 ∧ OwnNode e.1.1 e.2) : Intact s := by
  let I := fun s : Kernel × Contexts ↦ ∃ L, Tracked s.1 L s.2
  let ok := fun (s : Kernel × Contexts) act ↦ Regular s.1 act ∧ OwnNode s.1 act
  have hI : ∀ s act t, I s → ok s act → Noted Step note s act t → I t := by
    intro s act t h hok hs
    obtain ⟨L, h⟩ := h
    obtain ⟨L', h'⟩ := h.step hok.1 hok.2 hs.1
    exact ⟨L', hs.2 ▸ h'⟩
  obtain ⟨L, h⟩ := hrun.invariant_of hI hok ⟨_, started_tracked (main_started hmain)⟩
  exact h.intact

def performNoted (s : Kernel × Contexts) (act : Act) : Option (Kernel × Contexts) :=
  (perform 8 s.1 act).map fun k ↦ (k, note s.2 s.1 act k)

def nodeAgain : List Act :=
  [.switchProcess 0x7000, .create editor, .switchProcess 0x7100, .killPid 2,
    .create { editor with processMemory := 0x5000 }, .switchProcess 0x7200]

theorem context_integrity_node_again : ∃ tr s,
    Run (Noted Step note) (booted, atBoot smallBoot) tr s ∧ tr.map Prod.snd = nodeAgain ∧
      s.2.live = [3, 1] ∧ Intact s := by
  have hend : (nodeAgain.foldlM (fun s act ↦ if Routine s.1 act then performNoted s act else none)
      (booted, atBoot smallBoot)).map (fun s ↦ s.2.live) = some [3, 1] := by decide +kernel
  obtain ⟨s, hs, hlive⟩ := Option.map_eq_some_iff.mp hend
  obtain ⟨tr, hrun, hacts, hroutine⟩ := run_of_checked hs
  have hnoted : Run (Noted Step note) (booted, atBoot smallBoot) tr s := by
    refine hrun.mono fun a act b h ↦ ?_
    obtain ⟨k, hk, rfl⟩ := Option.map_eq_some_iff.mp h
    exact ⟨step_perform hk, rfl⟩
  exact ⟨tr, s, hnoted, hacts, hlive, context_integrity main_smallBoot hnoted fun e he ↦
    ⟨(hroutine e he).regular, ownNode_of_routine (hroutine e he)⟩⟩

def selfKill : List Act :=
  [.create { editor with priority := 1 }, .switchProcess 0x7000, .switchProcess 0x7100, .killPid 2,
    .create { editor with processMemory := 0x5000 }]

theorem selfKill_isSome : (selfKill.foldlM performNoted (booted, atBoot smallBoot)).isSome := by
  decide +kernel

def reused : Kernel × Contexts :=
  (selfKill.foldlM performNoted (booted, atBoot smallBoot)).get selfKill_isSome

theorem reused_call :
    ((switchProcess 8 reused.1 0x3f00).map fun r ↦
      (r.2, (r.1.pcb r.1.currentProcess).pid,
        (note reused.2 reused.1 (.switchProcess 0x3f00) r.1).saved 3)) =
    some (0x3f00, 3, initProcess (0x5000 + defaultProgramSize)) := by
  decide +kernel

/-- The first stack pointer that is returned for the new process is that of the
process that killed itself. -/
theorem dead_process_runs : ¬ ∀ n b k₀ tr s, main n b = some k₀ →
    Run (Noted Step note) (k₀, atBoot b) tr s → Intact s := by
  intro hall
  have hperform : selfKill.foldlM performNoted (booted, atBoot smallBoot) = some reused :=
    (Option.some_get selfKill_isSome).symm
  obtain ⟨tr, hrun, -⟩ := noted_of_perform note (perform 8) (fun _ _ _ ↦ step_perform) hperform
  obtain ⟨r, hr, hcall⟩ := Option.map_eq_some_iff.mp reused_call
  obtain ⟨hret, hcall⟩ := Prod.mk.inj hcall
  obtain ⟨hpid, hsaved⟩ := Prod.mk.inj hcall
  have hintact := (hall 1 smallBoot booted tr reused main_smallBoot hrun 0x3f00 8 r hr).1
  rw [hpid, hret, hsaved] at hintact
  exact absurd hintact (by decide)

end ShellOS.Sched.Context
