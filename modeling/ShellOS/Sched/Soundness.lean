import ShellOS.Sched.Selection

namespace ShellOS.Sched.Soundness

open Library.Fuel Library.Links Library.Runs Library.Words Scheduler ProcessList SwitchSpec
open SchedulerRun ListOrder Selection Function

structure SoundSwitch (k : Kernel) (sp : ℕ) (r : Kernel × ℕ) : Prop where
  selected : r.1.currentProcess = k.dummy ∨
    (∃ L, Listed k L ∧ r.1.currentProcess ∈ L) ∧ (k.pcb r.1.currentProcess).pstate = 1
  not_held : ¬ ((k.pcb r.1.currentProcess).pid = 1 ∧ k.fgTaken ≠ 0)
  next : r.1.next = k.next
  pcb : ∀ y, ∃ aux, r.1.pcb y = { k.pcb y with
    auxPriority := aux, sp := if y = k.currentProcess then sp else (k.pcb y).sp }
  fields : r.1 = { k with
    node := r.1.node, currentProcess := r.1.currentProcess, quantum := r.1.quantum
    priorityQuantum := r.1.priorityQuantum }

variable {k k' k₁ : Kernel} {L L' N : List ℕ} {V : Set ℕ} {act : Act} {s sp n : ℕ}
variable {tr : List (Kernel × Act)}

/-- The links from these nodes stay among them and never lead to the head of
the list. -/
structure Enclosed (k : Kernel) (L : List ℕ) (V : Set ℕ) : Prop where
  listed : ∀ y ∈ L, y ∈ V
  dummy : k.dummy ∈ V
  current : k.firstProcess = 0 → k.currentProcess ∈ V
  next : ∀ y ∈ V, k.next y = 0 ∨ k.next y ∈ V ∧ k.next y ≠ k.start

theorem path_enclosed {y : ℕ} (h : Enclosed k L V) (hy : y ∈ V)
    (hN : Path k.next (k.next y) N 0) (h0 : 0 ∉ N) : k.start ∉ N := by
  induction N generalizing y with
  | nil => exact List.not_mem_nil
  | cons z N ih =>
    obtain ⟨rfl, hN⟩ := hN
    have hz : k.next y ∈ V ∧ k.next y ≠ k.start :=
      (h.next y hy).resolve_left (List.ne_of_not_mem_cons h0).symm
    rw [List.mem_cons, not_or]
    exact ⟨hz.2.symm, ih hz.1 hN (List.not_mem_of_not_mem_cons h0)⟩

theorem Enclosed.step (h : Enclosed k L V) (hl : Listed k' L') (hstart : k'.start = k.start)
    (hdummy : k'.dummy = k.dummy) (hnext : ∀ y, y ∉ L' → k'.next y = k.next y)
    (hcurrent : k'.firstProcess = 0 →
      k'.currentProcess ∈ L' ∨ k'.currentProcess = k.dummy ∨
        k.firstProcess = 0 ∧ k'.currentProcess = k.currentProcess) :
    Enclosed k' L' (V ∪ {y | y ∈ L'}) := by
  refine ⟨fun y hy ↦ Or.inr hy, hdummy ▸ Or.inl h.dummy, fun hf ↦ ?_, fun y hy ↦ ?_⟩
  · rcases hcurrent hf with hc | hc | ⟨hf', hc⟩
    · exact Or.inr hc
    · exact hc ▸ Or.inl h.dummy
    · exact hc ▸ Or.inl (h.current hf')
  · by_cases hyL : y ∈ L'
    · have hne := hl.path.next_ne_start hl.nodup hl.not_null hyL
      exact (hl.next_cases hyL).imp id (fun hm ↦ ⟨Or.inr hm.1, hne⟩)
    · have hyV : y ∈ V := hy.resolve_right hyL
      rw [hnext y hyL, hstart]
      exact (h.next y hyV).imp id (fun hm ↦ ⟨Or.inl hm.1, hm.2⟩)

def ShellAhead (k : Kernel) (L : List ℕ) : Prop := ∃ V, Enclosed k L V

theorem effect_start (ho : Ordered k L) (hl : Listed k L) (hok : Allowed k act)
    (he : Effect k k' L act L') (hl' : Listed k' L') : k'.start = k.start := by
  obtain ⟨⟨s, T, rfl, hs, -⟩, -, -⟩ := ho
  have hstart : k.start = s := hl.path.1
  cases he with
  | created => exact hl'.path.1.trans hstart.symm
  | @removed pid hpid hremoved =>
    rw [List.filter_cons_of_pos (by simpa [hs] using hpid.ne)] at hl'
    exact hl'.path.1.trans hstart.symm
  | spared hpid hk => rw [hk]
  | exited hfirst hdummy hremoved =>
    have hne : (k.pcb s).pid ≠ (k.pcb k.currentProcess).pid := fun heq ↦ hok (heq.symm.trans hs)
    rw [List.filter_cons_of_pos (by simpa using hne)] at hl'
    exact hl'.path.1.trans hstart.symm
  | reordered => exact hl'.path.1.trans hstart.symm
  | refused hno hk => rw [hk]
  | state hact hmem hk => rw [hk]; rfl
  | same hact hk => rw [hk]
  | switched hs => exact hs.start

/-- A step changes only links of listed nodes, and `currentProcess` only to a
listed process or the dummy process. -/
theorem effect_links (he : Effect k k' L act L') :
    (∀ y, y ∉ L' → k'.next y = k.next y) ∧ k'.dummy = k.dummy ∧
      (k'.firstProcess = 0 → k'.currentProcess ∈ L' ∨ k'.currentProcess = k.dummy ∨
        k.firstProcess = 0 ∧ k'.currentProcess = k.currentProcess) := by
  have hsame : ∀ {k' : Kernel} {L' : List ℕ}, k'.firstProcess = k.firstProcess →
      k'.currentProcess = k.currentProcess → k'.firstProcess = 0 →
        k'.currentProcess ∈ L' ∨ k'.currentProcess = k.dummy ∨
          k.firstProcess = 0 ∧ k'.currentProcess = k.currentProcess :=
    fun hf hc h0 ↦ Or.inr (Or.inr ⟨hf.symm.trans h0, hc⟩)
  cases he with
  | created hdummy hnew hcounter hc =>
    refine ⟨fun y hy ↦ hc.next y ?_, hc.fields.dummy,
      hsame hc.fields.firstProcess hc.fields.currentProcess⟩
    rw [mem_withNew] at hy
    simpa using hy
  | removed hpid hr =>
    refine ⟨fun y hy ↦ hr.next y ?_, hr.fields.dummy,
      hsame hr.fields.firstProcess hr.fields.currentProcess⟩
    rw [mem_removed] at hy
    tauto
  | exited hfirst hdummy hr =>
    refine ⟨fun y hy ↦ hr.next y ?_, hr.fields.dummy,
      hsame hr.fields.firstProcess hr.fields.currentProcess⟩
    have hy : ¬ (y ∈ L ∧ (k.pcb y).pid ≠ (k.pcb k.currentProcess).pid) :=
      fun h ↦ hy (mem_removed.mpr h)
    exact not_and_or.mp hy |>.imp id not_not.mp
  | @reordered x pid v hx hpid h1 hlo hhi hr =>
    refine ⟨fun y hy ↦ hr.next y ?_, hr.fields.dummy,
      hsame hr.fields.firstProcess hr.fields.currentProcess⟩
    rwa [(moved_perm hx v).mem_iff] at hy
  | spared hpid hk =>
    rw [hk]
    exact ⟨fun _ _ ↦ rfl, rfl, hsame rfl rfl⟩
  | refused hno hk =>
    rw [hk]
    exact ⟨fun _ _ ↦ rfl, rfl, hsame rfl rfl⟩
  | @state _ a v hact hmem hk =>
    rw [hk]
    refine ⟨fun y _ ↦ ?_, rfl, hsame rfl rfl⟩
    rw [setState, next_setPcb]
  | same hact hk =>
    rw [hk]
    exact ⟨fun _ _ ↦ rfl, rfl, hsame rfl rfl⟩
  | switched hs =>
    exact ⟨fun y _ ↦ congrFun hs.next y, hs.dummy, fun _ ↦ hs.current.imp id Or.inl⟩

theorem effect_ahead (h : ShellAhead k L) (ho : Ordered k L) (hl : Linked k L)
    (hok : Allowed k act) (he : Effect k k' L act L') : ShellAhead k' L' := by
  obtain ⟨V, h⟩ := h
  have hl' := (he.linked hl).listed
  obtain ⟨hnext, hdummy, hcurrent⟩ := effect_links he
  exact ⟨_, h.step hl' (effect_start ho hl.listed hok he hl') hdummy hnext hcurrent⟩

theorem started_ahead {b : Boot} (h : Started b k) : ShellAhead k [b.newNode] := by
  have hlast : k.next b.newNode = 0 := h.linked.listed.path.2
  refine ⟨{y | y = b.newNode ∨ y = k.dummy}, fun y hy ↦ Or.inl (List.mem_singleton.mp hy),
    Or.inr rfl, fun hf ↦ absurd hf h.firstProcess, ?_⟩
  rintro y (rfl | rfl)
  · exact Or.inl hlast
  · exact Or.inl h.linked.dummy_next

theorem run_ahead {b : Boot} {k₀ : Kernel} (hmain : main n b = some k₀)
    (hrun : Run Step k₀ tr k) (hok : ∀ e ∈ tr, Allowed e.1 e.2)
    (hcount : creations tr < 2 ^ 32 - 1) : ∃ L, Kept k L tr ∧ ShellAhead k L :=
  run_kept_with hmain hrun hok hcount (started_ahead (main_started hmain))
    (fun hkept hahead hok he ↦ effect_ahead hahead hkept.ordered hkept.linked hok he)

section Select

theorem adjustFirst_not_held {x : ℕ} (h : adjustFirst k x ≠ 0) : ¬ Held k (adjustFirst k x) := by
  simp only [adjustFirst] at h ⊢
  split_ifs at h ⊢ with h₁ h₂ h₃
  · exact absurd rfl h
  · exact fun hheld ↦ h₂ hheld.symm
  · exact absurd rfl h
  · exact fun hheld ↦ h₃ hheld.symm

variable (haged : AfterAging k k₁ L)

include haged

theorem chosen_sound (hN : Behind k L N) (hstart : k.start ∉ N)
    (hshell : ∀ y ∈ L, (k.pcb y).pid = 1 → y = k.start) {a : ℕ}
    (ha : chosen (saveSp k₁ sp) L N = some a) :
    (k.pcb a).pstate = 1 ∧ ¬ ((k.pcb a).pid = 1 ∧ k.fgTaken ≠ 0) := by
  have hready : ∀ y, readyOf (saveSp k₁ sp) y ↔ (k.pcb y).pstate = 1 := by
    intro y
    rw [saved_ready haged, readyOf, decide_eq_true_eq]
  rcases choose_spec (saveSp k₁ sp) (nextResult (saveSp k₁ sp) N)
    (adjustFirst (saveSp k₁ sp) (firstResult (saveSp k₁ sp) L)) with
    ⟨hnone, -⟩ | ⟨b, hb, hgood, hmem, -⟩
  · rw [chosen, hnone] at ha
    cases ha
  rw [chosen, hb, Option.some_inj] at ha
  subst ha
  have hr := (hready b).mp hgood.2
  refine ⟨hr, fun hheld ↦ ?_⟩
  have hheld' : Held (saveSp k₁ sp) b := (saved_held haged sp b).mpr hheld
  rcases hmem with rfl | rfl
  · -- the first search only sees what is behind the current process
    have hpath : Path (saveSp k₁ sp).next ((saveSp k₁ sp).next (saveSp k₁ sp).currentProcess) N 0 := by
      rw [haged.saved_next, haged.saved_current]
      exact hN.path
    rcases next_best hpath with ⟨-, hzero⟩ | hbest
    · exact hgood.1 hzero
    · have hL := hN.live _ hbest.mem hr
      exact hstart (hshell _ hL hheld.1 ▸ hbest.mem)
  · exact adjustFirst_not_held hgood.1 hheld'

theorem saved_pcb (sp y : ℕ) : ∃ aux, (saveSp k₁ sp).pcb y = { k.pcb y with
    auxPriority := aux, sp := if y = k.currentProcess then sp else (k.pcb y).sp } := by
  have hcurrent : k₁.currentProcess = k.currentProcess := by rw [haged.fields]
  rw [saveSp_pcb, hcurrent, haged.pcb]
  by_cases hy : y = k.currentProcess
  · simp only [if_pos hy]
    split <;> exact ⟨_, rfl⟩
  · simp only [if_neg hy]
    split <;> exact ⟨_, rfl⟩

theorem select_sound {b : Option ℕ} (hl : Linked k L)
    (hb : ∀ a, b = some a → a ∈ L ∧ (k.pcb a).pstate = 1 ∧
      ¬ ((k.pcb a).pid = 1 ∧ k.fgTaken ≠ 0)) : SoundSwitch k sp (select (saveSp k₁ sp) b) := by
  have hfields := haged.saved_fields sp
  have hcurrent : (select (saveSp k₁ sp) b).1.currentProcess = b.getD k.dummy := by
    rw [select_current, hfields]
  refine ⟨?_, ?_, select_next.trans (haged.saved_next sp), fun y ↦ ?_, ?_⟩
  · rw [hcurrent]
    cases b with
    | none => exact Or.inl rfl
    | some a => exact Or.inr ⟨⟨L, hl.listed, (hb a rfl).1⟩, (hb a rfl).2.1⟩
  · rw [hcurrent]
    cases b with
    | none =>
      rw [Option.getD_none, hl.dummy_pid]
      exact fun h ↦ Nat.zero_ne_one h.1
    | some a => exact (hb a rfl).2.2
  · obtain ⟨aux, hpcb⟩ := saved_pcb haged sp y
    rw [select_pcb, hpcb]
    split <;> exact ⟨_, rfl⟩
  · have hselect := select_fields (k := saveSp k₁ sp) (b := b)
    rw [hselect, hfields]

end Select

theorem kept_sound {r : Kernel × ℕ} (h : Kept k L tr) (hahead : ShellAhead k L)
    (hfirst : k.firstProcess = 0) (hs : switchProcess n k sp = some r) : SoundSwitch k sp r := by
  obtain ⟨N, k₁, hN, -, haged, hswitch, hmem⟩ := switchProcess_run h.linked h.running hfirst sp
  have hr := eq_of_enough (fun n m h ↦ switchProcess_mono h sp) hs hswitch
  obtain ⟨V, hV⟩ := hahead
  have hstart := path_enclosed hV (hV.current hfirst) hN.path hN.not_null
  have hshell : ∀ y ∈ L, (k.pcb y).pid = 1 → y = k.start := by
    obtain ⟨s, T, rfl, hs, -⟩ := h.ordered.shell
    intro y hy hpid
    rw [h.linked.listed.path.1]
    exact List.inj_on_of_nodup_map h.linked.pids hy List.mem_cons_self (hpid.trans hs.symm)
  rw [hr]
  exact select_sound haged h.linked (fun a ha ↦ ⟨hmem a ha, chosen_sound haged hN hstart hshell ha⟩)

/-- In every run from boot with fewer than `2 ^ 32 - 1` creations every call of
`switchProcess` after the first is sound. -/
theorem switch_sound {b : Boot} {k₀ : Kernel} {r : Kernel × ℕ} (hmain : main n b = some k₀)
    (hrun : Run Step k₀ tr k) (hok : ∀ e ∈ tr, Allowed e.1 e.2)
    (hcount : creations tr < 2 ^ 32 - 1) (hfirst : k.firstProcess = 0) {m : ℕ}
    (hs : switchProcess m k sp = some r) : SoundSwitch k sp r := by
  obtain ⟨L, hkept, hahead⟩ := run_ahead hmain hrun hok hcount
  exact kept_sound hkept hahead hfirst hs

def shellRuns : Kernel := { booted with firstProcess := 0, currentProcess := 2 }

theorem step_shellRuns : Step booted (.switchProcess 7) shellRuns :=
  .switchProcess (n := 1) (r := (shellRuns, (booted.pcb 2).sp)) rfl

theorem switch_sound_killed : ∃ r, switchProcess 8 killed 7 = some r ∧
    SoundSwitch killed 7 r := by
  have hsome : (switchProcess 8 killed 7).isSome := by decide +kernel
  obtain ⟨r, hr⟩ := Option.isSome_iff_exists.mp hsome
  obtain ⟨tr, hrun, -, hok, hcount⟩ := killed_run
  exact ⟨r, hr, switch_sound main_smallBoot hrun hok hcount (by decide +kernel) hr⟩

section Wrap

/-- The shell runs, and of the memory at address 3 and the pid counter only the
values are open. -/
def churned (m : ℕ) (p : ListNode) : Kernel :=
  { shellRuns with node := update shellRuns.node 3 p, pid := m }

def spent (m : ℕ) : ListNode := ⟨{ newPcb (worker 3) m blankNode.process with pstate := 2 }, 0⟩

def withWorker (m : ℕ) (p : ListNode) : Kernel :=
  writeProcess (((churned (u32 (m + 1)) p).setNext 3 0).setNext 2 3) (worker 3) m

theorem create_worker (m : ℕ) (p : ListNode) : createProcess 3 (churned m p) (worker 3) =
    some (withWorker m p, i32 (u32Sub (u32 (m + 1)) 1)) := rfl

theorem withWorker_links (m : ℕ) (p : ListNode) : (withWorker m p).start = 2 ∧
    (withWorker m p).next 2 = 3 ∧ (withWorker m p).next 3 = 0 ∧
    ((withWorker m p).pcb 2).pid = 1 ∧ ((withWorker m p).pcb 3).pid = m :=
  ⟨rfl, rfl, rfl, rfl, rfl⟩

theorem kill_worker {m : ℕ} {p : ListNode} (hp : p.process.args = []) (hm : 1 < m) :
    killPid 3 (withWorker m p) m = some (churned (u32 (m + 1)) (spent m)) := by
  obtain ⟨hstart, h2, h3, hshell, hpid⟩ := withWorker_links m p
  have hne : ((withWorker m p).pcb 2).pid ≠ m := by omega
  rw [killPid, if_pos hm, hstart, deleteProcess, if_neg (by decide), if_neg hne, h2, deleteProcess,
    if_neg (by decide), if_pos hpid, h3, Option.map_some, Option.map_some, Option.some_inj]
  have hpcb : newPcb (worker 3) m p.process = newPcb (worker 3) m blankNode.process := by
    simp only [newPcb, hp]
    rfl
  let k := ((withWorker m p).setPcb 3 { (withWorker m p).pcb 3 with pstate := 2 }).setNext 2 0
  have hnode : k.node = (churned (u32 (m + 1)) (spent m)).node := by
    funext y
    by_cases hy2 : y = 2
    · subst hy2
      rfl
    by_cases hy3 : y = 3
    · subst hy3
      change ListNode.mk { newPcb (worker 3) m p.process with pstate := 2 } 0 = spent m
      rw [hpcb]
      rfl
    · simp [k, withWorker, writeProcess, churned, worker, Kernel.setNext, Kernel.setPcb, hy2, hy3]
  exact congrArg (fun f ↦ { churned (u32 (m + 1)) (spent m) with node := f }) hnode

theorem churn {m : ℕ} {p : ListNode} (hp : p.process.args = []) (hm : 1 < m) :
    ∃ tr, Run Step (churned m p) tr (churned (u32 (m + 1)) (spent m)) ∧
      ∀ e ∈ tr, Allowed e.1 e.2 := by
  have hlisted : Listed (churned m p) [2] := ⟨⟨rfl, rfl⟩, by decide, by decide⟩
  have hcreate : Step (churned m p) (.create (worker 3)) (withWorker m p) := by
    have hdummy : (3 : ℕ) ≠ 1 := by decide
    refine .create (by decide) hdummy (fun L hL ↦ ?_) (create_worker m p)
    rw [hL.unique hlisted]
    decide
  refine ⟨_, .cons hcreate (.one (.killPid (kill_worker hp hm))), fun e he ↦ ?_⟩
  rcases List.mem_cons.mp he with rfl | he
  · change 1 ≤ (worker 3).priority
    decide
  · rw [List.mem_singleton.mp he]
    trivial

theorem churns {j : ℕ} (hj : j + 2 < 2 ^ 32) : ∃ tr p, p.process.args = [] ∧
    Run Step (churned 2 blankNode) tr (churned (j + 2) p) ∧ ∀ e ∈ tr, Allowed e.1 e.2 := by
  induction j with
  | zero => exact ⟨[], blankNode, rfl, .nil _, by simp⟩
  | succ j ih =>
    obtain ⟨tr, p, hp, hrun, hok⟩ := ih (by omega)
    obtain ⟨tr', hrun', hok'⟩ := churn hp (by omega : 1 < j + 2)
    rw [u32_of_lt hj] at hrun'
    refine ⟨tr ++ tr', _, rfl, hrun.trans hrun', fun e he ↦ ?_⟩
    exact (List.mem_append.mp he).elim (hok e) (hok' e)

def wrapped : Kernel := churned 0 (spent (2 ^ 32 - 1))

theorem wrapped_run : ∃ tr, Run Step shellRuns tr wrapped ∧ ∀ e ∈ tr, Allowed e.1 e.2 := by
  have hstart : shellRuns = churned 2 blankNode := by
    have hnode : shellRuns.node = (churned 2 blankNode).node := by
      change shellRuns.node = update shellRuns.node 3 blankNode
      rw [update_eq_self_iff.mpr]
      rfl
    exact congrArg (fun f ↦ { shellRuns with node := f }) hnode
  obtain ⟨tr, p, hp, hrun, hok⟩ := churns (j := 2 ^ 32 - 3) (by decide)
  obtain ⟨tr', hrun', hok'⟩ := churn hp (by decide : 1 < 2 ^ 32 - 3 + 2)
  rw [hstart]
  refine ⟨tr ++ tr', hrun.trans hrun', fun e he ↦ ?_⟩
  exact (List.mem_append.mp he).elim (hok e) (hok' e)

/-- Two workers get the pids 0 and 1, and a foreground process holds the shell
back and blocks, as does the process with pid 0. -/
def impostor : List Act :=
  [.create (worker 4), .create (worker 5), .create ⟨1, [], 0, 0, 6, 0x3000⟩, .switchProcess 7,
    .block, .switchProcess 7, .block]

theorem impostor_isSome : (impostor.foldlM (perform 8) wrapped).isSome := by decide +kernel

def impostorReady : Kernel := (impostor.foldlM (perform 8) wrapped).get impostor_isSome

theorem impostor_call : impostorReady.firstProcess = 0 ∧
    ((switchProcess 8 impostorReady 7).map fun r ↦ r.1.currentProcess) = some 5 ∧
    (impostorReady.pcb 5).pid = 1 ∧ impostorReady.fgTaken ≠ 0 := by decide +kernel

/-- After `2 ^ 32` creations a second process has pid 1, and is selected while
the shell is held back. -/
theorem second_shell : ¬ ∀ n b k₀ tr k, main n b = some k₀ → Run Step k₀ tr k →
    (∀ e ∈ tr, Allowed e.1 e.2) → k.firstProcess = 0 →
      ∀ sp m r, switchProcess m k sp = some r → SoundSwitch k sp r := by
  intro hall
  obtain ⟨tr, hrun, hok⟩ := wrapped_run
  have hperform : impostor.foldlM (perform 8) wrapped = some impostorReady :=
    (Option.some_get impostor_isSome).symm
  obtain ⟨tr', hrun', hacts⟩ := run_of_foldlM hperform
  have hrun' := hrun'.mono (fun _ _ _ h ↦ step_perform h)
  obtain ⟨hfirst, hcall, hpid, hfg⟩ := impostor_call
  obtain ⟨r, hr, hcurrent⟩ := Option.map_eq_some_iff.mp hcall
  have hallowed : ∀ act ∈ impostor, ∀ k, Allowed k act := by simp [impostor, Allowed, worker]
  refine (hall 1 smallBoot booted _ impostorReady main_smallBoot
    (.cons step_shellRuns (hrun.trans hrun')) (fun e he ↦ ?_) hfirst 7 8 r hr).not_held ?_
  · rcases List.mem_cons.mp he with rfl | he
    · trivial
    rcases List.mem_append.mp he with he | he
    · exact hok e he
    · exact hallowed e.2 (hacts ▸ List.mem_map_of_mem he) e.1
  · rw [hcurrent]
    exact ⟨hpid, hfg⟩

end Wrap

end ShellOS.Sched.Soundness
