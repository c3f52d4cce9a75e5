import ShellOS.Sched.ListOrder

namespace ShellOS.Sched.ProcessTable

open Library.Fuel Library.Links Library.Runs Scheduler ProcessList SchedulerRun Function

inductive State
  | blocked
  | ready
  deriving DecidableEq

namespace State

def pstate : State → ℕ
  | blocked => 0
  | ready => 1

def toggled : State → State
  | blocked => ready
  | ready => blocked

end State

/-- The state of every process that exists, by its pid. -/
abbrev Table := ℕ → Option State

inductive Op
  | create (pid : ℕ)
  | remove (pid : ℕ)
  | toggle (pid : ℕ)
  | put (pid : ℕ) (v : State)
  | skip

namespace Op

def apply (T : Table) : Op → Table
  | create pid => update T pid (some .ready)
  | remove pid => update T pid none
  | toggle pid => update T pid ((T pid).map State.toggled)
  | put pid v => update T pid ((T pid).map fun _ ↦ v)
  | skip => T

def pid : Op → Option ℕ
  | create pid | remove pid | toggle pid | put pid _ => some pid
  | skip => none

theorem apply_other {T : Table} {op : Op} {q : ℕ} (h : op.pid ≠ some q) : op.apply T q = T q := by
  cases op with
  | skip => rfl
  | _ p =>
    have hq : q ≠ p := fun heq ↦ h (congrArg some heq.symm)
    exact update_of_ne hq _ _

theorem apply_absent {T : Table} {op : Op} {q : ℕ} (h : T q = none) (hnew : op ≠ .create q) :
    op.apply T q = none := by
  by_cases hq : op.pid = some q
  · cases op with
    | create p =>
      injection hq with hq
      exact absurd (congrArg Op.create hq) hnew
    | remove p =>
      injection hq with hq
      rw [apply, hq, update_self]
    | toggle p =>
      injection hq with hq
      rw [apply, hq, update_self, h, Option.map_none]
    | put p v =>
      injection hq with hq
      rw [apply, hq, update_self, h, Option.map_none]
    | skip => cases hq
  · rw [apply_other hq, h]

end Op

def shellOnly : Table := update (fun _ ↦ none) 1 (some .ready)

def opOf (k : Kernel) : Act → Op
  | .create _ => .create k.pid
  | .killPid pid => if 1 < pid then .remove pid else .skip
  | .exit => .remove (k.pcb k.currentProcess).pid
  | .changeProcessPriority _ _ => .skip
  | .changeProcessState pid => if 1 < pid then .toggle pid else .skip
  | .block => .put (k.pcb k.currentProcess).pid .blocked
  | .wake process => .put (k.pcb process).pid .ready
  | .switchProcess _ => .skip

inductive TableStep (T : Table) : Op → Table → Prop
  | of {op : Op} : (∀ pid, op = .create pid → T pid = none) → TableStep T op (op.apply T)

structure Shows (k : Kernel) (L : List ℕ) (T : Table) : Prop where
  found : ∀ y ∈ L, ∃ v, T (k.pcb y).pid = some v ∧ (k.pcb y).pstate = v.pstate
  only : ∀ pid, T pid ≠ none → ∃ y ∈ L, (k.pcb y).pid = pid

variable {k k' : Kernel} {L L' : List ℕ} {T : Table} {act : Act} {a pid : ℕ}

namespace Shows

theorem of_same (h : Shows k L T) (hmem : ∀ y, y ∈ L' ↔ y ∈ L)
    (hpid : ∀ y, (k'.pcb y).pid = (k.pcb y).pid)
    (hstate : ∀ y, (k'.pcb y).pstate = (k.pcb y).pstate) : Shows k' L' T := by
  constructor
  · intro y hy
    rw [hpid, hstate]
    exact h.found y ((hmem y).mp hy)
  · intro pid hT
    obtain ⟨y, hy, hyp⟩ := h.only pid hT
    exact ⟨y, (hmem y).mpr hy, (hpid y).trans hyp⟩

theorem apply_none (h : Shows k L T) (hpid : ∀ y ∈ L, (k.pcb y).pid ≠ pid) : T pid = none := by
  by_contra hT
  obtain ⟨y, hy, hyp⟩ := h.only pid hT
  exact hpid y hy hyp

theorem created {c : Create} (h : Shows k L T) (hc : Created k k' c L) (hnew : c.newNode ∉ L)
    (hfresh : ∀ y ∈ L, (k.pcb y).pid ≠ k.pid) :
    Shows k' (withNew k c L) (update T k.pid (some .ready)) := by
  have hnewpcb : k'.pcb c.newNode = newPcb c k.pid (k.pcb c.newNode) := by
    rw [hc.pcb, update_self]
  have hold : ∀ y ∈ L, k'.pcb y = k.pcb y := by
    intro y hy
    rw [hc.pcb, update_of_ne (ne_of_mem_of_not_mem hy hnew)]
  constructor
  · intro y hy
    rcases mem_withNew.mp hy with rfl | hy
    · rw [hnewpcb]
      exact ⟨.ready, update_self .., rfl⟩
    · rw [hold y hy, update_of_ne (hfresh y hy)]
      exact h.found y hy
  · intro pid hT
    by_cases hpid : pid = k.pid
    · refine ⟨c.newNode, mem_withNew.mpr (.inl rfl), ?_⟩
      rw [hnewpcb, hpid]
      rfl
    · rw [update_of_ne hpid] at hT
      obtain ⟨y, hy, hyp⟩ := h.only pid hT
      exact ⟨y, mem_withNew.mpr (.inr hy), by rw [hold y hy, hyp]⟩

theorem removed (h : Shows k L T) (hr : Removed k k' L pid) :
    Shows k' (L.filter fun y ↦ (k.pcb y).pid ≠ pid) (update T pid none) := by
  constructor
  · intro y hy
    obtain ⟨hyL, hyp⟩ := mem_removed.mp hy
    rw [hr.pcb, if_neg (fun hgone ↦ hyp hgone.2), update_of_ne hyp]
    exact h.found y hyL
  · intro q hT
    have hq : q ≠ pid := by
      rintro rfl
      exact hT (update_self ..)
    rw [update_of_ne hq] at hT
    obtain ⟨y, hy, hyq⟩ := h.only q hT
    exact ⟨y, mem_removed.mpr ⟨hy, hyq.trans_ne hq⟩, (hr.pid_eq y).trans hyq⟩

theorem setState (v : State) (h : Shows k L T) (hpids : (L.map fun y ↦ (k.pcb y).pid).Nodup) (ha : a ∈ L) :
    Shows (setState k a v.pstate) L (update T (k.pcb a).pid (some v)) := by
  constructor
  · intro y hy
    by_cases hya : y = a
    · subst hya
      refine ⟨v, ?_, ?_⟩
      · rw [setState_pid, update_self]
      · rw [setState_pcb, if_pos rfl]
    · have hpid : (k.pcb y).pid ≠ (k.pcb a).pid := fun heq ↦
        hya (List.inj_on_of_nodup_map hpids hy ha heq)
      rw [setState_pid, update_of_ne hpid, setState_pcb, if_neg hya]
      exact h.found y hy
  · intro q hT
    simp only [setState_pid]
    by_cases hq : q = (k.pcb a).pid
    · exact ⟨a, ha, hq.symm⟩
    · rw [update_of_ne hq] at hT
      exact h.only q hT

theorem setState_out {v : ℕ} (h : Shows k L T) (ha : a ∉ L) :
    Shows (Scheduler.setState k a v) L T := by
  constructor
  · intro y hy
    rw [setState_pid, setState_pcb, if_neg (ne_of_mem_of_not_mem hy ha)]
    exact h.found y hy
  · intro q hT
    simp only [setState_pid]
    exact h.only q hT

theorem put (v : State) (h : Shows k L T) (hpids : (L.map fun y ↦ (k.pcb y).pid).Nodup) (ha : a ∈ L) :
    Shows (Scheduler.setState k a v.pstate) L (Op.apply T (.put (k.pcb a).pid v)) := by
  obtain ⟨w, hw, -⟩ := h.found a ha
  have hset : Op.apply T (.put (k.pcb a).pid v) = update T (k.pcb a).pid (some v) := by
    rw [Op.apply, hw]
    rfl
  rw [hset]
  exact setState v h hpids ha

end Shows

theorem toggle_step {n : ℕ} (h : Shows k L T) (hl : Linked k L)
    (hcall : changeProcessState n k pid = some k') :
    Shows k' L (Op.apply T (opOf k (.changeProcessState pid))) := by
  by_cases hpid : pid ≤ 1
  · rw [changeProcessState, if_pos hpid, Option.some_inj] at hcall
    rw [opOf, if_neg (by omega)]
    exact hcall ▸ h
  obtain ⟨p, hget, hp⟩ := getPCB_spec hl.listed pid
  rw [changeProcessState, if_neg hpid] at hcall
  obtain ⟨q, hcall, hk⟩ := Option.map_eq_some_iff.mp hcall
  have hq := eq_of_enough (fun n m h ↦ extends_seek _ h) hcall hget
  rw [hq] at hk
  rw [opOf, if_pos (by omega)]
  rcases hp with ⟨hp0, hnone⟩ | ⟨hpL, hpp⟩
  · rw [if_pos hp0] at hk
    have hT : T pid = none := h.apply_none hnone
    have hsame : Op.apply T (.toggle pid) = T := by
      rw [Op.apply, hT, Option.map_none, ← hT, update_eq_self]
    rw [hsame, ← hk]
    exact h
  · have hp0 : p ≠ 0 := ne_of_mem_of_not_mem hpL hl.listed.not_null
    obtain ⟨v, hv, hstate⟩ := h.found p hpL
    rw [if_neg hp0, hstate] at hk
    have htoggle : Op.apply T (.toggle pid) = update T (k.pcb p).pid (some v.toggled) := by
      rw [Op.apply, ← hpp, hv]
      rfl
    rw [htoggle]
    cases v with
    | blocked =>
      rw [if_neg (by decide), if_pos (show State.blocked.pstate = 0 from rfl)] at hk
      exact hk ▸ Shows.setState .ready h hl.pids hpL
    | ready =>
      rw [if_pos (show State.ready.pstate = 1 from rfl)] at hk
      exact hk ▸ Shows.setState .blocked h hl.pids hpL

theorem block_step (h : Shows k L T) (hl : Linked k L) (hr : Running k L)
    (hc : k.currentProcess ≠ 0) :
    Shows (blockCurrentProcess k) L (Op.apply T (opOf k .block)) := by
  cases hr with
  | boot _ hcurrent => exact absurd hcurrent hc
  | listed _ hmem => exact Shows.put .blocked h hl.pids hmem
  | gone _ hout _ hpids =>
    have hT : T (k.pcb k.currentProcess).pid = none := h.apply_none hpids
    have hsame : Op.apply T (opOf k .block) = T := by
      rw [opOf, Op.apply, hT, Option.map_none, ← hT, update_eq_self]
    rw [hsame]
    exact h.setState_out hout

theorem exit_step (h : Shows k L T) (hr : Removed (exitFlag k) k' L (k.pcb k.currentProcess).pid) :
    Shows k' (L.filter fun y ↦ (k.pcb y).pid ≠ (k.pcb k.currentProcess).pid)
      (Op.apply T (opOf k .exit)) := by
  have hflag : Shows (exitFlag k) L T :=
    h.of_same (fun _ ↦ Iff.rfl) (fun _ ↦ rfl) (fun _ ↦ rfl)
  exact hflag.removed hr

theorem state_step (hl : Linked k L) (hr : Running k L) (h : Shows k L T) (hok : Regular k act)
    (hs : Step k act k') (hact : OfState act) : Shows k' L (Op.apply T (opOf k act)) := by
  cases hs with
  | changeProcessState hcall => exact toggle_step h hl hcall
  | block hc hd => exact block_step h hl hr hc
  | wake h0 =>
    obtain ⟨M, hM, hmem⟩ := hok
    exact Shows.put .ready h hl.pids (hl.listed.unique hM ▸ hmem)
  | _ => exact absurd hact id

theorem step_shows (hl : Linked k L) (hr : Running k L) (h : Shows k L T) (hok : Regular k act)
    (hs : Step k act k') (heffect : Effect k k' L act L') :
    Shows k' L' (Op.apply T (opOf k act)) := by
  cases heffect with
  | created hdummy hnew hcounter hc =>
    refine h.created hc hnew (fun y hy ↦ ?_)
    have hlt := hl.pid_lt hcounter y hy
    omega
  | removed hpid hremoved =>
    rw [opOf, if_pos hpid]
    exact h.removed hremoved
  | spared hpid hk =>
    rw [opOf, if_neg (by omega), hk]
    exact h
  | exited hfirst hdummy hremoved => exact exit_step h hremoved
  | @reordered x _ _ hx hpid h1 hlo hhi hreordered =>
    refine h.of_same (fun y ↦ (moved_perm hx _).mem_iff) (reordered_pid hreordered) (fun y ↦ ?_)
    rw [hreordered.pcb]
    by_cases hy : y = x <;> simp [hy]
  | refused hno hk => exact hk ▸ h
  | state hact hmem hk => exact state_step hl hr h hok hs hact
  | same hact hk => exact state_step hl hr h hok hs hact
  | switched hswitched =>
    refine h.of_same (fun _ ↦ Iff.rfl) hswitched.pid_eq (fun y ↦ ?_)
    obtain ⟨aux, sp, hpcb, -⟩ := hswitched.pcb y
    rw [hpcb]

def Tabled (k : Kernel) (T : Table) : Prop := ∃ L, Linked k L ∧ Running k L ∧ Shows k L T

theorem opOf_create (h : opOf k act = .create pid) : (∃ c, act = .create c) ∧ pid = k.pid := by
  cases act with
  | create c =>
    injection h with h
    exact ⟨⟨c, rfl⟩, h.symm⟩
  | killPid pid =>
    simp only [opOf] at h
    split at h <;> cases h
  | changeProcessState pid =>
    simp only [opOf] at h
    split at h <;> cases h
  | _ => cases h

theorem step_tabled (h : Tabled k T) (hok : Regular k act) (hs : Step k act k') :
    ∃ T', TableStep T (opOf k act) T' ∧ Tabled k' T' := by
  obtain ⟨L, hl, hr, hshows⟩ := h
  obtain ⟨L', heffect⟩ := step_effect hl hr hs hok
  refine ⟨_, .of fun pid hpid ↦ ?_, L', heffect.linked hl, heffect.running hl hr,
    step_shows hl hr hshows hok hs heffect⟩
  obtain ⟨⟨c, rfl⟩, rfl⟩ := opOf_create hpid
  refine hshows.apply_none (fun y hy ↦ ?_)
  have hlt := hl.pid_lt hok.1 y hy
  omega

theorem main_created {b : Boot} {n : ℕ} (h : main n b = some k) :
    ∃ c : Create, c.newNode = b.newNode ∧
      Created (initScheduler b.node b.dummyMemory b.dummy) k c [] := by
  let c : Create := ⟨1, [[83, 104, 101, 108, 108]], 0, 0, b.newNode, b.processMemory⟩
  let k₀ := initScheduler b.node b.dummyMemory b.dummy
  have hempty : Listed k₀ [] := ⟨rfl, List.not_mem_nil, List.nodup_nil⟩
  have hunwritten : k₀.next c.newNode = 0 := by
    change (update b.node b.dummy _ b.newNode).next = 0
    rw [update_of_ne b.apart]
    exact b.unwritten
  obtain ⟨r, hcreate, hcreated⟩ := createProcess_spec (c := c) hempty List.not_mem_nil
    b.newNode_ne_null (fun _ ↦ hunwritten)
  obtain ⟨r', hcall, rfl⟩ := Option.map_eq_some_iff.mp h
  have hr := eq_of_enough (fun n m h ↦ createProcess_mono h) hcall hcreate
  exact ⟨c, rfl, hr ▸ hcreated⟩

theorem started_tabled {b : Boot} {n : ℕ} (h : main n b = some k) : Tabled k shellOnly := by
  obtain ⟨c, hc, hcreated⟩ := main_created h
  have hstarted := main_started h
  have hnone : Shows (initScheduler b.node b.dummyMemory b.dummy) [] fun _ ↦ none :=
    ⟨fun y hy ↦ absurd hy List.not_mem_nil, fun _ hT ↦ absurd rfl hT⟩
  have hshows := hnone.created hcreated List.not_mem_nil fun y hy ↦ absurd hy List.not_mem_nil
  have hlist : withNew (initScheduler b.node b.dummyMemory b.dummy) c [] = [b.newNode] := by
    rw [← hc]
    rfl
  exact ⟨_, hstarted.linked, hstarted.running, hlist ▸ hshows⟩

/-- Every run of the scheduler is one of the table, of which it shows the result. -/
theorem processes_refine_table {b : Boot} {n : ℕ} {tr : List (Kernel × Act)}
    (hmain : main n b = some k) (hrun : Run Step k tr k') (hok : ∀ e ∈ tr, Regular e.1 e.2) :
    ∃ trT T L, Run TableStep shellOnly trT T ∧
      trT.map Prod.snd = tr.map (fun e ↦ opOf e.1 e.2) ∧ Listed k' L ∧ Shows k' L T := by
  obtain ⟨trT, T, hrunT, hops, L, hl, -, hshows⟩ := (hrun.restrict hok).simulate_along opOf
    (fun _ _ _ _ h hs ↦ step_tabled h hs.1 hs.2) (started_tabled hmain)
  exact ⟨trT, T, L, hrunT, hops, hl.listed, hshows⟩

theorem run_table {tr : List (Table × Op)} {T' : Table} (h : Run TableStep T tr T') :
    T' = (tr.map Prod.snd).foldl Op.apply T := by
  induction h with
  | nil => rfl
  | cons hs _ ih =>
    cases hs
    exact ih

def fewCalls : List Act :=
  [.changeProcessState 2, .switchProcess 7, .changeProcessState 2, .changeProcessState 3,
    .changeProcessState 2, .killPid 3]

theorem processes_refine_table_two : ∃ tr k L T, Run Step booted tr k ∧ Listed k L ∧ Shows k L T ∧
    T 1 = some .ready ∧ T 2 = some .blocked ∧ T 3 = none := by
  have hsome : (fewCalls.foldlM (perform 8) ListOrder.withEditor.1).isSome := by decide +kernel
  obtain ⟨k, hk⟩ := Option.isSome_iff_exists.mp hsome
  obtain ⟨tr, hrun, hacts⟩ := run_of_foldlM hk
  have hrun := hrun.mono fun _ _ _ h ↦ step_perform h
  have hfew : ∀ act ∈ fewCalls, ∀ k, Regular k act := by simp [fewCalls, Regular]
  have hfirst : Regular booted (.create ListOrder.editor) :=
    ⟨by decide, fun hstart ↦ absurd hstart (by decide)⟩
  have hok : ∀ e ∈ (booted, Act.create ListOrder.editor) :: tr, Regular e.1 e.2 := by
    intro e he
    rcases List.mem_cons.mp he with rfl | he
    · exact hfirst
    · exact hfew e.2 (hacts ▸ List.mem_map_of_mem he) e.1
  have hrun : Run Step booted ((booted, Act.create ListOrder.editor) :: tr) k :=
    .cons ListOrder.step_editor hrun
  obtain ⟨trT, T, L, hrunT, hops, hlisted, hshows⟩ :=
    processes_refine_table main_smallBoot hrun hok
  have hT := run_table hrunT
  have hop : ∀ act ∈ fewCalls, ∀ k, opOf k act = opOf booted act := by simp [fewCalls, opOf]
  have hmap : tr.map (fun e ↦ opOf e.1 e.2) = fewCalls.map (opOf booted) := by
    rw [← hacts, List.map_map]
    exact List.map_congr_left fun e he ↦ hop e.2 (hacts ▸ List.mem_map_of_mem he) e.1
  rw [hops, List.map_cons, hmap] at hT
  refine ⟨_, k, L, T, hrun, hlisted, hshows, ?_⟩
  rw [hT]
  decide

end ShellOS.Sched.ProcessTable
