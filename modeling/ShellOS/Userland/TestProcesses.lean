import Mathlib.Data.Finset.Card
import ShellOS.Sched.ProcessTable

namespace ShellOS.Userland.TestProcesses

open Library.Links Library.Runs Library.Words Sched Sched.Scheduler Sched.ProcessList
open Sched.SchedulerRun Sched.ProcessTable Function

def maxProcesses : ℕ := 10

inductive RqState
  | blocked
  | ready
  | killed
  deriving DecidableEq

structure PRq where
  pid : ℕ
  state : RqState

/-- The three `for` loops of `test_processes`, and what comes after its `return`. -/
inductive Phase
  | creating
  | acting
  | unblocking
  | returned
  deriving DecidableEq

structure Test where
  p_rqs : ℕ → PRq
  rq : ℕ
  alive : ℕ
  phase : Phase

namespace Test

variable (t : Test)

def record (state : RqState) : Test :=
  { t with p_rqs := update t.p_rqs t.rq ⟨(t.p_rqs t.rq).pid, state⟩ }

def created (r : ℤ) : Test :=
  let pid := (r % 2 ^ 32).toNat
  let t := { t with p_rqs := update t.p_rqs t.rq ⟨pid, (t.p_rqs t.rq).state⟩ }
  if pid = 2 ^ 32 - 1 then { t with phase := .returned }
  else { t.record .ready with alive := (t.alive + 1) % 2 ^ 8, rq := t.rq + 1 }

def act (action : ℕ) : Option Act × Test :=
  let p := t.p_rqs t.rq
  if action = 0 then
    if p.state = .ready ∨ p.state = .blocked then
      (some (.killPid p.pid),
        { t.record .killed with alive := (t.alive + 2 ^ 8 - 1) % 2 ^ 8, rq := t.rq + 1 })
    else (none, { t with rq := t.rq + 1 })
  else
    if p.state = .ready then
      (some (.changeProcessState p.pid), { t.record .blocked with rq := t.rq + 1 })
    else (none, { t with rq := t.rq + 1 })

def unblock (coin : ℕ) : Option Act × Test :=
  let p := t.p_rqs t.rq
  if p.state = .blocked ∧ coin ≠ 0 then
    (some (.changeProcessState p.pid), { t.record .ready with rq := t.rq + 1 })
  else (none, { t with rq := t.rq + 1 })

def go : Test :=
  match t.phase with
  | .acting => { t with phase := .unblocking, rq := 0 }
  | .creating | .unblocking =>
    if t.alive > 0 then { t with phase := .acting, rq := 0 }
    else { t with phase := .creating, rq := 0 }
  | .returned => t

def count : ℕ := if t.phase = .creating ∨ t.phase = .returned then t.rq else maxProcesses

end Test

structure State where
  kernel : Kernel
  test : Test

inductive Label
  | create (c : Create)
  | act (action : ℕ)
  | unblock (coin : ℕ)
  | go
  | other (act : Act)

inductive Calls (k : Kernel) : Option Act → Kernel → Prop
  | none : Calls k none k
  | some {act : Act} {k' : Kernel} : SchedulerRun.Step k act k' → Calls k (some act) k'

/-- The variables are the test's own, so a call and what is noted of it are one
step. Between two of its steps the other processes and the interrupt handlers
call the scheduler. -/
inductive Step (s : State) : Label → State → Prop
  | create {c : Create} {n : ℕ} {r : Kernel × ℤ} : s.test.phase = .creating →
      s.test.rq < maxProcesses → c.priority = 3 → SchedulerRun.Step s.kernel (.create c) r.1 →
      createProcess n s.kernel c = some r → Step s (.create c) ⟨r.1, s.test.created r.2⟩
  | act {action : ℕ} {k : Kernel} : s.test.phase = .acting → s.test.rq < maxProcesses →
      Calls s.kernel (s.test.act action).1 k → Step s (.act action) ⟨k, (s.test.act action).2⟩
  | unblock {coin : ℕ} {k : Kernel} : s.test.phase = .unblocking → s.test.rq < maxProcesses →
      Calls s.kernel (s.test.unblock coin).1 k →
      Step s (.unblock coin) ⟨k, (s.test.unblock coin).2⟩
  | go : s.test.rq = maxProcesses → Step s .go ⟨s.kernel, s.test.go⟩
  | other {act : Act} {k : Kernel} : SchedulerRun.Step s.kernel act k →
      Step s (.other act) ⟨k, s.test⟩

/-- The other calls are not about the processes of the test, which run
`endless_loop`. -/
def Careful (s : State) : Label → Prop
  | .create c => Regular s.kernel (.create c)
  | .other act => Regular s.kernel act ∧ ∀ i < s.test.count, (s.test.p_rqs i).state ≠ .killed →
      (opOf s.kernel act).pid ≠ some (s.test.p_rqs i).pid
  | _ => True

def start (k : Kernel) (p_rqs : ℕ → PRq) : State := ⟨k, ⟨p_rqs, 0, 0, .creating⟩⟩

def Recorded (k : Kernel) (L : List ℕ) (p : PRq) : Prop :=
  match p.state with
  | .blocked => ∃ y ∈ L, (k.pcb y).pid = p.pid ∧ (k.pcb y).pstate = 0
  | .ready => ∃ y ∈ L, (k.pcb y).pid = p.pid ∧ (k.pcb y).pstate = 1
  | .killed => ∀ y ∈ L, (k.pcb y).pid ≠ p.pid

def RqState.shown : RqState → Option ProcessTable.State
  | blocked => some .blocked
  | ready => some .ready
  | killed => none

def aliveOnes (t : Test) : Finset ℕ :=
  (Finset.range t.count).filter fun i ↦ (t.p_rqs i).state ≠ .killed

structure Agrees (k : Kernel) (T : Table) (t : Test) : Prop where
  shown : ∀ i < t.count, T (t.p_rqs i).pid = (t.p_rqs i).state.shown
  older : ∀ i < t.count, 1 < (t.p_rqs i).pid ∧ (k.pid ≠ 0 → (t.p_rqs i).pid < k.pid)
  apart : ∀ i < t.count, ∀ j < t.count, (t.p_rqs i).pid = (t.p_rqs j).pid → i = j
  alive : t.alive = (aliveOnes t).card
  rq_le : t.rq ≤ maxProcesses

variable {k k' : Kernel} {T : Table} {t : Test} {s s' : State} {act : Act} {op : Op}

section Calls

theorem call_tabled (h : Tabled k T) (hok : Regular k act) (hs : SchedulerRun.Step k act k') :
    Tabled k' ((opOf k act).apply T) ∧ (∀ pid, opOf k act = .create pid → T pid = none) ∧
      k'.pid = if ListOrder.isCreate act then u32 (k.pid + 1) else k.pid := by
  obtain ⟨T', hT, htabled⟩ := step_tabled h hok hs
  cases hT with
  | of hnew =>
    refine ⟨htabled, hnew, ?_⟩
    obtain ⟨L, hl, hr, -⟩ := h
    obtain ⟨L', he⟩ := step_effect hl hr hs hok
    exact ListOrder.effect_counter he

theorem tabled_counter (h : Tabled k T) : k.pid < 2 ^ 32 ∧ (k.pid ≠ 0 → 2 ≤ k.pid) := by
  obtain ⟨L, hl, -, -⟩ := h
  exact hl.counter

theorem createProcess_result {c : Create} {n : ℕ} {r : Kernel × ℤ}
    (hcall : createProcess n k c = some r) (hr : r.1.pid = u32 (k.pid + 1))
    (hk : k.pid < 2 ^ 32) : (r.2 % 2 ^ 32).toNat = k.pid := by
  have hresult : r.2 = i32 (u32Sub r.1.pid 1) := by
    simp only [createProcess] at hcall
    obtain ⟨r', -, rfl⟩ := Option.map_eq_some_iff.mp hcall
    simp only
  have hmod : i32 (u32Sub r.1.pid 1) % 2 ^ 32 = (u32Sub r.1.pid 1 : ℤ) % 2 ^ 32 :=
    Int.bmod_emod
  rw [hresult, hmod, hr]
  unfold u32Sub u32
  omega

end Calls

section Agree

variable {i j : ℕ} {state : RqState} {a : ℕ}

theorem mem_aliveOnes : i ∈ aliveOnes t ↔ i < t.count ∧ (t.p_rqs i).state ≠ .killed := by
  simp [aliveOnes]

theorem record_self : (t.record state).p_rqs t.rq = ⟨(t.p_rqs t.rq).pid, state⟩ := by
  simp [Test.record]

theorem record_other (h : i ≠ t.rq) : (t.record state).p_rqs i = t.p_rqs i := by
  simp [Test.record, h]

theorem record_pid : ((t.record state).p_rqs i).pid = (t.p_rqs i).pid := by
  by_cases hi : i = t.rq
  · rw [hi, record_self]
  · rw [record_other hi]

theorem aliveOnes_congr {t' : Test} (hcount : t'.count = t.count)
    (hp : ∀ i < t.count, t'.p_rqs i = t.p_rqs i) : aliveOnes t' = aliveOnes t := by
  ext i
  rw [mem_aliveOnes, mem_aliveOnes, hcount]
  refine and_congr_right fun hi ↦ ?_
  rw [hp i hi]

theorem Agrees.same {t' : Test} (h : Agrees k T t) (hcount : t'.count = t.count)
    (hp : ∀ i < t.count, t'.p_rqs i = t.p_rqs i) (ha : t'.alive = t.alive)
    (hrq : t'.rq ≤ maxProcesses) : Agrees k T t' := by
  refine ⟨fun i hi ↦ ?_, fun i hi ↦ ?_, fun i hi j hj heq ↦ ?_, ?_, hrq⟩
  · rw [hcount] at hi
    rw [hp i hi]
    exact h.shown i hi
  · rw [hcount] at hi
    rw [hp i hi]
    exact h.older i hi
  · rw [hcount] at hi hj
    rw [hp i hi, hp j hj] at heq
    exact h.apart i hi j hj heq
  · rw [ha, aliveOnes_congr hcount hp]
    exact h.alive

theorem aliveOnes_record (hold : (t.p_rqs t.rq).state ≠ .killed) (hnew : state ≠ .killed) :
    aliveOnes (t.record state) = aliveOnes t := by
  ext i
  rw [mem_aliveOnes, mem_aliveOnes]
  refine and_congr_right fun _ ↦ ?_
  by_cases hi : i = t.rq
  · rw [hi, record_self]
    exact iff_of_true hnew hold
  · rw [record_other hi]

theorem aliveOnes_killed : aliveOnes (t.record .killed) = (aliveOnes t).erase t.rq := by
  ext i
  rw [Finset.mem_erase, mem_aliveOnes, mem_aliveOnes]
  by_cases hi : i = t.rq
  · rw [hi, record_self]
    simp
  · rw [record_other hi]
    exact (and_iff_right hi).symm

theorem count_loop (h : t.phase = .acting ∨ t.phase = .unblocking) : t.count = maxProcesses := by
  rcases h with h | h <;> simp [Test.count, h]

theorem Agrees.recorded (h : Agrees k T t) (hphase : t.phase = .acting ∨ t.phase = .unblocking)
    (hrq : t.rq < maxProcesses) (hcounter : k'.pid = k.pid)
    (hop : op.pid = some (t.p_rqs t.rq).pid)
    (hshown : op.apply T (t.p_rqs t.rq).pid = state.shown)
    (ha : a = (aliveOnes (t.record state)).card) :
    Agrees k' (op.apply T) { t.record state with alive := a, rq := t.rq + 1 } := by
  have hcount : t.count = maxProcesses := count_loop hphase
  have hcount' : { t.record state with alive := a, rq := t.rq + 1 }.count = maxProcesses :=
    count_loop hphase
  constructor
  · intro i hi
    rw [hcount', ← hcount] at hi
    change op.apply T ((t.record state).p_rqs i).pid = ((t.record state).p_rqs i).state.shown
    by_cases hirq : i = t.rq
    · rw [hirq, record_self]
      exact hshown
    · have hpid : op.pid ≠ some (t.p_rqs i).pid := by
        rw [hop]
        intro heq
        injection heq with heq
        exact hirq (h.apart _ (hcount ▸ hrq) i hi heq).symm
      rw [record_other hirq, Op.apply_other hpid]
      exact h.shown i hi
  · intro i hi
    rw [hcount', ← hcount] at hi
    change 1 < ((t.record state).p_rqs i).pid ∧ (_ → ((t.record state).p_rqs i).pid < _)
    rw [record_pid, hcounter]
    exact h.older i hi
  · intro i hi j hj heq
    rw [hcount', ← hcount] at hi hj
    change ((t.record state).p_rqs i).pid = ((t.record state).p_rqs j).pid at heq
    rw [record_pid, record_pid] at heq
    exact h.apart i hi j hj heq
  · refine ha.trans (congrArg Finset.card ?_)
    have hsame : { t.record state with alive := a, rq := t.rq + 1 }.count = (t.record state).count :=
      hcount'.trans (count_loop (t := t.record state) hphase).symm
    exact (aliveOnes_congr hsame fun i _ ↦ rfl).symm
  · exact hrq

theorem Agrees.skipped (h : Agrees k T t) (hphase : t.phase = .acting ∨ t.phase = .unblocking)
    (hrq : t.rq < maxProcesses) : Agrees k T { t with rq := t.rq + 1 } := by
  have hcount : { t with rq := t.rq + 1 }.count = t.count :=
    (count_loop (t := { t with rq := t.rq + 1 }) hphase).trans (count_loop hphase).symm
  exact h.same hcount (fun _ _ ↦ rfl) rfl hrq

theorem Agrees.go (h : Agrees k T t) (hrq : t.rq = maxProcesses) : Agrees k T t.go := by
  have hcount : t.count = maxProcesses := by
    rw [Test.count, hrq, ite_self]
  have hloop : ∀ phase, phase = .acting ∨ phase = .unblocking →
      Agrees k T { t with phase := phase, rq := 0 } := by
    intro phase hphase
    have hcount' : { t with phase := phase, rq := 0 }.count = t.count :=
      (count_loop (t := { t with phase := phase, rq := 0 }) hphase).trans hcount.symm
    exact h.same hcount' (fun _ _ ↦ rfl) rfl (Nat.zero_le _)
  have hhead : Agrees k T (if t.alive > 0 then { t with phase := .acting, rq := 0 }
      else { t with phase := .creating, rq := 0 }) := by
    split
    · exact hloop _ (.inl rfl)
    · rename_i halive
      have hcount' : { t with phase := .creating, rq := 0 }.count = 0 := rfl
      refine ⟨?_, ?_, ?_, ?_, Nat.zero_le _⟩
      · rw [hcount']
        exact fun i hi ↦ absurd hi (Nat.not_lt_zero i)
      · rw [hcount']
        exact fun i hi ↦ absurd hi (Nat.not_lt_zero i)
      · rw [hcount']
        exact fun i hi ↦ absurd hi (Nat.not_lt_zero i)
      · rw [aliveOnes, hcount']
        simpa using halive
  rw [Test.go]
  split
  · exact hloop _ (.inr rfl)
  · exact hhead
  · exact hhead
  · exact h

theorem Agrees.filled {t' : Test} (h : Agrees k T t) (hphase : t.phase = .creating)
    (hrq : t.rq < maxProcesses) (hcounter : 2 ≤ k.pid) (hcounter' : k'.pid ≠ 0 → k'.pid = k.pid + 1)
    (hcount' : t'.count = t.rq + 1) (hrq' : t'.rq = t.rq + 1) (ha : t'.alive = (t.alive + 1) % 2 ^ 8)
    (hp : t'.p_rqs = update t.p_rqs t.rq ⟨k.pid, .ready⟩) :
    Agrees k' (Op.apply T (.create k.pid)) t' := by
  have hcount : t.count = t.rq := by
    rw [Test.count, if_pos (.inl hphase)]
  have hself : t'.p_rqs t.rq = ⟨k.pid, .ready⟩ := by
    rw [hp, update_self]
  have hold : ∀ i < t.rq, t'.p_rqs i = t.p_rqs i ∧ (t.p_rqs i).pid < k.pid := by
    intro i hi
    rw [hp, update_of_ne hi.ne]
    exact ⟨rfl, (h.older i (hcount ▸ hi)).2 (by omega)⟩
  have hcases : ∀ i < t'.count, i = t.rq ∨ i < t.rq := fun i hi ↦ by omega
  refine ⟨fun i hi ↦ ?_, fun i hi ↦ ?_, fun i hi j hj heq ↦ ?_, ?_, by omega⟩
  · rcases hcases i hi with rfl | hi
    · rw [hself]
      exact update_self ..
    · rw [(hold i hi).1, Op.apply, update_of_ne (hold i hi).2.ne]
      exact h.shown i (hcount ▸ hi)
  · rcases hcases i hi with rfl | hi
    · rw [hself]
      exact ⟨hcounter, fun h0 ↦ by rw [hcounter' h0]; exact Nat.lt_succ_self _⟩
    · have hlt := (hold i hi).2
      rw [(hold i hi).1]
      exact ⟨(h.older i (hcount ▸ hi)).1, fun h0 ↦ by rw [hcounter' h0]; omega⟩
  · rcases hcases i hi with rfl | hi <;> rcases hcases j hj with rfl | hj
    · rfl
    · rw [hself, (hold j hj).1] at heq
      exact absurd heq (hold j hj).2.ne'
    · rw [hself, (hold i hi).1] at heq
      exact absurd heq (hold i hi).2.ne
    · rw [(hold i hi).1, (hold j hj).1] at heq
      exact h.apart i (hcount ▸ hi) j (hcount ▸ hj) heq
  · have hones : aliveOnes t' = insert t.rq (aliveOnes t) := by
      ext i
      rw [Finset.mem_insert, mem_aliveOnes, mem_aliveOnes, hcount, hcount']
      constructor
      · rintro ⟨hi, hstate⟩
        rcases hcases i (hcount' ▸ hi) with rfl | hi
        · exact .inl rfl
        · rw [(hold i hi).1] at hstate
          exact .inr ⟨hi, hstate⟩
      · rintro (rfl | ⟨hi, hstate⟩)
        · rw [hself]
          exact ⟨Nat.lt_succ_self _, by simp⟩
        · rw [(hold i hi).1]
          exact ⟨by omega, hstate⟩
    have hnot : t.rq ∉ aliveOnes t := by
      rw [mem_aliveOnes, hcount]
      exact fun hmem ↦ absurd hmem.1 (lt_irrefl _)
    have hle : (aliveOnes t).card ≤ t.rq := by
      refine (Finset.card_filter_le _ _).trans ?_
      rw [Finset.card_range, hcount]
    unfold maxProcesses at hrq
    rw [ha, h.alive, hones, Finset.card_insert_of_notMem hnot]
    omega

theorem Agrees.created {r : ℤ} (h : Agrees k T t) (hphase : t.phase = .creating)
    (hrq : t.rq < maxProcesses) (hcounter : 2 ≤ k.pid ∧ k.pid < 2 ^ 32)
    (hcounter' : k'.pid = u32 (k.pid + 1)) (hr : (r % 2 ^ 32).toNat = k.pid) :
    Agrees k' (Op.apply T (.create k.pid)) (t.created r) := by
  simp only [Test.created, hr]
  split
  · rename_i hlast
    have hk : k'.pid = 0 := by
      rw [hcounter', hlast]
      rfl
    have hcount : t.count = t.rq := by
      rw [Test.count, if_pos (.inl hphase)]
    have hfailed : Agrees k' (Op.apply T (.create k.pid)) { t with phase := .returned } := by
      have hones : aliveOnes { t with phase := .returned } = aliveOnes t :=
        aliveOnes_congr hcount.symm fun _ _ ↦ rfl
      refine ⟨fun i hi ↦ ?_, fun i hi ↦ ⟨(h.older i (hcount ▸ hi)).1, fun h0 ↦ absurd hk h0⟩,
        fun i hi j hj ↦ h.apart i (hcount ▸ hi) j (hcount ▸ hj), hones ▸ h.alive, h.rq_le⟩
      have hlt := (h.older i (hcount ▸ hi)).2 (by omega)
      rw [Op.apply, update_of_ne hlt.ne]
      exact h.shown i (hcount ▸ hi)
    refine hfailed.same rfl (fun i hi ↦ ?_) rfl h.rq_le
    have hi : i < t.rq := hi
    exact update_of_ne hi.ne _ _
  · rename_i hlast
    refine h.filled hphase hrq hcounter.1 ?_ ?_ rfl rfl ?_
    · rw [hcounter']
      unfold u32
      omega
    · simp [Test.count, Test.record, hphase]
    · simp [Test.record]

theorem Agrees.other (h : Agrees k T t) (hnew : ∀ pid, op = .create pid → pid = k.pid ∧ k.pid ≠ 0)
    (hlt : k.pid < 2 ^ 32) (hcounter : k'.pid = k.pid ∨ k.pid ≠ 0 ∧ k'.pid = u32 (k.pid + 1))
    (hother : ∀ i < t.count, (t.p_rqs i).state ≠ .killed → op.pid ≠ some (t.p_rqs i).pid) :
    Agrees k' (op.apply T) t := by
  refine ⟨fun i hi ↦ ?_, fun i hi ↦ ⟨(h.older i hi).1, fun h0 ↦ ?_⟩, h.apart, h.alive, h.rq_le⟩
  · by_cases hstate : (t.p_rqs i).state = .killed
    · have hnone : T (t.p_rqs i).pid = none := by
        rw [h.shown i hi, hstate]
        rfl
      rw [hstate]
      refine Op.apply_absent hnone fun hop ↦ ?_
      obtain ⟨hpid, h0⟩ := hnew _ hop
      have hlt := (h.older i hi).2 h0
      omega
    · rw [Op.apply_other (hother i hi hstate)]
      exact h.shown i hi
  · rcases hcounter with hsame | ⟨hk, hsame⟩
    · rw [hsame] at h0 ⊢
      exact (h.older i hi).2 h0
    · have hlt := (h.older i hi).2 hk
      rw [hsame] at h0 ⊢
      unfold u32 at h0 ⊢
      omega

end Agree

section Steps

def Kept (s : State) : Prop := ∃ T, Tabled s.kernel T ∧ Agrees s.kernel T s.test

theorem create_kept {c : Create} (h : Kept s) (hok : Careful s (.create c))
    (hs : Step s (.create c) s') : Kept s' := by
  obtain ⟨T, hT, hagrees⟩ := h
  cases hs with
  | create hphase hrq hpriority hstep hcall =>
    have hok : Regular s.kernel (.create c) := hok
    obtain ⟨hT', hnew, hcounter⟩ := call_tabled hT hok hstep
    have hk := tabled_counter hT
    have h0 := hk.2 hok.1
    exact ⟨_, hT', hagrees.created hphase hrq ⟨h0, hk.1⟩ hcounter
      (createProcess_result hcall hcounter hk.1)⟩

theorem noted_kept {state : RqState} {a : ℕ} (hT : Tabled k T) (hagrees : Agrees k T t)
    (hphase : t.phase = .acting ∨ t.phase = .unblocking) (hrq : t.rq < maxProcesses)
    (hs : SchedulerRun.Step k act k') (hok : Regular k act)
    (hno : ListOrder.isCreate act = false) (hop : opOf k act = op)
    (hpid : op.pid = some (t.p_rqs t.rq).pid)
    (hshown : op.apply T (t.p_rqs t.rq).pid = state.shown)
    (ha : a = (aliveOnes (t.record state)).card) :
    Kept ⟨k', { t.record state with alive := a, rq := t.rq + 1 }⟩ := by
  obtain ⟨hT', -, hcounter⟩ := call_tabled hT hok hs
  rw [hno] at hcounter
  rw [hop] at hT'
  exact ⟨_, hT', hagrees.recorded hphase hrq hcounter hpid hshown ha⟩

theorem toggle_shown {p : PRq} {v : ProcessTable.State} (h : T p.pid = some v) :
    Op.apply T (.toggle p.pid) p.pid = some v.toggled := by
  rw [Op.apply, update_self, h]
  rfl

theorem act_kept {action : ℕ} (h : Kept s) (hs : Step s (.act action) s') : Kept s' := by
  obtain ⟨T, hT, hagrees⟩ := h
  cases hs with
  | act hphase hrq hcalls =>
    have hrq' : s.test.rq < s.test.count := (count_loop (.inl hphase)).symm ▸ hrq
    have hone := (hagrees.older s.test.rq hrq').1
    have hshown := hagrees.shown s.test.rq hrq'
    simp only [Test.act] at hcalls ⊢
    split at hcalls
    · split at hcalls
      · rename_i haction hstate
        rw [if_pos haction, if_pos hstate]
        have hmem : s.test.rq ∈ aliveOnes s.test := by
          rw [mem_aliveOnes]
          refine ⟨hrq', ?_⟩
          rcases hstate with hstate | hstate <;> simp [hstate]
        cases hcalls with
        | some hstep =>
          refine noted_kept hT hagrees (.inl hphase) hrq hstep trivial rfl (if_pos hone) rfl
            (update_self ..) ?_
          have hpos := Finset.card_pos.mpr ⟨_, hmem⟩
          have hle : (aliveOnes s.test).card ≤ maxProcesses := by
            refine (Finset.card_filter_le _ _).trans ?_
            rw [Finset.card_range, count_loop (.inl hphase)]
          unfold maxProcesses at hle
          rw [aliveOnes_killed, Finset.card_erase_of_mem hmem, hagrees.alive]
          omega
      · rename_i haction hstate
        rw [if_pos haction, if_neg hstate]
        cases hcalls
        exact ⟨T, hT, hagrees.skipped (.inl hphase) hrq⟩
    · split at hcalls
      · rename_i haction hstate
        rw [if_neg haction, if_pos hstate]
        rw [hstate] at hshown
        cases hcalls with
        | some hstep =>
          refine noted_kept hT hagrees (.inl hphase) hrq hstep trivial rfl (if_pos hone) rfl
            (toggle_shown hshown) ?_
          rw [aliveOnes_record (by simp [hstate]) (by simp)]
          exact hagrees.alive
      · rename_i haction hstate
        rw [if_neg haction, if_neg hstate]
        cases hcalls
        exact ⟨T, hT, hagrees.skipped (.inl hphase) hrq⟩

theorem unblock_kept {coin : ℕ} (h : Kept s) (hs : Step s (.unblock coin) s') : Kept s' := by
  obtain ⟨T, hT, hagrees⟩ := h
  cases hs with
  | unblock hphase hrq hcalls =>
    have hrq' : s.test.rq < s.test.count := (count_loop (.inr hphase)).symm ▸ hrq
    have hone := (hagrees.older s.test.rq hrq').1
    have hshown := hagrees.shown s.test.rq hrq'
    simp only [Test.unblock] at hcalls ⊢
    split at hcalls
    · rename_i hcoin
      rw [if_pos hcoin]
      rw [hcoin.1] at hshown
      cases hcalls with
      | some hstep =>
        refine noted_kept hT hagrees (.inr hphase) hrq hstep trivial rfl (if_pos hone) rfl
          (toggle_shown hshown) ?_
        rw [aliveOnes_record (by simp [hcoin.1]) (by simp)]
        exact hagrees.alive
    · rename_i hcoin
      rw [if_neg hcoin]
      cases hcalls
      exact ⟨T, hT, hagrees.skipped (.inr hphase) hrq⟩

theorem other_kept (h : Kept s) (hok : Careful s (.other act)) (hs : Step s (.other act) s') :
    Kept s' := by
  obtain ⟨T, hT, hagrees⟩ := h
  cases hs with
  | other hstep =>
    obtain ⟨hT', -, hcounter⟩ := call_tabled hT hok.1 hstep
    refine ⟨_, hT', hagrees.other (fun pid hpid ↦ ?_) (tabled_counter hT).1 ?_ hok.2⟩
    · obtain ⟨⟨c, rfl⟩, hnewest⟩ := opOf_create hpid
      exact ⟨hnewest, hok.1.1⟩
    · cases act with
      | create c => exact .inr ⟨hok.1.1, hcounter⟩
      | _ => exact .inl hcounter

theorem step_kept {label : Label} (h : Kept s) (hok : Careful s label) (hs : Step s label s') :
    Kept s' := by
  cases label with
  | create c => exact create_kept h hok hs
  | act action => exact act_kept h hs
  | unblock coin => exact unblock_kept h hs
  | go =>
    obtain ⟨T, hT, hagrees⟩ := h
    cases hs with
    | go hrq => exact ⟨T, hT, hagrees.go hrq⟩
  | other act => exact other_kept h hok hs

end Steps

section Record

variable {L : List ℕ} {p : PRq}

theorem recorded_of_shows (h : Shows k L T)
    (hp : T p.pid = p.state.shown) : Recorded k L p := by
  have hfound : ∀ v, T p.pid = some v →
      ∃ y ∈ L, (k.pcb y).pid = p.pid ∧ (k.pcb y).pstate = v.pstate := by
    intro v hv
    obtain ⟨y, hy, hyp⟩ := h.only p.pid (by simp [hv])
    obtain ⟨w, hw, hstate⟩ := h.found y hy
    rw [hyp, hv, Option.some_inj] at hw
    exact ⟨y, hy, hyp, hw ▸ hstate⟩
  unfold Recorded
  split
  · rename_i hstate
    exact hfound .blocked (by rw [hp, hstate]; rfl)
  · rename_i hstate
    exact hfound .ready (by rw [hp, hstate]; rfl)
  · rename_i hstate
    intro y hy heq
    obtain ⟨v, hv, -⟩ := h.found y hy
    rw [heq, hp, hstate] at hv
    cases hv

/-- In every run of the kernel from boot the test is right about its processes,
as long as nobody else calls the scheduler for one of them: whom it has as
blocked or ready is on the list in that state, whom it has as killed is not on
it, and `alive` counts the others. When it is 0, none of its processes is left. -/
theorem test_records {b : Boot} {n : ℕ} {p_rqs : ℕ → PRq} {tr : List (State × Label)}
    (hmain : main n b = some k) (hrun : Run Step (start k p_rqs) tr s)
    (hok : ∀ e ∈ tr, Careful e.1 e.2) :
    ∃ L, Listed s.kernel L ∧
      (∀ i < s.test.count, Recorded s.kernel L (s.test.p_rqs i)) ∧
      s.test.alive = (aliveOnes s.test).card ∧
      (s.test.alive = 0 → ∀ i < s.test.count, ∀ y ∈ L,
        (s.kernel.pcb y).pid ≠ (s.test.p_rqs i).pid) := by
  have hstart : Kept (start k p_rqs) := by
    refine ⟨shellOnly, started_tabled hmain, ⟨?_, ?_, ?_, rfl, Nat.zero_le _⟩⟩
    · exact fun i hi ↦ absurd hi (Nat.not_lt_zero i)
    · exact fun i hi ↦ absurd hi (Nat.not_lt_zero i)
    · exact fun i hi ↦ absurd hi (Nat.not_lt_zero i)
  obtain ⟨T, ⟨L, hl, -, hshows⟩, hagrees⟩ :=
    hrun.invariant_of (fun _ _ _ h hok hs ↦ step_kept h hok hs) hok hstart
  have hrecorded : ∀ i < s.test.count, Recorded s.kernel L (s.test.p_rqs i) := fun i hi ↦
    recorded_of_shows hshows (hagrees.shown i hi)
  refine ⟨L, hl.listed, hrecorded, hagrees.alive, fun h0 i hi ↦ ?_⟩
  have hkilled : (s.test.p_rqs i).state = .killed := by
    have hempty : aliveOnes s.test = ∅ := Finset.card_eq_zero.mp (hagrees.alive.symm.trans h0)
    by_contra hstate
    have hmem := mem_aliveOnes.mpr ⟨hi, hstate⟩
    rw [hempty] at hmem
    exact absurd hmem (Finset.notMem_empty _)
  have hgone := hrecorded i hi
  rw [Recorded, hkilled] at hgone
  exact hgone

def perform (n : ℕ) (s : State) : Label → Option State
  | .create c =>
    if s.test.phase = .creating ∧ s.test.rq < maxProcesses ∧ c.priority = 3 ∧ c.newNode ≠ 0 ∧
        c.newNode ≠ s.kernel.dummy ∧ Unlisted n s.kernel c.newNode then
      (createProcess n s.kernel c).map fun r ↦ ⟨r.1, s.test.created r.2⟩
    else none
  | .act action =>
    if s.test.phase = .acting ∧ s.test.rq < maxProcesses then
      ((s.test.act action).1.elim (some s.kernel) (SchedulerRun.perform n s.kernel)).map
        fun k ↦ ⟨k, (s.test.act action).2⟩
    else none
  | .unblock coin =>
    if s.test.phase = .unblocking ∧ s.test.rq < maxProcesses then
      ((s.test.unblock coin).1.elim (some s.kernel) (SchedulerRun.perform n s.kernel)).map
        fun k ↦ ⟨k, (s.test.unblock coin).2⟩
    else none
  | .go => if s.test.rq = maxProcesses then some ⟨s.kernel, s.test.go⟩ else none
  | .other act => (SchedulerRun.perform n s.kernel act).map fun k ↦ ⟨k, s.test⟩

theorem calls_perform {n : ℕ} {call : Option Act}
    (h : call.elim (some k) (SchedulerRun.perform n k) = some k') : Calls k call k' := by
  cases call with
  | none => exact Option.some_inj.mp h ▸ .none
  | some act => exact .some (step_perform h)

theorem step_of_perform {n : ℕ} {label : Label} (h : perform n s label = some s') :
    Step s label s' := by
  cases label with
  | create c =>
    obtain ⟨⟨hphase, hrq, hpriority, h0, hdummy, hunlisted⟩, h⟩ :=
      Option.ite_none_right_eq_some.mp h
    obtain ⟨r, hcall, rfl⟩ := Option.map_eq_some_iff.mp h
    exact .create hphase hrq hpriority
      (.create h0 hdummy (fun L hL ↦ hunlisted.not_mem h0 hL) hcall) hcall
  | act action =>
    obtain ⟨⟨hphase, hrq⟩, h⟩ := Option.ite_none_right_eq_some.mp h
    obtain ⟨k, hcall, rfl⟩ := Option.map_eq_some_iff.mp h
    exact .act hphase hrq (calls_perform hcall)
  | unblock coin =>
    obtain ⟨⟨hphase, hrq⟩, h⟩ := Option.ite_none_right_eq_some.mp h
    obtain ⟨k, hcall, rfl⟩ := Option.map_eq_some_iff.mp h
    exact .unblock hphase hrq (calls_perform hcall)
  | go =>
    obtain ⟨hrq, h⟩ := Option.ite_none_right_eq_some.mp h
    exact Option.some_inj.mp h ▸ .go hrq
  | other act =>
    obtain ⟨k, hcall, rfl⟩ := Option.map_eq_some_iff.mp h
    exact .other (step_perform hcall)

def easy (s : State) : Label → Bool
  | .create c => s.kernel.pid ≠ 0 ∧ (s.kernel.start = 0 → s.kernel.next c.newNode = 0)
  | .other (.switchProcess _) => true
  | .other _ => false
  | _ => true

theorem careful_of_easy {label : Label} (h : easy s label = true) : Careful s label := by
  cases label with
  | create c =>
    have hregular : s.kernel.pid ≠ 0 ∧ (s.kernel.start = 0 → s.kernel.next c.newNode = 0) :=
      of_decide_eq_true h
    exact hregular
  | other act =>
    cases act with
    | switchProcess sp => exact ⟨trivial, fun i _ _ hpid ↦ by cases hpid⟩
    | _ => cases h
  | _ => trivial

def loop (i : ℕ) : Create := ⟨3, [], 0, 0, i + 3, 0x1000 * (i + 3)⟩

def aRound : List Label :=
  .other (.switchProcess 7) :: (List.range 10).map (fun i ↦ .create (loop i)) ++
    [.go, .act 0, .act 1] ++ List.replicate 8 (.act 0) ++ [.go, .unblock 1, .unblock 1]

def afterRound : Option State :=
  aRound.foldlM (fun s label ↦ if easy s label then perform 16 s label else none)
    (start booted fun _ ↦ ⟨0, .killed⟩)

theorem test_records_round : ∃ tr s L, Run Step (start booted fun _ ↦ ⟨0, .killed⟩) tr s ∧
    tr.map Prod.snd = aRound ∧ s.test.alive = 1 ∧ Listed s.kernel L ∧
    ∀ i < s.test.count, Recorded s.kernel L (s.test.p_rqs i) := by
  have hend : afterRound.map (fun s ↦ s.test.alive) = some 1 := by decide +kernel
  obtain ⟨s, hs, halive⟩ := Option.map_eq_some_iff.mp hend
  obtain ⟨tr, hrun, hacts, heasy⟩ := run_of_checked hs
  have hcareful : ∀ e ∈ tr, Careful e.1 e.2 := fun e he ↦ careful_of_easy (heasy e he)
  have hrun := hrun.mono fun _ _ _ ht ↦ step_of_perform ht
  obtain ⟨L, hlisted, hrecorded, -⟩ := test_records main_smallBoot hrun hcareful
  exact ⟨tr, s, L, hrun, hacts, halive, hlisted, hrecorded⟩

end Record

end ShellOS.Userland.TestProcesses
