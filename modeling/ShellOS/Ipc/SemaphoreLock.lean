import ShellOS.Ipc.Semaphores
import ShellOS.Library.Runs

namespace ShellOS.Ipc.SemaphoreLock

open Library.Runs Library.Words Semaphores Function

/-- The step that a process takes next in `sem_wait` or `sem_post`. The flag
tells whether it has come back from `runScheduler` in this call. -/
inductive Pc
  | idle
  | waitLock
  | testValue (resumed : Bool)
  | testQueue (resumed : Bool)
  | enqueue (resumed : Bool)
  | unlockWait (resumed : Bool)
  | yield
  | decrement (resumed : Bool)
  | unlockDone (resumed : Bool)
  | postLock
  | increment
  | testWaiting
  | wakeFirst
  | unlockPost
  deriving DecidableEq

/-- Interrupts are off in a system call until it has called `runScheduler`. -/
def preemptible : Pc → Bool
  | .idle | .yield => true
  | .testValue r | .testQueue r | .enqueue r | .unlockWait r | .decrement r | .unlockDone r => r
  | .waitLock | .postLock | .increment | .testWaiting | .wakeFirst | .unlockPost => false

def touches : Pc → Bool
  | .testValue _ | .testQueue _ | .enqueue _ | .decrement _ => true
  | .increment | .testWaiting | .wakeFirst => true
  | _ => false

/-- The return from `runScheduler` falls into `_xchg` with the arguments of the
unlock before it, so it stores 0 in the lock as well. -/
def clears : Pc → Bool
  | .unlockWait _ | .unlockDone _ | .unlockPost | .yield => true
  | _ => false

/-- One semaphore and the processes that use it. `holder` is the process whose
exchange found the lock free, and `broken` records that a step was taken
against the lock discipline. -/
structure Machine where
  sem : Semaphore
  pstate : ℕ → ℕ
  pc : ℕ → Pc
  current : ℕ
  holder : Option ℕ
  broken : Bool

namespace Machine

variable (m : Machine)

def here : Pc := m.pc m.current

def violates : Bool :=
  (touches m.here && decide (m.holder ≠ some m.current)) ||
    (clears m.here && decide (m.holder ≠ none) && decide (m.holder ≠ some m.current))

def goto (pc : Pc) : Machine := { m with pc := update m.pc m.current pc }

def lock (pc : Pc) : Machine :=
  if m.sem.lock = 0 then
    { m.goto pc with sem := { m.sem with lock := 1 }, holder := some m.current }
  else m

def unlock (pc : Pc) : Machine :=
  { m.goto pc with sem := { m.sem with lock := 0 }, holder := none }

def effect : Machine :=
  match m.here with
  | .idle => m
  | .waitLock => m.lock (.testValue false)
  | .testValue r => m.goto (if m.sem.value = 0 then .testQueue r else .decrement r)
  | .testQueue r => m.goto (if m.sem.waiting = processLimit then .idle else .enqueue r)
  | .enqueue r =>
    { m.goto (.unlockWait r) with
      pstate := update m.pstate m.current 0
      sem := { m.sem with queue := m.sem.queue ++ [m.current] } }
  | .unlockWait _ => m.unlock .yield
  | .yield => m.unlock (.testValue true)
  | .decrement r =>
    { m.goto (.unlockDone r) with sem := { m.sem with value := i32 (m.sem.value - 1) } }
  | .unlockDone _ => m.unlock .idle
  | .postLock => m.lock .increment
  | .increment =>
    { m.goto .testWaiting with sem := { m.sem with value := i32 (m.sem.value + 1) } }
  | .testWaiting => m.goto (if m.sem.waiting = 0 then .unlockPost else .wakeFirst)
  | .wakeFirst =>
    { m.goto .unlockPost with
      pstate := update m.pstate (m.sem.queue.headD 0) 1
      sem := { m.sem with queue := m.sem.queue.tail } }
  | .unlockPost => m.unlock .idle

def tick : Machine := { m.effect with broken := m.broken || m.violates }

end Machine

inductive Act
  | switch (process : ℕ)
  | wait
  | post
  | run

/-- The scheduler gives the processor to a ready process, or the current
process starts a call or takes its next step. -/
def exec (m : Machine) : Act → Option Machine
  | .switch process =>
    if preemptible m.here ∧ m.pstate process = 1 then some { m with current := process } else none
  | .wait => if m.here = .idle then some (m.goto .waitLock) else none
  | .post => if m.here = .idle then some (m.goto .postLock) else none
  | .run =>
    if m.here = .idle ∨ (m.here = .yield ∧ m.pstate m.current ≠ 1) then none else some m.tick

abbrev Step (m : Machine) (x : Act) (m' : Machine) : Prop := exec m x = some m'

def boot (sem : Semaphore) (pstate : ℕ → ℕ) (current : ℕ) : Machine :=
  ⟨sem, pstate, fun _ ↦ .idle, current, none, false⟩

def Kept (m : Machine) : Prop := m.broken = false ∧ 0 ≤ m.sem.value

/-- No process tests `value` after it has come back from `runScheduler`, or
comes back while the lock is held, and the counter does not overflow. -/
def Fresh (m : Machine) : Act → Prop
  | .run => m.here ≠ .testValue true ∧ (m.here = .yield → m.holder = none) ∧
      ¬ (m.here = .increment ∧ m.sem.value = int32Max)
  | _ => True

instance (m : Machine) : DecidablePred (Fresh m)
  | .run => inferInstanceAs (Decidable (_ ∧ _ ∧ _))
  | .switch _ | .wait | .post => .isTrue trivial

/-- Between its exchange and its unlock a process that has not yielded is the
current one and holds the lock. -/
structure Guarded (m : Machine) : Prop where
  inside : ∀ p, preemptible (m.pc p) = false →
    p = m.current ∧ (touches (m.pc p) ∨ clears (m.pc p) → m.holder = some p)
  resumed : ∀ p, preemptible (m.pc p) = true →
    m.pc p = .idle ∨ m.pc p = .yield ∨ m.pc p = .testValue true
  released : ∀ p, m.pc p = .yield ∨ m.pc p = .testValue true → m.holder ≠ some p
  positive : m.here = .decrement false → 0 < m.sem.value
  value_le : m.sem.value ≤ int32Max

variable {m m' : Machine} {x : Act}

theorem Guarded.goto (h : Guarded m) {pc : Pc} (hcurrent : m'.current = m.current)
    (hpc : m'.pc = update m.pc m.current pc)
    (hholder : m'.holder = m.holder ∨ m'.holder = none ∨ m'.holder = some m.current)
    (hinside : touches pc ∨ clears pc → preemptible pc = false → m'.holder = some m.current)
    (hresumed : preemptible pc = true → pc = .idle ∨ pc = .yield ∨ pc = .testValue true)
    (hreleased : pc = .yield ∨ pc = .testValue true → m'.holder ≠ some m.current)
    (hpositive : pc = .decrement false → 0 < m'.sem.value)
    (hle : m'.sem.value ≤ int32Max) : Guarded m' := by
  have hself : m'.pc m.current = pc := by rw [hpc, update_self]
  have hother : ∀ p, p ≠ m.current → m'.pc p = m.pc p := fun p hp ↦ by
    rw [hpc, update_of_ne hp]
  constructor
  · intro p hp
    by_cases hpm : p = m.current
    · subst hpm
      rw [hself] at hp ⊢
      exact ⟨hcurrent.symm, fun htc ↦ hinside htc hp⟩
    · rw [hother p hpm] at hp
      exact absurd (h.inside p hp).1 hpm
  · intro p hp
    by_cases hpm : p = m.current
    · subst hpm
      rw [hself] at hp ⊢
      exact hresumed hp
    · rw [hother p hpm] at hp ⊢
      exact h.resumed p hp
  · intro p hp
    by_cases hpm : p = m.current
    · subst hpm
      rw [hself] at hp
      exact hreleased hp
    · rw [hother p hpm] at hp
      rcases hholder with heq | heq | heq
      · rw [heq]
        exact h.released p hp
      · rw [heq]
        exact (Option.some_ne_none p).symm
      · rw [heq]
        exact fun hsome ↦ hpm (Option.some.inj hsome).symm
  · intro hp
    rw [Machine.here, hcurrent, hself] at hp
    exact hpositive hp
  · exact hle

theorem Guarded.switch (h : Guarded m) (hp : preemptible m.here = true) (process : ℕ) :
    Guarded { m with current := process } := by
  have hall : ∀ p, preemptible (m.pc p) = true := by
    intro p
    by_contra hne
    have hcur := (h.inside p (by simpa using hne)).1
    rw [hcur] at hne
    exact hne hp
  constructor
  · intro p hpre
    rw [hall p] at hpre
    cases hpre
  · exact h.resumed
  · exact h.released
  · intro hdec
    have hpre := hall process
    rw [show m.pc process = .decrement false from hdec] at hpre
    cases hpre
  · exact h.value_le

/-- Under the guards the only steps against the discipline are the return from
`runScheduler` while the lock is held, and the test of `value` that follows it. -/
theorem Guarded.violates_iff (h : Guarded m) :
    m.violates = true ↔ m.here = .testValue true ∨ m.here = .yield ∧ m.holder ≠ none := by
  cases hpre : preemptible m.here with
  | false =>
    have hin := (h.inside m.current hpre).2
    have hne : ¬ (m.here = .testValue true ∨ m.here = .yield ∧ m.holder ≠ none) := by
      rintro (heq | ⟨heq, -⟩)
      · rw [heq] at hpre
        cases hpre
      · rw [heq] at hpre
        cases hpre
    simp only [hne, iff_false]
    intro hv
    simp only [Machine.violates, Bool.or_eq_true, Bool.and_eq_true, decide_eq_true_eq] at hv
    rcases hv with ⟨ht, hh⟩ | ⟨⟨hc, -⟩, hh⟩
    · exact hh (hin (Or.inl ht))
    · exact hh (hin (Or.inr hc))
  | true =>
    rcases h.resumed m.current hpre with heq | heq | heq
    · simp [Machine.violates, Machine.here, heq, touches, clears]
    · have hr := h.released m.current (Or.inl heq)
      simp [Machine.violates, Machine.here, heq, touches, clears, hr]
    · have hr := h.released m.current (Or.inr heq)
      simp [Machine.violates, Machine.here, heq, touches, hr]

theorem Guarded.not_resumed (h : Guarded m) {pc : Pc} (hpc : m.here = pc)
    (hpre : preemptible pc = true) : pc = .idle ∨ pc = .yield ∨ pc = .testValue true := by
  have hr := h.resumed m.current
  rw [show m.pc m.current = pc from hpc] at hr
  exact hr hpre

theorem Guarded.holds (h : Guarded m) {pc : Pc} (hpc : m.here = pc)
    (hpre : preemptible pc = false) (ht : touches pc ∨ clears pc) : m.holder = some m.current := by
  have hin := h.inside m.current
  rw [show m.pc m.current = pc from hpc] at hin
  exact (hin hpre).2 ht

theorem Guarded.lock (h : Guarded m) {pc : Pc} (hpre : preemptible pc = false)
    (hdec : pc ≠ .decrement false) (b : Bool) : Guarded { m.lock pc with broken := b } := by
  have hnot : ¬ (pc = .yield ∨ pc = .testValue true) := by
    rintro (rfl | rfl) <;> cases hpre
  unfold Machine.lock
  split
  · exact h.goto rfl rfl (Or.inr (Or.inr rfl)) (fun _ _ ↦ rfl) (by simp [hpre])
      (fun hp ↦ absurd hp hnot) (fun hp ↦ absurd hp hdec) h.value_le
  · exact ⟨h.inside, h.resumed, h.released, h.positive, h.value_le⟩

theorem Guarded.unlock (h : Guarded m) {pc : Pc}
    (hpc : pc = .idle ∨ pc = .yield ∨ pc = .testValue true) (b : Bool) :
    Guarded { m.unlock pc with broken := b } := by
  refine h.goto rfl rfl (Or.inr (Or.inl rfl)) ?_ (fun _ ↦ hpc)
    (fun _ ↦ (Option.some_ne_none _).symm) ?_ h.value_le
  · rcases hpc with rfl | rfl | rfl <;> simp [touches, clears, preemptible]
  · rcases hpc with rfl | rfl | rfl <;> simp

theorem Guarded.stay (h : Guarded m) {pc : Pc} (hin : m.holder = some m.current)
    (hpc : preemptible pc = false ∨ pc = .idle) (hcurrent : m'.current = m.current)
    (hgoto : m'.pc = update m.pc m.current pc) (hholder : m'.holder = m.holder)
    (hpositive : pc = .decrement false → 0 < m'.sem.value)
    (hle : m'.sem.value ≤ int32Max) : Guarded m' := by
  have hidle : preemptible pc = true → pc = .idle := fun hpre ↦
    hpc.resolve_left (by simp [hpre])
  refine h.goto hcurrent hgoto (Or.inl hholder) (fun _ _ ↦ hholder.trans hin)
    (fun hpre ↦ Or.inl (hidle hpre)) ?_ hpositive hle
  rintro (rfl | rfl)
  · cases hidle rfl
  · cases hidle rfl

section Points

theorem lock_tick (h : Guarded m) (hk : 0 ≤ m.sem.value) {pc : Pc} (heffect : m.effect = m.lock pc)
    (hpre : preemptible pc = false) (hdec : pc ≠ .decrement false) :
    Guarded m.tick ∧ 0 ≤ m.tick.sem.value := by
  have hvalue : (m.lock pc).sem.value = m.sem.value := by
    unfold Machine.lock
    split <;> rfl
  rw [Machine.tick, heffect]
  exact ⟨h.lock hpre hdec _, by simpa only [hvalue] using hk⟩

theorem unlock_tick (h : Guarded m) (hk : 0 ≤ m.sem.value) {pc : Pc}
    (heffect : m.effect = m.unlock pc) (hpc : pc = .idle ∨ pc = .yield ∨ pc = .testValue true) :
    Guarded m.tick ∧ 0 ≤ m.tick.sem.value := by
  rw [Machine.tick, heffect]
  exact ⟨h.unlock hpc _, hk⟩

theorem testValue_tick (h : Guarded m) (hk : 0 ≤ m.sem.value) (hpc : m.here = .testValue false) :
    Guarded m.tick ∧ 0 ≤ m.tick.sem.value := by
  have hin := h.holds hpc rfl (Or.inl rfl)
  simp only [Machine.tick, Machine.effect, hpc]
  refine ⟨h.stay hin ?_ rfl rfl rfl ?_ h.value_le, hk⟩
  · split <;> exact Or.inl rfl
  · split
    · simp
    · intro _
      simp only [Machine.goto]
      omega

theorem testQueue_tick (h : Guarded m) (hk : 0 ≤ m.sem.value) (hpc : m.here = .testQueue false) :
    Guarded m.tick ∧ 0 ≤ m.tick.sem.value := by
  have hin := h.holds hpc rfl (Or.inl rfl)
  simp only [Machine.tick, Machine.effect, hpc]
  refine ⟨h.stay hin ?_ rfl rfl rfl ?_ h.value_le, hk⟩
  · split
    · exact Or.inr rfl
    · exact Or.inl rfl
  · split <;> simp

theorem enqueue_tick (h : Guarded m) (hk : 0 ≤ m.sem.value) (hpc : m.here = .enqueue false) :
    Guarded m.tick ∧ 0 ≤ m.tick.sem.value := by
  have hin := h.holds hpc rfl (Or.inl rfl)
  simp only [Machine.tick, Machine.effect, hpc]
  exact ⟨h.stay hin (Or.inl rfl) rfl rfl rfl (by simp) h.value_le, hk⟩

theorem decrement_tick (h : Guarded m) (hpc : m.here = .decrement false) :
    Guarded m.tick ∧ 0 ≤ m.tick.sem.value := by
  have hin := h.holds hpc rfl (Or.inl rfl)
  have hpos := h.positive hpc
  have hle := h.value_le
  have hdec : i32 (m.sem.value - 1) = m.sem.value - 1 := i32_of_mem (by omega) (by omega)
  simp only [Machine.tick, Machine.effect, hpc, hdec]
  exact ⟨h.stay hin (Or.inl rfl) rfl rfl rfl (by simp) (by simp only; omega), by omega⟩

theorem increment_tick (h : Guarded m) (hk : 0 ≤ m.sem.value) (hpc : m.here = .increment)
    (hmax : m.sem.value ≠ int32Max) : Guarded m.tick ∧ 0 ≤ m.tick.sem.value := by
  have hin := h.holds hpc rfl (Or.inl rfl)
  have hle := h.value_le
  have hinc : i32 (m.sem.value + 1) = m.sem.value + 1 := i32_of_mem (by omega) (by omega)
  simp only [Machine.tick, Machine.effect, hpc, hinc]
  exact ⟨h.stay hin (Or.inl rfl) rfl rfl rfl (by simp) (by simp only; omega), by omega⟩

theorem testWaiting_tick (h : Guarded m) (hk : 0 ≤ m.sem.value) (hpc : m.here = .testWaiting) :
    Guarded m.tick ∧ 0 ≤ m.tick.sem.value := by
  have hin := h.holds hpc rfl (Or.inl rfl)
  simp only [Machine.tick, Machine.effect, hpc]
  refine ⟨h.stay hin ?_ rfl rfl rfl ?_ h.value_le, hk⟩
  · split <;> exact Or.inl rfl
  · split <;> simp

theorem wakeFirst_tick (h : Guarded m) (hk : 0 ≤ m.sem.value) (hpc : m.here = .wakeFirst) :
    Guarded m.tick ∧ 0 ≤ m.tick.sem.value := by
  have hin := h.holds hpc rfl (Or.inl rfl)
  simp only [Machine.tick, Machine.effect, hpc]
  exact ⟨h.stay hin (Or.inl rfl) rfl rfl rfl (by simp) h.value_le, hk⟩

theorem not_past_test (h : Guarded m) :
    m.here ≠ .testQueue true ∧ m.here ≠ .enqueue true ∧ m.here ≠ .decrement true := by
  refine ⟨fun hpc ↦ ?_, fun hpc ↦ ?_, fun hpc ↦ ?_⟩
  · simpa using h.not_resumed hpc rfl
  · simpa using h.not_resumed hpc rfl
  · simpa using h.not_resumed hpc rfl

theorem tick_guarded (h : Guarded m) (hk : 0 ≤ m.sem.value) (hbusy : m.here ≠ .idle)
    (hfresh : Fresh m .run) : Guarded m.tick ∧ 0 ≤ m.tick.sem.value := by
  obtain ⟨hnot, -, hmax⟩ := hfresh
  obtain ⟨hqueue, hput, htake⟩ := not_past_test h
  cases hpc : m.here with
  | idle => exact absurd hpc hbusy
  | waitLock => exact lock_tick h hk (by rw [Machine.effect, hpc]) rfl (by simp)
  | testValue r =>
    cases r with
    | true => exact absurd hpc hnot
    | false => exact testValue_tick h hk hpc
  | testQueue r =>
    cases r with
    | true => exact absurd hpc hqueue
    | false => exact testQueue_tick h hk hpc
  | enqueue r =>
    cases r with
    | true => exact absurd hpc hput
    | false => exact enqueue_tick h hk hpc
  | unlockWait r => exact unlock_tick h hk (by rw [Machine.effect, hpc]) (Or.inr (Or.inl rfl))
  | yield => exact unlock_tick h hk (by rw [Machine.effect, hpc]) (Or.inr (Or.inr rfl))
  | decrement r =>
    cases r with
    | true => exact absurd hpc htake
    | false => exact decrement_tick h hpc
  | unlockDone r => exact unlock_tick h hk (by rw [Machine.effect, hpc]) (Or.inl rfl)
  | postLock => exact lock_tick h hk (by rw [Machine.effect, hpc]) rfl (by simp)
  | increment => exact increment_tick h hk hpc fun heq ↦ hmax ⟨hpc, heq⟩
  | testWaiting => exact testWaiting_tick h hk hpc
  | wakeFirst => exact wakeFirst_tick h hk hpc
  | unlockPost => exact unlock_tick h hk (by rw [Machine.effect, hpc]) (Or.inl rfl)

end Points

theorem tick_overflow (hpc : m.here = .increment) (hmax : m.sem.value = int32Max) :
    m.tick.sem.value < 0 := by
  have hneg : i32 (int32Max + 1) < 0 := by decide
  simpa only [Machine.tick, Machine.effect, hpc, hmax] using hneg

theorem Guarded.call (h : Guarded m) {pc : Pc}
    (hpc : pc = .waitLock ∨ pc = .postLock) : Guarded (m.goto pc) := by
  refine h.goto rfl rfl (Or.inl rfl) ?_ ?_ ?_ ?_ h.value_le
  · rcases hpc with rfl | rfl <;> simp [touches, clears]
  · rcases hpc with rfl | rfl <;> simp [preemptible]
  · rcases hpc with rfl | rfl <;> simp
  · rcases hpc with rfl | rfl <;> simp

theorem step_kept (h : Guarded m) (hk : Kept m) (hs : Step m x m') :
    (Kept m' ↔ Fresh m x) ∧ (Kept m' → Guarded m') := by
  cases x with
  | switch process =>
    simp only [Step, exec] at hs
    split at hs
    · rename_i hp
      cases hs
      exact ⟨⟨fun _ ↦ trivial, fun _ ↦ hk⟩, fun _ ↦ h.switch hp.1 process⟩
    · cases hs
  | wait =>
    simp only [Step, exec] at hs
    split at hs
    · cases hs
      exact ⟨⟨fun _ ↦ trivial, fun _ ↦ hk⟩, fun _ ↦ h.call (Or.inl rfl)⟩
    · cases hs
  | post =>
    simp only [Step, exec] at hs
    split at hs
    · cases hs
      exact ⟨⟨fun _ ↦ trivial, fun _ ↦ hk⟩, fun _ ↦ h.call (Or.inr rfl)⟩
    · cases hs
  | run =>
    simp only [Step, exec] at hs
    split at hs
    · cases hs
    rename_i hbusy
    cases hs
    have hbroken : m.tick.broken = m.violates := by simp [Machine.tick, hk.1]
    have hiff : Kept m.tick ↔ Fresh m .run := by
      constructor
      · intro hk'
        have hnv : ¬ m.violates = true := by
          rw [← hbroken, hk'.1]
          exact Bool.false_ne_true
        refine ⟨fun hpc ↦ hnv (h.violates_iff.mpr (Or.inl hpc)), fun hpc ↦ ?_, fun hover ↦ ?_⟩
        · by_contra hheld
          exact hnv (h.violates_iff.mpr (Or.inr ⟨hpc, hheld⟩))
        have hneg := tick_overflow hover.1 hover.2
        have hpos := hk'.2
        omega
      · intro hfresh
        have hnv : m.violates = false := by
          rw [← Bool.not_eq_true]
          intro hv
          rcases h.violates_iff.mp hv with hpc | ⟨hpc, hheld⟩
          · exact hfresh.1 hpc
          · exact hheld (hfresh.2.1 hpc)
        exact ⟨hbroken.trans hnv, (tick_guarded h hk.2 (fun hi ↦ hbusy (Or.inl hi)) hfresh).2⟩
    exact ⟨hiff, fun hk' ↦ (tick_guarded h hk.2 (fun hi ↦ hbusy (Or.inl hi)) (hiff.mp hk')).1⟩

/-- Only the holder touches the semaphore, nobody clears another process's
lock and the counter stays non-negative, in exactly those runs in which no
process comes back from `runScheduler` while the lock is held or goes on to
test the counter after it, and no post overflows it. -/
theorem lock_discipline_iff {k₀ k : Kernel} {id a p current : ℕ} {v₀ : ℤ}
    {tr : List (Machine × Act)} (hv : v₀ ≤ int32Max)
    (hnew : ∀ b ∈ k₀.semaphores, (k₀.sem b).id ≠ id)
    (hopen : semOpen k₀ id v₀ a = some (k, p)) (hp : p ≠ 0)
    (hrun : Run Step (boot (k.sem p) k.pstate current) tr m) :
    Always Kept tr m ↔ ∀ e ∈ tr, Fresh e.1 e.2 := by
  obtain ⟨rfl, hnonneg, hmem, -⟩ := semOpen_new hnew hopen hp
  rw [hmem, update_self] at hrun
  have hboot : Guarded (boot ⟨id, v₀, [], 0⟩ k.pstate current) := by
    constructor
    · intro q hq
      cases hq
    · exact fun q _ ↦ Or.inl rfl
    · rintro q (hq | hq) <;> cases hq
    · intro hq
      cases hq
    · exact hv
  exact hrun.always_iff (fun _ _ _ h hk hs hk' ↦ (step_kept h hk hs).2 hk')
    (fun _ _ _ h hk hs ↦ (step_kept h hk hs).1) hboot ⟨rfl, hnonneg⟩

def bootOpened (v : ℤ) : Machine := boot ((opened v).sem 0x3000) (opened v).pstate 1

def wakened : List Act :=
  [.wait, .run, .run, .run, .run, .run, .switch 2, .post, .run, .run, .run, .run, .run,
    .switch 1, .run]

theorem lock_discipline_one_wait : ∃ tr m, Run Step (bootOpened 0) tr m ∧
    tr.map Prod.snd = wakened ∧ m.here = .testValue true ∧ Always Kept tr m := by
  have hend : (wakened.foldlM (fun m x ↦ if Fresh m x then exec m x else none)
      (bootOpened 0)).map Machine.here = some (.testValue true) := by decide +kernel
  obtain ⟨m, hm, hhere⟩ := Option.map_eq_some_iff.mp hend
  obtain ⟨tr, hrun, hacts, hfresh⟩ := run_of_checked hm
  exact ⟨tr, m, hrun, hacts, hhere, (lock_discipline_iff (by decide) (by simp [emptyKernel])
    (opened_eq (by decide)) (by decide) hrun).mpr hfresh⟩

/-- Process 1 waits, process 2 posts, process 1 comes back and finds the value
positive, process 2 takes the unit, and process 1 decrements all the same. -/
def preempted : List Act :=
  [.wait, .run, .run, .run, .run, .run, .switch 2, .post, .run, .run, .run, .run, .run,
    .switch 1, .run, .run, .switch 2, .wait, .run, .run, .run, .run, .switch 1, .run]

theorem value_negative : ∃ tr m,
    Run Step (bootOpened 0) tr m ∧ m.broken = true ∧
      m.sem.value < 0 := by
  have hend : (preempted.foldlM exec (bootOpened 0)).map
      (fun m ↦ (m.broken, m.sem.value)) = some (true, -1) := by decide +kernel
  obtain ⟨m, hm, heq⟩ := Option.map_eq_some_iff.mp hend
  obtain ⟨tr, hrun, -⟩ := run_of_foldlM hm
  obtain ⟨hbroken, hvalue⟩ := Prod.mk.inj heq
  exact ⟨tr, m, hrun, hbroken, by omega⟩

end ShellOS.Ipc.SemaphoreLock
