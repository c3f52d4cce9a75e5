import Mathlib.Algebra.BigOperators.Group.Finset.Basic
import Mathlib.Algebra.BigOperators.Ring.Finset
import ShellOS.Ipc.SemaphoreClose

namespace ShellOS.Userland.TestSync

open Library.Runs Ipc Ipc.Semaphores Ipc.SemaphoreClose Function

def sem : ℕ := 50

def rounds : ℕ := 100

/-- Where `inc` is between a `sem_wait` and the next `sem_post`: `slowInc` has
not begun, or has its sum in `aux`, or has stored it. -/
inductive Phase
  | begun
  | summed (aux : BitVec 64)
  | stored
  deriving DecidableEq

structure Local where
  i : ℕ
  phase : Phase

structure State where
  sys : System
  global : BitVec 64
  worker : ℕ → Local

inductive Act
  | sem (x : SemaphoreClose.Act)
  | sum (process : ℕ)
  | store (process : ℕ)

section Text

variable (pid : ℕ → ℕ) (workers : Finset ℕ)

def value (process : ℕ) : ℤ := if pid process % 2 ≠ 0 then 1 else -1

def Allowed (s : State) : SemaphoreClose.Act → Prop
  | .enter process _ => process ∈ workers
  | .wait process => (s.worker process).i < rounds
  | .post process => (s.worker process).phase = .stored
  | _ => True

instance (s : State) : DecidablePred (Allowed workers s)
  | .enter process _ => inferInstanceAs (Decidable (process ∈ workers))
  | .wait process => inferInstanceAs (Decidable ((s.worker process).i < rounds))
  | .post process => inferInstanceAs (Decidable ((s.worker process).phase = .stored))
  | .resume _ | .openCloser _ | .close => .isTrue trivial

def nextRound (w : ℕ → Local) : SemaphoreClose.Act → ℕ → Local
  | .post process => update w process ⟨(w process).i + 1, .begun⟩
  | _ => w

instance (w : Worker) : Decidable w.isCritical := by
  cases w <;> unfold Worker.isCritical <;> infer_instance

def exec (s : State) : Act → Option State
  | .sem x =>
    if Allowed workers s x then
      (SemaphoreClose.exec sem s.sys x).map fun t ↦
        { s with sys := t, worker := nextRound s.worker x }
    else none
  | .sum process =>
    let w := s.worker process
    if (s.sys.worker process).isCritical ∧ w.phase = .begun then
      let aux := s.global + BitVec.ofInt 64 (value pid process)
      some { s with worker := update s.worker process ⟨w.i, .summed aux⟩ }
    else none
  | .store process =>
    let w := s.worker process
    match w.phase with
    | .summed aux =>
      some { s with global := aux, worker := update s.worker process ⟨w.i, .stored⟩ }
    | _ => none

abbrev Step (s : State) (x : Act) (t : State) : Prop := exec pid workers s x = some t

def start (k : Kernel) : State := ⟨boot k, 0, fun _ ↦ ⟨0, .begun⟩⟩

/-- The semaphore is closed only while no worker has it open. -/
def Careful (s : State) : Act → Prop
  | .sem x => SemaphoreClose.Careful s.sys x
  | _ => True

end Text

def stores (s : State) (process : ℕ) : ℕ :=
  (s.worker process).i + if (s.worker process).phase = .stored then 1 else 0

variable {pid : ℕ → ℕ} {workers : Finset ℕ} {s t : State} {x : Act} {p q : ℕ}

/-- Who is between its calls has begun nothing, a sum that was not stored is
still right, and the counter has all that was stored. -/
structure Invariant (pid : ℕ → ℕ) (workers : Finset ℕ) (s : State) : Prop where
  sys : SemaphoreClose.Invariant sem s.sys
  outside : ∀ p, ¬ (s.sys.worker p).isCritical → (s.worker p).phase = .begun
  out : ∀ p ∉ workers, s.sys.worker p = .out
  summed : ∀ p aux, (s.worker p).phase = .summed aux →
    aux = s.global + BitVec.ofInt 64 (value pid p)
  total : s.global = BitVec.ofInt 64 (∑ p ∈ workers, value pid p * stores s p)

section Sem

variable {x : SemaphoreClose.Act} {sys : System}

theorem exec_update (h : SemaphoreClose.exec sem s.sys x = some sys) :
    sys.worker = s.sys.worker ∨ ∃ process w, sys.worker = update s.sys.worker process w ∧
      ((∃ newSem, x = .enter process newSem ∧ s.sys.worker process = .out) ∨
        (x = .post process ∧ (s.sys.worker process).isCritical) ∨
        ∃ hd, s.sys.worker process = .opened hd ∨ s.sys.worker process = .waiting hd) := by
  cases x with
  | enter process newSem =>
    simp only [SemaphoreClose.exec] at h
    split at h
    · rename_i hout
      obtain ⟨r, hopen, rfl⟩ := Option.map_eq_some_iff.mp h
      have hworker : r.1.worker = s.sys.worker := by
        unfold openSem at hopen
        split at hopen
        · cases hopen
        · obtain ⟨_, -, rfl⟩ := Option.map_eq_some_iff.mp hopen
          rfl
      refine .inr ⟨process, afterOpen r.2, ?_, .inl ⟨newSem, rfl, hout⟩⟩
      change update r.1.worker process _ = _
      rw [hworker]
    · cases h
  | wait process =>
    simp only [SemaphoreClose.exec] at h
    split at h
    · rename_i hd hopened
      obtain ⟨r, -, rfl⟩ := Option.map_eq_some_iff.mp h
      exact .inr ⟨process, afterWait hd r.2, rfl, .inr (.inr ⟨hd, .inl hopened⟩)⟩
    · cases h
  | resume process =>
    simp only [SemaphoreClose.exec] at h
    split at h
    · rename_i hd hwaiting
      split at h
      · cases h
        exact .inr ⟨process, _, rfl, .inr (.inr ⟨hd, .inr hwaiting⟩)⟩
      · cases h
    · cases h
  | post process =>
    simp only [SemaphoreClose.exec] at h
    split at h
    · rename_i hd hcritical
      obtain ⟨r, -, rfl⟩ := Option.map_eq_some_iff.mp h
      refine .inr ⟨process, .opened hd, rfl, .inr (.inl ⟨rfl, ?_⟩)⟩
      rw [hcritical]
      trivial
    · cases h
  | openCloser newSem =>
    simp only [SemaphoreClose.exec] at h
    split at h
    · obtain ⟨r, hopen, rfl⟩ := Option.map_eq_some_iff.mp h
      unfold openSem at hopen
      split at hopen
      · cases hopen
      · obtain ⟨_, -, rfl⟩ := Option.map_eq_some_iff.mp hopen
        exact .inl rfl
    · cases h
  | close =>
    simp only [SemaphoreClose.exec] at h
    split at h
    · obtain ⟨r, -, rfl⟩ := Option.map_eq_some_iff.mp h
      exact .inl rfl
    · cases h

theorem exec_out (h : SemaphoreClose.exec sem s.sys x = some sys)
    (hx : ∀ newSem, x ≠ .enter p newSem) (hp : s.sys.worker p = .out) : sys.worker p = .out := by
  rcases exec_update h with hsame | ⟨process, w, hworker, hcase⟩
  · rw [hsame, hp]
  · have hne : p ≠ process := by
      rintro rfl
      rw [hp] at hcase
      rcases hcase with ⟨newSem, rfl, -⟩ | ⟨-, hcritical⟩ | ⟨hd, hopened | hwaiting⟩
      · exact hx newSem rfl
      · exact hcritical
      · cases hopened
      · cases hwaiting
    rw [hworker, update_of_ne hne, hp]

theorem exec_critical (h : SemaphoreClose.exec sem s.sys x = some sys) (hx : x ≠ .post p)
    (hp : (s.sys.worker p).isCritical) : (sys.worker p).isCritical := by
  rcases exec_update h with hsame | ⟨process, w, hworker, hcase⟩
  · rw [hsame]
    exact hp
  · have hne : p ≠ process := by
      rintro rfl
      rcases hcase with ⟨newSem, -, hout⟩ | ⟨hpost, -⟩ | ⟨hd, hopened | hwaiting⟩
      · rw [hout] at hp
        exact hp
      · exact hx hpost
      · rw [hopened] at hp
        exact hp
      · rw [hwaiting] at hp
        exact hp
    rw [hworker, update_of_ne hne]
    exact hp

end Sem

section Steps

theorem sum_add {f g : ℕ → ℤ} {d : ℤ} (hp : p ∈ workers) (hone : g p = f p + d)
    (hrest : ∀ q, q ≠ p → g q = f q) : ∑ q ∈ workers, g q = ∑ q ∈ workers, f q + d := by
  have hothers : ∑ q ∈ workers.erase p, g q = ∑ q ∈ workers.erase p, f q :=
    Finset.sum_congr rfl fun q hq ↦ hrest q (Finset.ne_of_mem_erase hq)
  rw [← Finset.add_sum_erase workers g hp, ← Finset.add_sum_erase workers f hp, hone, hothers]
  exact add_right_comm _ _ _

theorem sem_step {x : SemaphoreClose.Act} (hinv : Invariant pid workers s)
    (hx : SemaphoreClose.Careful s.sys x) (hs : Step pid workers s (.sem x) t) :
    Invariant pid workers t := by
  simp only [Step, exec] at hs
  split at hs
  · rename_i hallowed
    obtain ⟨sys, hexec, rfl⟩ := Option.map_eq_some_iff.mp hs
    have hsys := step_invariant hinv.sys hx hexec
    have hout : ∀ p ∉ workers, sys.worker p = .out := by
      intro p hp
      refine exec_out hexec (fun newSem hx ↦ ?_) (hinv.out p hp)
      rw [hx] at hallowed
      exact hp hallowed
    by_cases hpost : ∃ q, x = .post q
    · obtain ⟨q, rfl⟩ := hpost
      have hstored : (s.worker q).phase = .stored := hallowed
      have hself : update s.worker q ⟨(s.worker q).i + 1, .begun⟩ q =
        ⟨(s.worker q).i + 1, .begun⟩ := update_self ..
      have hstores : ∀ p, stores { s with
          sys := sys, worker := update s.worker q ⟨(s.worker q).i + 1, .begun⟩ } p = stores s p := by
        intro p
        by_cases hp : p = q
        · subst hp
          simp [stores, hstored]
        · simp [stores, hp]
      refine ⟨hsys, fun p hp ↦ ?_, hout, fun p aux hp ↦ ?_, ?_⟩
      · by_cases hpq : p = q
        · rw [hpq]
          exact congrArg Local.phase hself
        · change (update s.worker q _ p).phase = _
          rw [update_of_ne hpq]
          refine hinv.outside p (fun hcritical ↦ hp (exec_critical hexec ?_ hcritical))
          intro heq
          exact hpq (by injection heq with heq; exact heq.symm)
      · by_cases hpq : p = q
        · rw [hpq] at hp
          change (update s.worker q _ q).phase = _ at hp
          rw [hself] at hp
          cases hp
        · change (update s.worker q _ p).phase = _ at hp
          rw [update_of_ne hpq] at hp
          exact hinv.summed p aux hp
      · change s.global = _
        rw [hinv.total]
        exact congrArg _ (Finset.sum_congr rfl fun p _ ↦ by rw [← hstores p]; rfl)
    · have hsame : nextRound s.worker x = s.worker := by
        cases x <;> first
          | rfl
          | exact absurd ⟨_, rfl⟩ hpost
      rw [hsame]
      refine ⟨hsys, fun p hp ↦ hinv.outside p fun hcritical ↦ ?_, hout, hinv.summed, hinv.total⟩
      exact hp (exec_critical hexec (fun heq ↦ hpost ⟨p, heq⟩) hcritical)
  · cases hs

theorem sum_step (hinv : Invariant pid workers s) (hs : Step pid workers s (.sum p) t) :
    Invariant pid workers t := by
  simp only [Step, exec] at hs
  split at hs
  · rename_i hp
    cases hs
    let aux := s.global + BitVec.ofInt 64 (value pid p)
    have hself : update s.worker p ⟨(s.worker p).i, .summed aux⟩ p = ⟨(s.worker p).i, .summed aux⟩ :=
      update_self ..
    refine ⟨hinv.sys, fun q hq ↦ ?_, hinv.out, fun q a hq ↦ ?_, ?_⟩
    · have hqp : q ≠ p := fun h ↦ hq (h ▸ hp.1)
      change (update s.worker p _ q).phase = _
      rw [update_of_ne hqp]
      exact hinv.outside q hq
    · change (update s.worker p _ q).phase = _ at hq
      by_cases hqp : q = p
      · subst hqp
        rw [hself] at hq
        injection hq with hq
        exact hq.symm
      · rw [update_of_ne hqp] at hq
        exact hinv.summed q a hq
    · change s.global = _
      rw [hinv.total]
      refine congrArg _ (Finset.sum_congr rfl fun q _ ↦ ?_)
      by_cases hqp : q = p
      · subst hqp
        simp [stores, hp.2]
      · simp [stores, hqp]
  · cases hs

theorem store_step (hinv : Invariant pid workers s) (hs : Step pid workers s (.store p) t) :
    Invariant pid workers t := by
  simp only [Step, exec] at hs
  split at hs
  · rename_i aux hphase
    cases hs
    have hcritical : ∀ q, (s.worker q).phase ≠ .begun → (s.sys.worker q).isCritical := by
      intro q hq
      by_contra hout
      exact hq (hinv.outside q hout)
    have hp : (s.sys.worker p).isCritical := hcritical p (by rw [hphase]; simp)
    have hmem : p ∈ workers := by
      by_contra hout
      rw [hinv.out p hout] at hp
      exact hp
    have hself : update s.worker p ⟨(s.worker p).i, .stored⟩ p = ⟨(s.worker p).i, .stored⟩ :=
      update_self ..
    obtain ⟨-, honly⟩ := hinv.sys.safe
    refine ⟨hinv.sys, fun q hq ↦ ?_, hinv.out, fun q a hq ↦ ?_, ?_⟩
    · have hqp : q ≠ p := fun h ↦ hq (h ▸ hp)
      change (update s.worker p _ q).phase = _
      rw [update_of_ne hqp]
      exact hinv.outside q hq
    · change (update s.worker p _ q).phase = _ at hq
      by_cases hqp : q = p
      · rw [hqp, hself] at hq
        cases hq
      · rw [update_of_ne hqp] at hq
        exact absurd (honly q p (hcritical q (by rw [hq]; simp)) hp) hqp
    · change aux = _
      rw [hinv.summed p aux hphase, hinv.total, ← BitVec.ofInt_add]
      refine congrArg _ (sum_add hmem ?_ fun q hqp ↦ ?_).symm
      · simp [stores, hphase, mul_add]
      · simp [stores, hqp]
  · cases hs

theorem step_kept (hinv : Invariant pid workers s) (hx : Careful s x) (hs : Step pid workers s x t) :
    Invariant pid workers t := by
  cases x with
  | sem x => exact sem_step hinv hx hs
  | sum p => exact sum_step hinv hs
  | store p => exact store_step hinv hs

end Steps

section Total

variable {k : Kernel} {tr : List (State × Act)}

theorem start_invariant (hk : TableOk k) (hid : ∀ b ∈ k.semaphores, (k.sem b).id ≠ sem) :
    Invariant pid workers (start k) := by
  refine ⟨⟨hk, rfl, .inl ⟨hid, fun _ ↦ rfl, rfl⟩⟩, fun _ _ ↦ rfl, fun _ _ ↦ rfl, ?_, ?_⟩
  · intro p aux hp
    cases hp
  · simp [start, stores]

/-- No update of the counter is lost in any interleaving in which the semaphore
is closed only while no worker has it open: the counter is the sum of what was
stored, and 0 in the end when the workers' process identifiers are as often odd
as even. -/
theorem no_lost_update (hk : TableOk k) (hid : ∀ b ∈ k.semaphores, (k.sem b).id ≠ sem)
    (hrun : Run (Step pid workers) (start k) tr s) (hcareful : ∀ e ∈ tr, Careful e.1 e.2) :
    s.global = BitVec.ofInt 64 (∑ p ∈ workers, value pid p * stores s p) ∧
      ((∀ p ∈ workers, stores s p = rounds) → ∑ p ∈ workers, value pid p = 0 → s.global = 0) := by
  have hinv : Invariant pid workers s :=
    hrun.invariant_of (fun _ _ _ h hx hs ↦ step_kept h hx hs) hcareful (start_invariant hk hid)
  refine ⟨hinv.total, fun hdone hbalanced ↦ ?_⟩
  have hsum : ∑ p ∈ workers, value pid p * stores s p = ∑ p ∈ workers, value pid p * rounds :=
    Finset.sum_congr rfl fun p hp ↦ by rw [hdone p hp]
  rw [hinv.total, hsum, ← Finset.sum_mul, hbalanced, zero_mul]
  rfl

def oneRound : List Act :=
  [.sem (.enter 1 0x3000), .sem (.enter 2 0x4000), .sem (.wait 1), .sum 1, .sem (.wait 2), .store 1,
    .sem (.post 1)]

def roomy (s : State) : Act → Bool
  | .sem (.wait process) | .sem (.resume process) =>
    (s.sys.worker process).handle.all fun h ↦ (s.sys.kernel.sem h.address).value ≠ 0 ∨
      (s.sys.kernel.sem h.address).waiting ≠ processLimit
  | .sem .close => false
  | _ => true

theorem careful_of_roomy (h : roomy s x = true) : Careful s x := by
  have hroom : ∀ process, (s.sys.worker process).handle.all (fun h ↦
      (s.sys.kernel.sem h.address).value ≠ 0 ∨
        (s.sys.kernel.sem h.address).waiting ≠ processLimit) = true →
      ∀ h, (s.sys.worker process).handle = some h → QueueRoom s.sys h := by
    intro process hall h hh ⟨hvalue, hwaiting⟩
    rw [hh] at hall
    simp [hvalue, hwaiting] at hall
  cases x with
  | sem x =>
    cases x with
    | wait process => exact hroom process h
    | resume process => exact hroom process h
    | close => cases h
    | enter process newSem => trivial
    | post process => trivial
    | openCloser newSem => trivial
  | sum process => trivial
  | store process => trivial

theorem no_lost_update_one : ∃ tr s, Run (Step (· + 2) {1, 2}) (start emptyKernel) tr s ∧
    tr.map Prod.snd = oneRound ∧ s.global = 1 ∧ s.global =
      BitVec.ofInt 64 (∑ p ∈ ({1, 2} : Finset ℕ), value (· + 2) p * stores s p) := by
  have hend : (oneRound.foldlM (fun s x ↦ if roomy s x then exec (· + 2) {1, 2} s x else none)
      (start emptyKernel)).map State.global = some 1 := by decide +kernel
  obtain ⟨s, hs, hglobal⟩ := Option.map_eq_some_iff.mp hend
  obtain ⟨tr, hrun, hacts, hroomy⟩ := run_of_checked hs
  have hcareful : ∀ e ∈ tr, Careful e.1 e.2 := fun e he ↦ careful_of_roomy (hroomy e he)
  exact ⟨tr, s, hrun, hacts, hglobal,
    (no_lost_update emptyKernel_ok (by simp [emptyKernel]) hrun hcareful).1⟩

end Total

end ShellOS.Userland.TestSync
