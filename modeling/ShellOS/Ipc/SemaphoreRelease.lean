import ShellOS.Ipc.Semaphores
import ShellOS.Library.Runs

namespace ShellOS.Ipc.SemaphoreRelease

open Library.Runs Semaphores Function

/-- The kernel, the pointers that `sem_open` has returned, and the semaphore
in which each process waits. -/
structure System where
  kernel : Kernel
  opened : List ℕ
  waits : ℕ → Option ℕ

inductive Act
  | semOpen (id : ℕ) (value : ℤ) (newSem : ℕ)
  | semClose (sem : ℕ)
  | semWait (process sem : ℕ)
  | resume (process : ℕ)
  | semPost (sem : ℕ)

def openedAfter (opened : List ℕ) (p : ℕ) : List ℕ := if p = 0 then opened else p :: opened

def waitsAfter (s : System) (process sem : ℕ) : Waited → ℕ → Option ℕ
  | .returned _ => update s.waits process none
  | .blocked => update s.waits process (some sem)

/-- A call runs to its return or its wait, and a process that waits goes on
once it is ready. Any pointer from `sem_open` may be passed, also one that was
closed: its memory is then as it was left. -/
inductive Step : System → Act → System → Prop
  | semOpen {s : System} {id newSem p : ℕ} {value : ℤ} {k : Kernel} :
      newSem ≠ 0 → newSem ∉ s.kernel.semaphores →
      semOpen s.kernel id value newSem = some (k, p) →
      Step s (.semOpen id value newSem) ⟨k, openedAfter s.opened p, s.waits⟩
  | semClose {s : System} {sem : ℕ} {k : Kernel} {i : ℤ} :
      sem ∈ s.opened → semClose s.kernel sem = some (k, i) →
      Step s (.semClose sem) ⟨k, s.opened, s.waits⟩
  | semWait {s : System} {process sem : ℕ} {k : Kernel} {out : Waited} :
      s.waits process = none → sem ∈ s.opened → semWait s.kernel process sem = some (k, out) →
      Step s (.semWait process sem) ⟨k, s.opened, waitsAfter s process sem out⟩
  | resume {s : System} {process sem : ℕ} {k : Kernel} {out : Waited} :
      s.waits process = some sem → s.kernel.pstate process = 1 →
      semWaitLoop s.kernel process sem = (k, out) →
      Step s (.resume process) ⟨k, s.opened, waitsAfter s process sem out⟩
  | semPost {s : System} {sem : ℕ} {k : Kernel} {i : ℤ} :
      sem ∈ s.opened → semPost s.kernel sem = some (k, i) →
      Step s (.semPost sem) ⟨k, s.opened, s.waits⟩

def boot (k : Kernel) : System := ⟨k, [], fun _ ↦ none⟩

def Free (s : System) : Prop := s.kernel.mutexSem = 0 ∧ ∀ a ∈ s.opened, (s.kernel.sem a).lock = 0

structure NoSpin (s : System) : Prop where
  opens : ∀ id value newSem, (semOpen s.kernel id value newSem).isSome
  closes : ∀ a ∈ s.opened, (semClose s.kernel a).isSome
  waits : ∀ a ∈ s.opened, ∀ process, (semWait s.kernel process a).isSome
  posts : ∀ a ∈ s.opened, (semPost s.kernel a).isSome

/-- `sem_open` has room and a value that is not negative, and `sem_wait` does
not meet a full queue on its way in. -/
def Careful (s : System) : Act → Prop
  | .semOpen _ value _ => ¬ (s.kernel.semaphores.length = maxSem ∨ value < 0)
  | .semWait _ sem => ¬ ((s.kernel.sem sem).value = 0 ∧ (s.kernel.sem sem).waiting = processLimit)
  | _ => True

structure Returned (s : System) : Prop where
  table : ∀ a ∈ s.kernel.semaphores, a ∈ s.opened
  waits : ∀ process a, s.waits process = some a → a ∈ s.opened

variable {s s' : System} {k k' : Kernel} {x : Act} {a sem semId newSem p process : ℕ} {value i : ℤ}
variable {out : Waited}

theorem mem_openedAfter {l : List ℕ} : a ∈ openedAfter l p ↔ a ∈ l ∨ a = p ∧ p ≠ 0 := by
  unfold openedAfter
  split
  · rename_i h
    simp [h]
  · rename_i h
    simp [h, or_comm]

section Spec

/-- `sem_open` leaves `mutexSem` taken exactly when it refuses. -/
theorem semOpen_frees (hcall : semOpen k semId value newSem = some (k', p)) :
    k'.mutexSem = 0 ↔ ¬ (k.semaphores.length = maxSem ∨ value < 0) := by
  obtain ⟨-, ⟨hrefused, rfl, -⟩ | ⟨hok, ⟨-, -, rfl⟩ | ⟨-, -, rfl⟩⟩⟩ := semOpen_cases hcall
  · exact iff_of_false Nat.one_ne_zero (not_not.mpr hrefused)
  · exact iff_of_true rfl hok
  · exact iff_of_true rfl hok

theorem semOpen_locks (hcall : semOpen k semId value newSem = some (k', p)) :
    (∀ a, (k'.sem a).lock = (k.sem a).lock ∨ (k'.sem a).lock = 0) ∧
      (p ≠ 0 → p ∈ k.semaphores ∨ (k'.sem p).lock = 0) ∧
      ∀ a ∈ k'.semaphores, a ∈ k.semaphores ∨ a = newSem ∧ p = newSem := by
  obtain ⟨-, ⟨-, rfl, rfl⟩ | ⟨-, ⟨hmem, -, rfl⟩ | ⟨-, rfl, rfl⟩⟩⟩ := semOpen_cases hcall
  · exact ⟨fun a ↦ Or.inl rfl, fun hp ↦ absurd rfl hp, fun a ha ↦ Or.inl ha⟩
  · exact ⟨fun a ↦ Or.inl rfl, fun _ ↦ Or.inl hmem, fun a ha ↦ Or.inl ha⟩
  · refine ⟨fun a ↦ ?_, fun _ ↦ by simp, fun a ha ↦ ?_⟩
    · by_cases ha : a = p
      · right
        simp [ha]
      · left
        simp [ha]
    · exact (List.mem_append.mp ha).imp id (fun ha ↦ ⟨List.mem_singleton.mp ha, rfl⟩)

theorem semClose_frees (hmutex : k.mutexSem = 0) (hcall : semClose k sem = some (k', i)) :
    k'.mutexSem = 0 ∧ k'.sem = k.sem ∧ ∀ a ∈ k'.semaphores, a ∈ k.semaphores := by
  obtain ⟨-, rfl, -⟩ | ⟨-, -, ⟨-, rfl, -⟩ | ⟨-, rfl, -⟩⟩ := semClose_cases hcall
  · exact ⟨hmutex, rfl, fun a ha ↦ ha⟩
  · exact ⟨rfl, rfl, fun a ha ↦ List.mem_of_mem_eraseP ha⟩
  · exact ⟨rfl, rfl, fun a ha ↦ ha⟩

structure OnlySem (k k' : Kernel) (sem : ℕ) : Prop where
  mutex : k'.mutexSem = k.mutexSem
  table : k'.semaphores = k.semaphores
  other : ∀ a, a ≠ sem → k'.sem a = k.sem a

theorem semWaitLoop_lock (hcall : semWaitLoop k process sem = (k', out)) :
    OnlySem k k' sem ∧ ((k'.sem sem).lock = 0 ↔
      ¬ ((k.sem sem).value = 0 ∧ (k.sem sem).waiting = processLimit) ∨ (k.sem sem).lock = 0) := by
  rcases semWaitLoop_cases k process sem with ⟨hv, heq⟩ | ⟨hv, hw, heq⟩ | ⟨hv, hw, heq⟩
  · obtain ⟨rfl, -⟩ := Prod.mk.inj (hcall.symm.trans heq)
    exact ⟨⟨rfl, rfl, fun a ha ↦ by simp [ha]⟩, by simp [hv]⟩
  · obtain ⟨rfl, -⟩ := Prod.mk.inj (hcall.symm.trans heq)
    exact ⟨⟨rfl, rfl, fun a _ ↦ rfl⟩, by simp [hv, hw]⟩
  · obtain ⟨rfl, -⟩ := Prod.mk.inj (hcall.symm.trans heq)
    exact ⟨⟨rfl, rfl, fun a ha ↦ by simp [ha]⟩, by simp [hw]⟩

theorem semWait_lock (hcall : semWait k process sem = some (k', out)) :
    OnlySem k k' sem ∧ ((k'.sem sem).lock = 0 ↔
      ¬ ((k.sem sem).value = 0 ∧ (k.sem sem).waiting = processLimit)) := by
  unfold semWait at hcall
  split at hcall
  · cases hcall
  obtain ⟨honly, hlock⟩ := semWaitLoop_lock (Option.some.inj hcall)
  refine ⟨⟨honly.mutex, honly.table, fun a ha ↦ ?_⟩, ?_⟩
  · rw [honly.other a ha]
    simp [ha]
  · rw [hlock]
    simp [Semaphore.waiting]

theorem semPost_lock (hcall : semPost k sem = some (k', i)) :
    OnlySem k k' sem ∧ (k'.sem sem).lock = 0 := by
  simp only [semPost] at hcall
  split at hcall
  · cases hcall
  split at hcall <;> cases hcall <;>
    exact ⟨⟨rfl, rfl, fun a ha ↦ by simp [ha]⟩, by simp⟩

end Spec

theorem free_of_onlySem {opened : List ℕ} {waits : ℕ → Option ℕ} (h : Free s)
    (hopened : opened = s.opened) (hk : OnlySem s.kernel k sem) (hlock : (k.sem sem).lock = 0) :
    Free ⟨k, opened, waits⟩ := by
  subst hopened
  refine ⟨hk.mutex.trans h.1, fun a ha ↦ ?_⟩
  by_cases hsem : a = sem
  · rw [hsem]
    exact hlock
  · change (k.sem a).lock = 0
    rw [hk.other a hsem]
    exact h.2 a ha

theorem waitsAfter_mem (hreturned : Returned s) (hsem : sem ∈ s.opened) {q : ℕ}
    (hq : waitsAfter s process sem out q = some a) : a ∈ s.opened := by
  have hcases : waitsAfter s process sem out q = s.waits q ∨
      waitsAfter s process sem out q = none ∨ waitsAfter s process sem out q = some sem := by
    by_cases hqp : q = process
    · subst hqp
      cases out <;> simp [waitsAfter]
    · cases out <;> simp [waitsAfter, hqp]
  rcases hcases with heq | heq | heq
  · exact hreturned.waits q a (heq.symm.trans hq)
  · cases heq.symm.trans hq
  · rw [← Option.some.inj (heq.symm.trans hq)]
    exact hsem

theorem step_returned (hmutex : s.kernel.mutexSem = 0) (hreturned : Returned s)
    (hs : Step s x s') : Returned s' := by
  cases hs with
  | semOpen hnull hnew hcall =>
    obtain ⟨-, -, htable⟩ := semOpen_locks hcall
    constructor
    · intro a ha
      rw [mem_openedAfter]
      rcases htable a ha with hold | ⟨rfl, rfl⟩
      · exact Or.inl (hreturned.table a hold)
      · exact Or.inr ⟨rfl, hnull⟩
    · exact fun q a hq ↦ mem_openedAfter.mpr (Or.inl (hreturned.waits q a hq))
  | semClose hsem hcall =>
    obtain ⟨-, -, htable⟩ := semClose_frees hmutex hcall
    exact ⟨fun a ha ↦ hreturned.table a (htable a ha), hreturned.waits⟩
  | semWait _ hsem hcall =>
    have htable := (semWait_lock hcall).1.table
    exact ⟨fun a ha ↦ hreturned.table a (htable ▸ ha),
      fun q a hq ↦ waitsAfter_mem (s := s) hreturned hsem hq⟩
  | resume hwaits _ hcall =>
    have htable := (semWaitLoop_lock hcall).1.table
    exact ⟨fun a ha ↦ hreturned.table a (htable ▸ ha),
      fun q a hq ↦ waitsAfter_mem (s := s) hreturned (hreturned.waits _ _ hwaits) hq⟩
  | semPost _ hcall =>
    have htable := (semPost_lock hcall).1.table
    exact ⟨fun a ha ↦ hreturned.table a (htable ▸ ha), hreturned.waits⟩

theorem step_free_iff (h : Free s) (hreturned : Returned s) (hs : Step s x s') :
    Free s' ↔ Careful s x := by
  cases hs with
  | semOpen hnull hnew hcall =>
    obtain ⟨hlocks, hp, -⟩ := semOpen_locks hcall
    refine Iff.trans ⟨And.left, fun hmutex ↦ ⟨hmutex, fun a ha ↦ ?_⟩⟩ (semOpen_frees hcall)
    have hkept : ∀ a ∈ s.opened, _ = 0 := fun a ha ↦
      (hlocks a).elim (fun heq ↦ heq.trans (h.2 a ha)) id
    rcases mem_openedAfter.mp ha with hold | ⟨rfl, hnull⟩
    · exact hkept a hold
    · exact (hp hnull).elim (fun hmem ↦ hkept a (hreturned.table a hmem)) id
  | semClose hsem hcall =>
    obtain ⟨hmutex, hsame, -⟩ := semClose_frees h.1 hcall
    refine iff_of_true ⟨hmutex, fun a ha ↦ ?_⟩ trivial
    rw [hsame]
    exact h.2 a ha
  | semWait _ hsem hcall =>
    obtain ⟨honly, hlock⟩ := semWait_lock hcall
    refine Iff.trans ⟨fun hfree ↦ hfree.2 _ hsem, fun hlock ↦ ?_⟩ hlock
    exact free_of_onlySem h rfl honly hlock
  | resume hwaits _ hcall =>
    -- the process does not hold the lock, and at most frees it once more
    obtain ⟨honly, hlock⟩ := semWaitLoop_lock hcall
    have hfree := h.2 _ (hreturned.waits _ _ hwaits)
    exact iff_of_true (free_of_onlySem h rfl honly (hlock.mpr (Or.inr hfree))) trivial
  | semPost _ hcall =>
    obtain ⟨honly, hlock⟩ := semPost_lock hcall
    exact iff_of_true (free_of_onlySem h rfl honly hlock) trivial

theorem Free.noSpin (h : Free s) : NoSpin s := by
  refine ⟨fun semId value newSem ↦ ?_, fun a _ ↦ ?_, fun a ha process ↦ ?_, fun a ha ↦ ?_⟩
  · unfold semOpen
    rw [if_neg (not_not.mpr h.1)]
    split
    · rfl
    · split <;> rfl
  · unfold semClose
    rw [if_neg (not_not.mpr h.1)]
    split_ifs <;> rfl
  · unfold semWait
    rw [if_neg (not_not.mpr (h.2 a ha))]
    rfl
  · simp only [semPost]
    rw [if_neg (not_not.mpr (h.2 a ha))]
    split <;> rfl

/-- From an empty table the locks are free after every call of a run exactly
when all its steps are careful, and then no further call spins. -/
theorem locks_released {tr : List (System × Act)} (hempty : k.semaphores = [])
    (hmutex : k.mutexSem = 0) (hrun : Run Step (boot k) tr s) :
    (Always Free tr s ↔ ∀ e ∈ tr, Careful e.1 e.2) ∧
      ((∀ e ∈ tr, Careful e.1 e.2) → NoSpin s) := by
  have hfree : Free (boot k) := ⟨hmutex, by simp [boot]⟩
  have hreturned : Returned (boot k) := ⟨by simp [boot, hempty], by simp [boot]⟩
  have hiff : Always Free tr s ↔ ∀ e ∈ tr, Careful e.1 e.2 := by
    apply hrun.always_iff (I := Returned) _ _ hreturned hfree
    · intro a x b hI hP hs _
      exact step_returned hP.1 hI hs
    · intro a x b hI hP hs
      exact step_free_iff hP hI hs
  exact ⟨hiff, fun hcareful ↦ (hiff.mpr hcareful).2.noSpin⟩

section Perform

instance : DecidablePred (Careful s)
  | .semOpen _ value _ =>
    inferInstanceAs (Decidable (¬ (s.kernel.semaphores.length = maxSem ∨ value < 0)))
  | .semWait _ sem => inferInstanceAs (Decidable (¬ ((s.kernel.sem sem).value = 0 ∧
      (s.kernel.sem sem).waiting = processLimit)))
  | .semClose _ | .resume _ | .semPost _ => inferInstanceAs (Decidable True)

def perform (s : System) : Act → Option System
  | .semOpen id value newSem =>
    if newSem ≠ 0 ∧ newSem ∉ s.kernel.semaphores then
      (semOpen s.kernel id value newSem).map fun r ↦ ⟨r.1, openedAfter s.opened r.2, s.waits⟩
    else none
  | .semClose sem =>
    if sem ∈ s.opened then
      (semClose s.kernel sem).map fun r ↦ ⟨r.1, s.opened, s.waits⟩
    else none
  | .semWait process sem =>
    if s.waits process = none ∧ sem ∈ s.opened then
      (semWait s.kernel process sem).map fun r ↦ ⟨r.1, s.opened, waitsAfter s process sem r.2⟩
    else none
  | .resume process =>
    match s.waits process with
    | none => none
    | some sem =>
      if s.kernel.pstate process = 1 then
        let r := semWaitLoop s.kernel process sem
        some ⟨r.1, s.opened, waitsAfter s process sem r.2⟩
      else none
  | .semPost sem =>
    if sem ∈ s.opened then
      (semPost s.kernel sem).map fun r ↦ ⟨r.1, s.opened, s.waits⟩
    else none

theorem step_perform (h : perform s x = some s') : Step s x s' := by
  cases x with
  | semOpen id value newSem =>
    obtain ⟨⟨hnull, hnew⟩, h⟩ := Option.ite_none_right_eq_some.mp h
    obtain ⟨⟨k, p⟩, hcall, rfl⟩ := Option.map_eq_some_iff.mp h
    exact .semOpen hnull hnew hcall
  | semClose sem =>
    obtain ⟨hsem, h⟩ := Option.ite_none_right_eq_some.mp h
    obtain ⟨⟨k, i⟩, hcall, rfl⟩ := Option.map_eq_some_iff.mp h
    exact .semClose hsem hcall
  | semWait process sem =>
    obtain ⟨⟨hidle, hsem⟩, h⟩ := Option.ite_none_right_eq_some.mp h
    obtain ⟨⟨k, out⟩, hcall, rfl⟩ := Option.map_eq_some_iff.mp h
    exact .semWait hidle hsem hcall
  | resume process =>
    cases hwaits : s.waits process with
    | none => simp [perform, hwaits] at h
    | some sem =>
      simp only [perform, hwaits] at h
      obtain ⟨hready, h⟩ := Option.ite_none_right_eq_some.mp h
      cases h
      exact .resume hwaits hready rfl
  | semPost sem =>
    obtain ⟨hsem, h⟩ := Option.ite_none_right_eq_some.mp h
    obtain ⟨⟨k, i⟩, hcall, rfl⟩ := Option.map_eq_some_iff.mp h
    exact .semPost hsem hcall

theorem run_of_perform {acts : List Act}
    (h : acts.foldlM (fun s x ↦ if Careful s x then perform s x else none) s = some s') :
    ∃ tr, Run Step s tr s' ∧ tr.map Prod.snd = acts ∧ ∀ e ∈ tr, Careful e.1 e.2 := by
  obtain ⟨tr, hrun, hacts, hcareful⟩ := run_of_checked h
  exact ⟨tr, hrun.mono fun _ _ _ hs ↦ step_perform hs, hacts, hcareful⟩

end Perform

def openToClose : List Act :=
  [.semOpen 50 1 0x3000, .semWait 7 0x3000, .semWait 8 0x3000, .semPost 0x3000, .resume 8,
    .semPost 0x3000, .semClose 0x3000]

theorem locks_released_open_to_close : ∃ tr s, Run Step (boot emptyKernel) tr s ∧
    tr.map Prod.snd = openToClose ∧ s.kernel.semaphores = [] ∧ Always Free tr s := by
  have hend : (openToClose.foldlM (fun s x ↦ if Careful s x then perform s x else none)
      (boot emptyKernel)).map (fun s ↦ s.kernel.semaphores) = some [] := by decide +kernel
  obtain ⟨s, hs, hclosed⟩ := Option.map_eq_some_iff.mp hend
  obtain ⟨tr, hrun, hacts, hcareful⟩ := run_of_perform hs
  exact ⟨tr, s, hrun, hacts, hclosed, (locks_released rfl rfl hrun).1.mpr hcareful⟩

/-- A refused value leaves `mutexSem` taken. -/
theorem mutex_kept : ¬ ∀ k tr s, k.semaphores = [] → k.mutexSem = 0 → Run Step (boot k) tr s →
    Always Free tr s := by
  intro hall
  have hcall : semOpen (boot emptyKernel).kernel 1 (-1) 0x3000 =
      some ({ emptyKernel with mutexSem := 1 }, 0) := rfl
  have hrun := Run.one (Step.semOpen (by decide) List.not_mem_nil hcall)
  exact Nat.one_ne_zero (hall emptyKernel _ _ rfl rfl hrun).2.1

end ShellOS.Ipc.SemaphoreRelease
