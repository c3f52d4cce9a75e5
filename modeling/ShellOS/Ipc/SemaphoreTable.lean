import Mathlib.Data.List.Nodup
import ShellOS.Ipc.SemaphoreClose

namespace ShellOS.Ipc.SemaphoreTable

open Library.Runs Semaphores Function
open SemaphoreClose (TableOk)

/-- The kernel, and the pointers from `sem_open` that were not closed since. -/
structure System where
  kernel : Kernel
  held : List ℕ

inductive Act
  | semOpen (id : ℕ) (value : ℤ) (newSem : ℕ)
  | semClose (sem : ℕ)
  | use (sem : ℕ) (value : ℤ) (queue : List ℕ)

def Valid (s : System) : Act → Prop
  | .semOpen _ value newSem => 0 ≤ value ∧ newSem ≠ 0 ∧ newSem ∉ s.kernel.semaphores
  | .semClose sem | .use sem _ _ => sem ∈ s.held

/-- Between the calls `sem_wait` and `sem_post` change the value and the queue
of a semaphore. -/
inductive Step : System → Act → System → Prop
  | semOpen {s : System} {id newSem p : ℕ} {value : ℤ} {k : Kernel} :
      Valid s (.semOpen id value newSem) → semOpen s.kernel id value newSem = some (k, p) →
      Step s (.semOpen id value newSem) ⟨k, if p = 0 then s.held else p :: s.held⟩
  | semClose {s : System} {sem : ℕ} {k : Kernel} {i : ℤ} :
      Valid s (.semClose sem) → semClose s.kernel sem = some (k, i) →
      Step s (.semClose sem) ⟨k, if i = 0 then s.held.filter (· ≠ sem) else s.held⟩
  | use {s : System} {sem : ℕ} {value : ℤ} {queue : List ℕ} :
      Valid s (.use sem value queue) →
      Step s (.use sem value queue)
        ⟨s.kernel.setSem sem { s.kernel.sem sem with value := value, queue := queue }, s.held⟩

def boot (k : Kernel) : System := ⟨k, []⟩

def Bounded (s : System) : Prop :=
  s.kernel.semaphores.length ≤ maxSem ∧
    (s.kernel.semaphores.map fun a ↦ (s.kernel.sem a).id).Nodup

def IsOpen (k : Kernel) (id a : ℕ) : Prop := a ∈ k.semaphores ∧ (k.sem a).id = id

/-- The call returns, and does to the table what it should. -/
def Meets (k : Kernel) : Act → Prop
  | .semOpen id value newSem => ∃ k' p, semOpen k id value newSem = some (k', p) ∧
      (∀ a, IsOpen k id a → p = a ∧ k'.semaphores = k.semaphores ∧ k'.sem = k.sem) ∧
      ((∀ a, ¬ IsOpen k id a) → k.semaphores.length < maxSem → p = newSem ∧
        k'.semaphores = k.semaphores ++ [newSem] ∧
        k'.sem = update k.sem newSem ⟨id, value, [], 0⟩)
  | .semClose sem => ∃ k' i, semClose k sem = some (k', i) ∧
      (i = 0 → k'.semaphores = k.semaphores.erase sem ∧ k'.sem = k.sem)
  | .use _ _ _ => True

/-- The call does not spin, and does not open an open identifier at the full
table. -/
def Served (k : Kernel) : Act → Prop
  | .semOpen id _ _ => k.mutexSem = 0 ∧ ¬ (k.semaphores.length = maxSem ∧ ∃ a, IsOpen k id a)
  | .semClose sem => k.mutexSem = 0 ∨ (k.sem sem).waiting > 0
  | .use _ _ _ => True

def HasRoom (s : System) : Act → Prop
  | .semOpen _ _ _ => s.kernel.semaphores.length < maxSem
  | _ => True

structure Kept (s : System) : Prop where
  table : TableOk s.kernel
  length_le : s.kernel.semaphores.length ≤ maxSem
  held : ∀ a, a ∈ s.held ↔ a ∈ s.kernel.semaphores

variable {s s' : System} {k k' : Kernel} {x : Act} {a sem semId newSem p : ℕ} {value i : ℤ}
variable {queue : List ℕ}

theorem Kept.bounded (h : Kept s) : Bounded s := by
  refine ⟨h.length_le, List.Nodup.map_on ?_ h.table.nodup⟩
  intro a ha b hb heq
  exact h.table.ids a ha b hb heq

section Keep

theorem TableOk.use (h : TableOk k) (hids : ∀ b, (k'.sem b).id = (k.sem b).id)
    (htable : k'.semaphores = k.semaphores) : TableOk k' := by
  refine ⟨htable ▸ h.nodup, fun a ha b hb heq ↦ ?_, htable ▸ h.not_null⟩
  rw [hids, hids] at heq
  rw [htable] at ha hb
  exact h.ids a ha b hb heq

theorem Kept.semOpen (h : Kept s) (hvalid : Valid s (.semOpen semId value newSem))
    (hcall : semOpen s.kernel semId value newSem = some (k, p)) :
    Kept ⟨k, if p = 0 then s.held else p :: s.held⟩ := by
  obtain ⟨hvalue, hnull, hnew⟩ := hvalid
  obtain ⟨-, ⟨-, rfl, rfl⟩ | ⟨hok, ⟨hmem, -, rfl⟩ | ⟨hid, rfl, rfl⟩⟩⟩ := semOpen_cases hcall
  · exact ⟨h.table.of_same rfl rfl, h.length_le, h.held⟩
  · have hp : p ≠ 0 := ne_of_mem_of_not_mem hmem h.table.not_null
    refine ⟨h.table.of_same rfl rfl, h.length_le, fun a ↦ ?_⟩
    rw [if_neg hp, List.mem_cons, h.held]
    exact ⟨fun ha ↦ ha.elim (fun heq ↦ heq ▸ hmem) id, Or.inr⟩
  · have hle := h.length_le
    rw [not_or] at hok
    refine ⟨h.table.snoc hnull hnew hid rfl rfl, ?_, fun a ↦ ?_⟩
    · rw [List.length_append, List.length_singleton]
      omega
    · rw [if_neg hnull, List.mem_cons, h.held, List.mem_append, List.mem_singleton]
      exact or_comm

theorem Kept.semClose (h : Kept s) (hvalid : Valid s (.semClose sem))
    (hcall : semClose s.kernel sem = some (k, i)) :
    Kept ⟨k, if i = 0 then s.held.filter (· ≠ sem) else s.held⟩ := by
  have hmem : sem ∈ s.kernel.semaphores := (h.held sem).mp hvalid
  obtain ⟨-, rfl, rfl⟩ | ⟨-, -, ⟨-, rfl, rfl⟩ | ⟨-, rfl, rfl⟩⟩ := semClose_cases hcall
  · exact ⟨h.table, h.length_le, h.held⟩
  · have herase := h.table.erase_eq hmem
    have hclose := h.table.close hmem { s.kernel with
      semaphores := s.kernel.semaphores.eraseP
        (fun b ↦ (s.kernel.sem b).id = (s.kernel.sem sem).id), mutexSem := 0 } rfl rfl
    refine ⟨hclose.1, ?_, fun a ↦ ?_⟩
    · change (s.kernel.semaphores.eraseP _).length ≤ maxSem
      rw [herase]
      exact (List.length_erase_le).trans h.length_le
    · change a ∈ s.held.filter _ ↔ a ∈ s.kernel.semaphores.eraseP _
      rw [herase, h.table.nodup.mem_erase_iff, List.mem_filter, h.held, and_comm]
      simp
  · exact ⟨h.table.of_same rfl rfl, h.length_le, h.held⟩

theorem step_kept (h : Kept s) (hs : Step s x s') : Kept s' := by
  cases hs with
  | semOpen hvalid hcall => exact h.semOpen hvalid hcall
  | semClose hvalid hcall => exact h.semClose hvalid hcall
  | @use sem value queue hvalid =>
    refine ⟨TableOk.use h.table (fun b ↦ ?_) rfl, h.length_le, h.held⟩
    by_cases hb : b = sem <;> simp [hb]

theorem step_mutex (hmutex : s.kernel.mutexSem = 0) (hroom : HasRoom s x)
    (hs : Step s x s') : s'.kernel.mutexSem = 0 := by
  cases hs with
  | semOpen hvalid hcall =>
    have hlt : s.kernel.semaphores.length < maxSem := hroom
    have hvalue := hvalid.1
    obtain ⟨-, ⟨hrefused, -, -⟩ | ⟨-, ⟨-, -, rfl⟩ | ⟨-, -, rfl⟩⟩⟩ := semOpen_cases hcall
    · omega
    · rfl
    · rfl
  | semClose hvalid hcall =>
    obtain ⟨-, rfl, -⟩ | ⟨-, -, ⟨-, rfl, -⟩ | ⟨-, rfl, -⟩⟩ := semClose_cases hcall
    · exact hmutex
    · rfl
    · rfl
  | use => exact hmutex

end Keep

section Call

theorem semOpen_isSome : (semOpen k semId value newSem).isSome ↔ k.mutexSem = 0 := by
  unfold semOpen
  split
  · rename_i h
    simp [h]
  · rename_i h
    rw [not_not] at h
    split
    · simp [h]
    · split <;> simp [h]

theorem semClose_isSome :
    (semClose k sem).isSome ↔ k.mutexSem = 0 ∨ (k.sem sem).waiting > 0 := by
  unfold semClose
  split
  · rename_i h
    simp [h]
  · rename_i hw
    split
    · rename_i h
      simp [h, hw]
    · rename_i h
      rw [not_not] at h
      split <;> simp [h]

theorem open_meets_iff (h : Kept s) (hvalid : Valid s (.semOpen semId value newSem)) :
    Meets s.kernel (.semOpen semId value newSem) ↔
      Served s.kernel (.semOpen semId value newSem) := by
  obtain ⟨hvalue, hnull, hnew⟩ := hvalid
  constructor
  · rintro ⟨k, p, hcall, hopen, -⟩
    obtain ⟨hmutex, hcases⟩ := semOpen_cases hcall
    refine ⟨hmutex, ?_⟩
    rintro ⟨hfull, a, ha⟩
    have hpa := (hopen a ha).1
    rcases hcases with ⟨-, -, rfl⟩ | ⟨hok, -⟩
    · exact h.table.not_null (hpa ▸ ha.1)
    · exact hok (Or.inl hfull)
  · rintro ⟨hmutex, hroom⟩
    obtain ⟨⟨k, p⟩, hcall⟩ := Option.isSome_iff_exists.mp (semOpen_isSome.mpr hmutex)
    refine ⟨k, p, hcall, ?_⟩
    obtain ⟨-, ⟨hrefused, rfl, rfl⟩ | ⟨-, ⟨hmem, hid, rfl⟩ | ⟨hid, rfl, rfl⟩⟩⟩ :=
      semOpen_cases hcall
    · have hfull : s.kernel.semaphores.length = maxSem :=
        hrefused.resolve_right (by omega)
      exact ⟨fun a ha ↦ absurd ⟨hfull, a, ha⟩ hroom, fun _ hlt ↦ absurd hfull hlt.ne⟩
    · refine ⟨fun a ha ↦ ⟨?_, rfl, rfl⟩, fun hno ↦ absurd ⟨hmem, hid⟩ (hno p)⟩
      exact h.table.ids p hmem a ha.1 (hid.trans ha.2.symm)
    · exact ⟨fun a ha ↦ absurd ha.2 (hid a ha.1), fun _ _ ↦ ⟨rfl, rfl, rfl⟩⟩

theorem close_meets_iff (h : Kept s) (hvalid : Valid s (.semClose sem)) :
    Meets s.kernel (.semClose sem) ↔ Served s.kernel (.semClose sem) := by
  have hmem : sem ∈ s.kernel.semaphores := (h.held sem).mp hvalid
  refine Iff.trans ⟨?_, fun hsome ↦ ?_⟩ semClose_isSome
  · rintro ⟨k, i, hcall, -⟩
    rw [hcall]
    rfl
  · obtain ⟨⟨k, i⟩, hcall⟩ := Option.isSome_iff_exists.mp hsome
    refine ⟨k, i, hcall, fun hi ↦ ?_⟩
    obtain ⟨-, -, rfl⟩ | ⟨-, -, ⟨-, rfl, -⟩ | ⟨-, -, rfl⟩⟩ := semClose_cases hcall
    · cases hi
    · exact ⟨h.table.erase_eq hmem, rfl⟩
    · cases hi

theorem meets_iff (h : Kept s) (hvalid : Valid s x) : Meets s.kernel x ↔ Served s.kernel x := by
  cases x with
  | semOpen => exact open_meets_iff h hvalid
  | semClose => exact close_meets_iff h hvalid
  | use => exact Iff.rfl

end Call

/-- In every run the table is bounded, a call does what it should exactly when
it is served, and calls do not spin as long as none opens at the full table. -/
theorem semaphore_table {tr : List (System × Act)} (hempty : k.semaphores = [])
    (hmutex : k.mutexSem = 0) (hrun : Run Step (boot k) tr s) :
    Always Bounded tr s ∧ (∀ x, Valid s x → (Meets s.kernel x ↔ Served s.kernel x)) ∧
      ((∀ e ∈ tr, HasRoom e.1 e.2) → s.kernel.mutexSem = 0) := by
  have hboot : Kept (boot k) := by
    refine ⟨⟨?_, ?_, ?_⟩, ?_, ?_⟩ <;> simp [boot, hempty]
  have hkept : Kept s := hrun.invariant (fun _ _ _ h hs ↦ step_kept h hs) hboot
  refine ⟨?_, fun x hvalid ↦ meets_iff hkept hvalid, fun hroom ↦ ?_⟩
  · exact hrun.always (fun _ _ _ h hs ↦ step_kept h hs) (fun _ h ↦ h.bounded) hboot
  · have hboth : Kept s ∧ s.kernel.mutexSem = 0 := by
      apply hrun.invariant_of (I := fun s ↦ Kept s ∧ s.kernel.mutexSem = 0) _ hroom
        ⟨hboot, hmutex⟩
      intro a x b h hx hs
      exact ⟨step_kept h.1 hs, step_mutex h.2 hx hs⟩
    exact hboth.2

section Perform

instance : DecidablePred (Valid s)
  | .semOpen _ value newSem =>
    inferInstanceAs (Decidable (0 ≤ value ∧ newSem ≠ 0 ∧ newSem ∉ s.kernel.semaphores))
  | .semClose sem | .use sem _ _ => inferInstanceAs (Decidable (sem ∈ s.held))

instance : DecidablePred (HasRoom s)
  | .semOpen _ _ _ => inferInstanceAs (Decidable (s.kernel.semaphores.length < maxSem))
  | .semClose _ | .use _ _ _ => inferInstanceAs (Decidable True)

def perform (s : System) (x : Act) : Option System :=
  if Valid s x then
    match x with
    | .semOpen id value newSem => (Semaphores.semOpen s.kernel id value newSem).map fun r ↦
      ⟨r.1, if r.2 = 0 then s.held else r.2 :: s.held⟩
    | .semClose sem => (Semaphores.semClose s.kernel sem).map fun r ↦
      ⟨r.1, if r.2 = 0 then s.held.filter (· ≠ sem) else s.held⟩
    | .use sem value queue => some
      ⟨s.kernel.setSem sem { s.kernel.sem sem with value := value, queue := queue }, s.held⟩
  else none

theorem step_perform (h : perform s x = some s') : Step s x s' := by
  obtain ⟨hvalid, h⟩ := Option.ite_none_right_eq_some.mp h
  cases x with
  | semOpen id value newSem =>
    obtain ⟨⟨k, p⟩, hcall, rfl⟩ := Option.map_eq_some_iff.mp h
    exact .semOpen hvalid hcall
  | semClose sem =>
    obtain ⟨⟨k, i⟩, hcall, rfl⟩ := Option.map_eq_some_iff.mp h
    exact .semClose hvalid hcall
  | use sem value queue =>
    cases h
    exact .use hvalid

theorem run_of_perform {acts : List Act}
    (h : acts.foldlM (fun s x ↦ if HasRoom s x then perform s x else none) s = some s') :
    ∃ tr, Run Step s tr s' ∧ tr.map Prod.snd = acts ∧ ∀ e ∈ tr, HasRoom e.1 e.2 := by
  obtain ⟨tr, hrun, hacts, hroom⟩ := run_of_checked h
  exact ⟨tr, hrun.mono fun _ _ _ hs ↦ step_perform hs, hacts, hroom⟩

end Perform

def closeAndOpen : List Act :=
  [.semOpen 50 1 0x3000, .semOpen 60 0 0x4000, .use 0x3000 0 [7], .semClose 0x4000,
    .semOpen 70 2 0x4000]

theorem semaphore_table_close_and_open : ∃ tr s, Run Step (boot emptyKernel) tr s ∧
    tr.map Prod.snd = closeAndOpen ∧ Always Bounded tr s ∧ s.held = [0x4000, 0x3000] ∧
    Meets s.kernel (.semOpen 50 3 0x5000) := by
  have hend : (closeAndOpen.foldlM (fun s x ↦ if HasRoom s x then perform s x else none)
      (boot emptyKernel)).map (fun s ↦ (s.held, s.kernel.semaphores)) =
        some ([0x4000, 0x3000], [0x3000, 0x4000]) := by decide +kernel
  obtain ⟨s, hs, heq⟩ := Option.map_eq_some_iff.mp hend
  obtain ⟨hheld, hsems⟩ := Prod.mk.inj heq
  obtain ⟨tr, hrun, hacts, hroom⟩ := run_of_perform hs
  obtain ⟨hbounded, hmeets, hmutex⟩ := semaphore_table rfl rfl hrun
  have hvalid : Valid s (.semOpen 50 3 0x5000) := ⟨by decide, by decide, by rw [hsems]; decide⟩
  refine ⟨tr, s, hrun, hacts, hbounded, hheld, (hmeets _ hvalid).mpr
    ⟨hmutex hroom, fun hfull ↦ ?_⟩⟩
  rw [hsems] at hfull
  exact absurd hfull.1 (by decide)

section Full

def filled (n : ℕ) : Kernel where
  sem a := if 1 ≤ a ∧ a ≤ n then ⟨a, 1, [], 0⟩ else ⟨0, 0, [], 0⟩
  semaphores := List.range' 1 n
  mutexSem := 0
  pstate _ := 1

theorem filled_open {n : ℕ} (hn : n < maxSem) :
    semOpen (filled n) (n + 1) 1 (n + 1) = some (filled (n + 1), n + 1) := by
  have hlen : (filled n).semaphores.length = n := List.length_range'
  have hnew : (filled n).semaphores.find? (fun a ↦ ((filled n).sem a).id = n + 1) = none := by
    rw [List.find?_eq_none]
    intro a ha
    have hmem := List.mem_range'_1.mp ha
    have hle : 1 ≤ a ∧ a ≤ n := by omega
    simp only [filled, if_pos hle, decide_eq_true_eq]
    omega
  have hroom : ¬ ((filled n).semaphores.length = maxSem ∨ (1 : ℤ) < 0) := by omega
  have hsem : update (filled n).sem (n + 1) ⟨n + 1, 1, [], 0⟩ = (filled (n + 1)).sem := by
    funext a
    by_cases ha : a = n + 1
    · simp [ha, filled]
    · have hiff : a ≤ n ↔ a ≤ n + 1 := by omega
      simp [ha, filled, hiff]
  have htable : (filled n).semaphores ++ [n + 1] = (filled (n + 1)).semaphores := by
    change List.range' 1 n ++ [n + 1] = List.range' 1 (n + 1)
    rw [List.range'_concat]
    simp [Nat.add_comm]
  unfold semOpen
  rw [if_neg (by simp [filled]), if_neg hroom, hnew]
  simp only [Kernel.setSem, hsem, htable]
  rfl

theorem filled_run {n : ℕ} (hn : n ≤ maxSem) : ∃ tr held,
    Run Step (boot (filled 0)) tr ⟨filled n, held⟩ := by
  induction n with
  | zero => exact ⟨[], [], .nil _⟩
  | succ n ih =>
    obtain ⟨tr, held, hrun⟩ := ih (by omega)
    have hvalid : Valid ⟨filled n, held⟩ (.semOpen (n + 1) 1 (n + 1)) := by
      refine ⟨by decide, by omega, fun hmem ↦ ?_⟩
      have hle := List.mem_range'_1.mp hmem
      omega
    exact ⟨_, _, hrun.trans (Run.one (Step.semOpen hvalid (filled_open (by omega))))⟩

/-- With twenty semaphores open, opening one of them again fails. -/
theorem full_table_open : ¬ ∀ k tr s, k.semaphores = [] → k.mutexSem = 0 →
    Run Step (boot k) tr s → ∀ x, Valid s x → Meets s.kernel x := by
  intro hall
  obtain ⟨tr, held, hrun⟩ := filled_run le_rfl
  have hvalid : Valid ⟨filled maxSem, held⟩ (.semOpen 1 1 21) := by
    refine ⟨by decide, by decide, fun hmem ↦ ?_⟩
    have hle := List.mem_range'_1.mp hmem
    rw [maxSem] at hle
    omega
  obtain ⟨k, p, hcall, hopen, -⟩ := hall (filled 0) tr _ rfl rfl hrun _ hvalid
  have hrefused : semOpen (filled maxSem) 1 1 21 =
      some ({ filled maxSem with mutexSem := 1 }, 0) := rfl
  obtain ⟨-, rfl⟩ := Prod.mk.inj (Option.some.inj (hcall.symm.trans hrefused))
  have hone : IsOpen (filled maxSem) 1 1 := by
    refine ⟨?_, rfl⟩
    exact List.mem_range'_1.mpr (by decide)
  exact Nat.zero_ne_one (hopen 1 hone).1

end Full

end ShellOS.Ipc.SemaphoreTable
