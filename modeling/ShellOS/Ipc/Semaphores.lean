import ShellOS.Library.Words
import Mathlib.Data.List.Basic
import Mathlib.Logic.Function.Basic

namespace ShellOS.Ipc.Semaphores

open Library.Words Function

def processLimit : ℕ := 10
def maxSem : ℕ := 20

/-- `queue` holds `queue[0..waiting)` of the source, as pcb addresses. -/
structure Semaphore where
  id : ℕ
  value : ℤ
  queue : List ℕ
  lock : ℕ

def Semaphore.waiting (sem : Semaphore) : ℕ := sem.queue.length

/-- The semaphores by address, the table `semaphores[0..size)`, its lock, and
the `pstate` of the process at each pcb address. Address 0 is `NULL`. -/
structure Kernel where
  sem : ℕ → Semaphore
  semaphores : List ℕ
  mutexSem : ℕ
  pstate : ℕ → ℕ

@[simp] def Kernel.setSem (k : Kernel) (a : ℕ) (sem : Semaphore) : Kernel :=
  { k with sem := update k.sem a sem }

@[simp] def Kernel.setState (k : Kernel) (process v : ℕ) : Kernel :=
  { k with pstate := update k.pstate process v }

/-- `newSem` is the address that `alloc` returns. There is no result when the
call spins on `mutexSem`. -/
def semOpen (k : Kernel) (id : ℕ) (value : ℤ) (newSem : ℕ) : Option (Kernel × ℕ) :=
  if k.mutexSem ≠ 0 then none
  else if k.semaphores.length = maxSem ∨ value < 0 then some ({ k with mutexSem := 1 }, 0)
  else
    match k.semaphores.find? (fun a ↦ (k.sem a).id = id) with
    | none =>
      some ({ k.setSem newSem ⟨id, value, [], 0⟩ with
        semaphores := k.semaphores ++ [newSem], mutexSem := 0 }, newSem)
    | some a => some ({ k with mutexSem := 0 }, a)

def semClose (k : Kernel) (sem : ℕ) : Option (Kernel × ℤ) :=
  if (k.sem sem).waiting > 0 then some (k, -1)
  else if k.mutexSem ≠ 0 then none
  else if k.semaphores.any (fun a ↦ (k.sem a).id = (k.sem sem).id) then
    some ({ k with
      semaphores := k.semaphores.eraseP (fun a ↦ (k.sem a).id = (k.sem sem).id)
      mutexSem := 0 }, 0)
  else some ({ k with mutexSem := 0 }, -1)

inductive Waited
  | returned (i : ℤ)
  | blocked

/-- `sem_wait` from a test of its loop to its next wait or its return. A
process that comes back from `runScheduler` goes on here. -/
def semWaitLoop (k : Kernel) (current sem : ℕ) : Kernel × Waited :=
  let s := k.sem sem
  if s.value = 0 then
    if s.waiting = processLimit then (k, .returned (-1))
    else
      ((k.setState current 0).setSem sem { s with queue := s.queue ++ [current], lock := 0 },
        .blocked)
  else (k.setSem sem { s with value := i32 (s.value - 1), lock := 0 }, .returned 0)

/-- There is no result when the call spins on the semaphore's lock. -/
def semWait (k : Kernel) (current sem : ℕ) : Option (Kernel × Waited) :=
  if (k.sem sem).lock ≠ 0 then none
  else some (semWaitLoop (k.setSem sem { k.sem sem with lock := 1 }) current sem)

def semPost (k : Kernel) (sem : ℕ) : Option (Kernel × ℤ) :=
  let s := k.sem sem
  if s.lock ≠ 0 then none
  else
    let value := i32 (s.value + 1)
    match s.queue with
    | [] => some (k.setSem sem { s with value := value, lock := 0 }, 0)
    | first :: queue =>
      some ((k.setState first 1).setSem sem
        { s with value := value, queue := queue, lock := 0 }, 0)

/-- The first semaphore with the process in its queue loses the head of the
queue, whichever entry was found. `pidOf` gives the pid at each pcb address. -/
def deleteProcessFromSemaphores (pidOf : ℕ → ℕ) (pid : ℕ) (k : Kernel) : Kernel :=
  match k.semaphores.find? (fun a ↦ (k.sem a).queue.any fun process ↦ pidOf process = pid) with
  | none => k
  | some a => k.setSem a { k.sem a with queue := (k.sem a).queue.tail }

theorem deleteProcessFromSemaphores_pstate (pidOf : ℕ → ℕ) (pid : ℕ) (k : Kernel) (f : ℕ → ℕ) :
    deleteProcessFromSemaphores pidOf pid { k with pstate := f } =
      { deleteProcessFromSemaphores pidOf pid k with pstate := f } := by
  simp only [deleteProcessFromSemaphores]
  split <;> rfl

theorem semWaitLoop_cases (k : Kernel) (current sem : ℕ) :
    ((k.sem sem).value ≠ 0 ∧ semWaitLoop k current sem =
        (k.setSem sem { k.sem sem with value := i32 ((k.sem sem).value - 1), lock := 0 },
          .returned 0)) ∨
      ((k.sem sem).value = 0 ∧ (k.sem sem).waiting = processLimit ∧
        semWaitLoop k current sem = (k, .returned (-1))) ∨
      ((k.sem sem).value = 0 ∧ (k.sem sem).waiting ≠ processLimit ∧
        semWaitLoop k current sem = ((k.setState current 0).setSem sem
          { k.sem sem with queue := (k.sem sem).queue ++ [current], lock := 0 }, .blocked)) := by
  unfold semWaitLoop
  by_cases hv : (k.sem sem).value = 0
  · by_cases hw : (k.sem sem).waiting = processLimit
    · exact Or.inr (Or.inl ⟨hv, hw, by simp only [if_pos hv, if_pos hw]⟩)
    · exact Or.inr (Or.inr ⟨hv, hw, by simp only [if_pos hv, if_neg hw]⟩)
  · exact Or.inl ⟨hv, by simp only [if_neg hv]⟩

theorem semOpen_cases {k k' : Kernel} {id newSem p : ℕ} {value : ℤ}
    (hcall : semOpen k id value newSem = some (k', p)) : k.mutexSem = 0 ∧
      ((k.semaphores.length = maxSem ∨ value < 0) ∧ k' = { k with mutexSem := 1 } ∧ p = 0 ∨
        ¬ (k.semaphores.length = maxSem ∨ value < 0) ∧
          (p ∈ k.semaphores ∧ (k.sem p).id = id ∧ k' = { k with mutexSem := 0 } ∨
            (∀ a ∈ k.semaphores, (k.sem a).id ≠ id) ∧ p = newSem ∧
              k' = { k.setSem newSem ⟨id, value, [], 0⟩ with
                semaphores := k.semaphores ++ [newSem], mutexSem := 0 })) := by
  unfold semOpen at hcall
  split at hcall
  · cases hcall
  rename_i hmutex
  refine ⟨not_not.mp hmutex, ?_⟩
  split at hcall
  · rename_i hrefused
    obtain ⟨rfl, rfl⟩ := Prod.mk.inj (Option.some.inj hcall)
    exact Or.inl ⟨hrefused, rfl, rfl⟩
  rename_i hrefused
  refine Or.inr ⟨hrefused, ?_⟩
  cases hfind : k.semaphores.find? (fun a ↦ (k.sem a).id = id) with
  | none =>
    rw [hfind] at hcall
    obtain ⟨rfl, rfl⟩ := Prod.mk.inj (Option.some.inj hcall)
    exact Or.inr ⟨by simpa using hfind, rfl, rfl⟩
  | some a =>
    rw [hfind] at hcall
    obtain ⟨rfl, rfl⟩ := Prod.mk.inj (Option.some.inj hcall)
    exact Or.inl ⟨List.mem_of_find?_eq_some hfind, by simpa using List.find?_some hfind, rfl⟩

theorem semClose_cases {k k' : Kernel} {sem : ℕ} {i : ℤ} (hcall : semClose k sem = some (k', i)) :
    (k.sem sem).waiting > 0 ∧ k' = k ∧ i = -1 ∨
      (k.sem sem).waiting = 0 ∧ k.mutexSem = 0 ∧
        ((∃ a ∈ k.semaphores, (k.sem a).id = (k.sem sem).id) ∧
            k' = { k with
              semaphores := k.semaphores.eraseP (fun a ↦ (k.sem a).id = (k.sem sem).id)
              mutexSem := 0 } ∧ i = 0 ∨
          (∀ a ∈ k.semaphores, (k.sem a).id ≠ (k.sem sem).id) ∧
            k' = { k with mutexSem := 0 } ∧ i = -1) := by
  unfold semClose at hcall
  split at hcall
  · rename_i hwaiting
    obtain ⟨rfl, rfl⟩ := Prod.mk.inj (Option.some.inj hcall)
    exact Or.inl ⟨hwaiting, rfl, rfl⟩
  rename_i hwaiting
  split at hcall
  · cases hcall
  rename_i hmutex
  refine Or.inr ⟨Nat.eq_zero_of_not_pos hwaiting, not_not.mp hmutex, ?_⟩
  split at hcall
  · rename_i hany
    obtain ⟨rfl, rfl⟩ := Prod.mk.inj (Option.some.inj hcall)
    exact Or.inl ⟨by simpa using hany, rfl, rfl⟩
  · rename_i hany
    obtain ⟨rfl, rfl⟩ := Prod.mk.inj (Option.some.inj hcall)
    exact Or.inr ⟨by simpa using hany, rfl, rfl⟩

theorem semOpen_new {k₀ k : Kernel} {id a p : ℕ} {v : ℤ}
    (hnew : ∀ b ∈ k₀.semaphores, (k₀.sem b).id ≠ id) (hopen : semOpen k₀ id v a = some (k, p))
    (hp : p ≠ 0) :
    p = a ∧ 0 ≤ v ∧ k.sem = update k₀.sem a ⟨id, v, [], 0⟩ ∧
      k.semaphores = k₀.semaphores ++ [a] ∧ k.pstate = k₀.pstate ∧ k.mutexSem = 0 := by
  obtain ⟨-, ⟨-, -, rfl⟩ | ⟨hok, ⟨hmem, hid, -⟩ | ⟨-, rfl, rfl⟩⟩⟩ := semOpen_cases hopen
  · exact absurd rfl hp
  · exact absurd hid (hnew p hmem)
  · rw [not_or] at hok
    exact ⟨rfl, not_lt.mp hok.2, rfl, rfl, rfl, rfl⟩

def emptyKernel : Kernel := ⟨fun _ ↦ ⟨0, 0, [], 0⟩, [], 0, fun _ ↦ 1⟩

def opened (v : ℤ) : Kernel :=
  ⟨update emptyKernel.sem 0x3000 ⟨50, v, [], 0⟩, [0x3000], 0, fun _ ↦ 1⟩

theorem opened_eq {v : ℤ} (hv : 0 ≤ v) :
    semOpen emptyKernel 50 v 0x3000 = some (opened v, 0x3000) := by
  have hneg : ¬ v < 0 := by omega
  simp [semOpen, emptyKernel, opened, maxSem, hneg]

end ShellOS.Ipc.Semaphores
