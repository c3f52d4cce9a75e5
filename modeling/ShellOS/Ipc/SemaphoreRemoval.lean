import ShellOS.Ipc.Semaphores
import Mathlib.Data.List.Nodup

namespace ShellOS.Ipc.SemaphoreRemoval

open Semaphores Function

variable (pidOf : ℕ → ℕ) (pid : ℕ) (k : Kernel)

def WaitsAt (a : ℕ) : Prop := ∃ process ∈ (k.sem a).queue, pidOf process = pid

/-- The pid waits at one semaphore at most, with one entry. -/
structure WaitsOnce : Prop where
  one_semaphore : ∀ a ∈ k.semaphores, ∀ b ∈ k.semaphores,
    WaitsAt pidOf pid k a → WaitsAt pidOf pid k b → a = b
  one_entry : ∀ a ∈ k.semaphores, ∀ before process after,
    (k.sem a).queue = before ++ process :: after → pidOf process = pid →
      ∀ other ∈ before ++ after, pidOf other ≠ pid

/-- The entry of the pid, wherever it is, and nothing else is taken out. -/
def RemovesExactly : Prop :=
  ((∀ a ∈ k.semaphores, ¬ WaitsAt pidOf pid k a) →
    deleteProcessFromSemaphores pidOf pid k = k) ∧
  ∀ a ∈ k.semaphores, ∀ before process after,
    (k.sem a).queue = before ++ process :: after → pidOf process = pid →
      deleteProcessFromSemaphores pidOf pid k =
        k.setSem a { k.sem a with queue := before ++ after }

def WaitsFirst : Prop :=
  ∀ a ∈ k.semaphores, ∀ process ∈ (k.sem a).queue.tail, pidOf process ≠ pid

variable {pidOf pid k} {a : ℕ}

theorem setSem_inj {s s' : Semaphore} (h : k.setSem a s = k.setSem a s') : s = s' := by
  have hsem := congrFun (congrArg Kernel.sem h) a
  simpa using hsem

theorem any_iff : ((k.sem a).queue.any fun process ↦ pidOf process = pid) = true ↔
    WaitsAt pidOf pid k a := by
  simp [WaitsAt]

theorem delete_absent (h : ∀ a ∈ k.semaphores, ¬ WaitsAt pidOf pid k a) :
    deleteProcessFromSemaphores pidOf pid k = k := by
  have hnone : k.semaphores.find?
      (fun a ↦ (k.sem a).queue.any fun process ↦ pidOf process = pid) = none := by
    refine List.find?_eq_none.mpr (fun a ha hany ↦ ?_)
    exact h a ha (any_iff.mp hany)
  simp only [deleteProcessFromSemaphores, hnone]

theorem delete_present (h : WaitsOnce pidOf pid k) (ha : a ∈ k.semaphores)
    (hw : WaitsAt pidOf pid k a) :
    deleteProcessFromSemaphores pidOf pid k =
      k.setSem a { k.sem a with queue := (k.sem a).queue.tail } := by
  have hsome : k.semaphores.find?
      (fun a ↦ (k.sem a).queue.any fun process ↦ pidOf process = pid) = some a := by
    cases hfind : k.semaphores.find?
        (fun a ↦ (k.sem a).queue.any fun process ↦ pidOf process = pid) with
    | none => exact absurd (any_iff.mpr hw) (List.find?_eq_none.mp hfind a ha)
    | some b =>
      have hany := List.find?_some hfind
      have hb := any_iff.mp hany
      rw [h.one_semaphore a ha b (List.mem_of_find?_eq_some hfind) hw hb]
  simp only [deleteProcessFromSemaphores, hsome]

theorem tail_eq_iff {before after : List ℕ} {process : ℕ}
    (hother : ∀ other ∈ before ++ after, pidOf other ≠ pid) (hp : pidOf process = pid) :
    (before ++ process :: after).tail = before ++ after ↔ before = [] := by
  cases before with
  | nil => simp
  | cons x before =>
    simp only [List.cons_append, List.tail_cons, reduceCtorEq, iff_false]
    intro heq
    have hmem : process ∈ x :: (before ++ after) := heq ▸ by simp
    exact hother process hmem hp

/-- Where the pid waits at one semaphore at most, a removal is exact exactly
when no other process is ahead of it. -/
theorem delete_waiter_iff (h : WaitsOnce pidOf pid k) :
    RemovesExactly pidOf pid k ↔ WaitsFirst pidOf pid k := by
  constructor
  · rintro ⟨-, hexact⟩ a ha process hmem hp
    have hqueue : (k.sem a).queue ≠ [] := by
      intro hnil
      rw [hnil] at hmem
      cases hmem
    obtain ⟨x, rest, hq⟩ := List.exists_cons_of_ne_nil hqueue
    rw [hq, List.tail_cons] at hmem
    obtain ⟨before, after, hrest⟩ := List.append_of_mem hmem
    have hsplit : (k.sem a).queue = (x :: before) ++ process :: after := by rw [hq, hrest]; rfl
    have hw : WaitsAt pidOf pid k a := ⟨process, by simp [hsplit], hp⟩
    have heq := (delete_present h ha hw).symm.trans (hexact a ha _ process _ hsplit hp)
    have htail : (k.sem a).queue.tail = (x :: before) ++ after :=
      congrArg Semaphore.queue (setSem_inj heq)
    rw [hsplit, tail_eq_iff (h.one_entry a ha _ process _ hsplit hp) hp] at htail
    exact List.cons_ne_nil x before htail
  · intro hfirst
    refine ⟨delete_absent, fun a ha before process after hsplit hp ↦ ?_⟩
    have hw : WaitsAt pidOf pid k a := ⟨process, by simp [hsplit], hp⟩
    have hbefore : before = [] := by
      cases before with
      | nil => rfl
      | cons x before => exact absurd hp (hfirst a ha process (by simp [hsplit]))
    subst hbefore
    rw [delete_present h ha hw, hsplit]
    rfl

def twoWaiters : Kernel :=
  ⟨update emptyKernel.sem 0x3000 ⟨50, 0, [0x1000, 0x2000], 0⟩, [0x3000], 0, fun _ ↦ 0⟩

theorem twoWaiters_once (pid : ℕ) : WaitsOnce (fun a ↦ a) pid twoWaiters := by
  constructor
  · intro a ha b hb _ _
    rw [List.mem_singleton.mp ha, List.mem_singleton.mp hb]
  · intro a ha before process after hq hp other hother
    rw [List.mem_singleton.mp ha] at hq
    have hnd : (before ++ process :: after).Nodup := by
      rw [← hq]
      simp [twoWaiters]
    rintro rfl
    exact (List.nodup_middle.mp hnd).notMem (hp ▸ hother)

theorem delete_waiter_first : RemovesExactly (fun a ↦ a) 0x1000 twoWaiters := by
  refine (delete_waiter_iff (twoWaiters_once 0x1000)).mpr (fun a ha process hmem ↦ ?_)
  rw [List.mem_singleton.mp ha] at hmem
  have hprocess : process = 0x2000 := by simpa [twoWaiters] using hmem
  rw [hprocess]
  decide

/-- The first process is taken out of the queue, and the killed one stays in it. -/
theorem delete_second_waiter : WaitsOnce (fun a ↦ a) 0x2000 twoWaiters ∧
    ((deleteProcessFromSemaphores (fun a ↦ a) 0x2000 twoWaiters).sem 0x3000).queue = [0x2000] ∧
    ¬ RemovesExactly (fun a ↦ a) 0x2000 twoWaiters := by
  have hqueue : ((deleteProcessFromSemaphores (fun a ↦ a) 0x2000 twoWaiters).sem 0x3000).queue =
      [0x2000] := by decide
  refine ⟨twoWaiters_once 0x2000, hqueue, fun hexact ↦ ?_⟩
  have hdelete := hexact.2 0x3000 List.mem_cons_self [0x1000] 0x2000 [] (by decide) rfl
  rw [hdelete] at hqueue
  exact absurd hqueue (by decide)

end ShellOS.Ipc.SemaphoreRemoval
