import ShellOS.Ipc.Semaphores
import ShellOS.Library.Runs
import Mathlib.Data.Finset.Card

namespace ShellOS.Ipc.SemaphoreRun

open Library.Runs Library.Words Semaphores Function

/-- The kernel, the processes inside `sem_wait`, and the numbers of posts and
of calls of `sem_wait` that have returned 0. -/
structure System where
  kernel : Kernel
  inWait : Finset ℕ
  posts : ℕ
  waits : ℕ

inductive Act
  | wait (process : ℕ)
  | resume (process : ℕ)
  | post (process : ℕ)

def inWaitAfter (process : ℕ) (inWait : Finset ℕ) : Waited → Finset ℕ
  | .returned _ => inWait.erase process
  | .blocked => insert process inWait

def waitsAfter (waits : ℕ) : Waited → ℕ
  | .returned i => if i = 0 then waits + 1 else waits
  | .blocked => waits

variable (a : ℕ)

/-- A call runs to its next wait or its return. A process that waits goes on
only after it has been set ready. -/
inductive Step : System → Act → System → Prop
  | wait {s : System} {process : ℕ} {k : Kernel} {out : Waited} :
      process ∉ s.inWait → semWait s.kernel process a = some (k, out) →
      Step s (.wait process)
        ⟨k, inWaitAfter process s.inWait out, s.posts, waitsAfter s.waits out⟩
  | resume {s : System} {process : ℕ} {k : Kernel} {out : Waited} :
      process ∈ s.inWait → s.kernel.pstate process = 1 →
      semWaitLoop s.kernel process a = (k, out) →
      Step s (.resume process)
        ⟨k, inWaitAfter process s.inWait out, s.posts, waitsAfter s.waits out⟩
  | post {s : System} {process : ℕ} {k : Kernel} {i : ℤ} :
      process ∉ s.inWait → semPost s.kernel a = some (k, i) →
      Step s (.post process) ⟨k, s.inWait, s.posts + 1, s.waits⟩

def boot (k : Kernel) : System := ⟨k, ∅, 0, 0⟩

def woken (pstate : ℕ → ℕ) (inWait : Finset ℕ) : Finset ℕ :=
  inWait.filter fun p ↦ pstate p = 1

variable {a} {s s' : System} {v₀ : ℤ} {process : ℕ}

def Counts (a : ℕ) (s : System) : Act → Prop
  | .post _ => (s.kernel.sem a).value ≠ int32Max
  | _ => True

section Perform

variable {x : Act}

instance : DecidablePred (Counts a s)
  | .post _ => inferInstanceAs (Decidable ((s.kernel.sem a).value ≠ int32Max))
  | .wait _ | .resume _ => inferInstanceAs (Decidable True)

def perform (a : ℕ) (s : System) : Act → Option System
  | .wait process =>
    if process ∉ s.inWait then
      (semWait s.kernel process a).map fun r ↦
        ⟨r.1, inWaitAfter process s.inWait r.2, s.posts, waitsAfter s.waits r.2⟩
    else none
  | .resume process =>
    if process ∈ s.inWait ∧ s.kernel.pstate process = 1 then
      let r := semWaitLoop s.kernel process a
      some ⟨r.1, inWaitAfter process s.inWait r.2, s.posts, waitsAfter s.waits r.2⟩
    else none
  | .post process =>
    if process ∉ s.inWait then
      (semPost s.kernel a).map fun r ↦ ⟨r.1, s.inWait, s.posts + 1, s.waits⟩
    else none

theorem step_perform (h : perform a s x = some s') : Step a s x s' := by
  cases x with
  | wait process =>
    obtain ⟨hp, h⟩ := Option.ite_none_right_eq_some.mp h
    obtain ⟨⟨k, out⟩, hcall, rfl⟩ := Option.map_eq_some_iff.mp h
    exact .wait hp hcall
  | resume process =>
    obtain ⟨⟨hp, hready⟩, h⟩ := Option.ite_none_right_eq_some.mp h
    cases h
    exact .resume hp hready rfl
  | post process =>
    obtain ⟨hp, h⟩ := Option.ite_none_right_eq_some.mp h
    obtain ⟨⟨k, i⟩, hcall, rfl⟩ := Option.map_eq_some_iff.mp h
    exact .post hp hcall

theorem run_of_perform {acts : List Act}
    (h : acts.foldlM (fun s x ↦ if Counts a s x then perform a s x else none) s = some s') :
    ∃ tr, Run (Step a) s tr s' ∧ tr.map Prod.snd = acts ∧ ∀ e ∈ tr, Counts a e.1 e.2 := by
  obtain ⟨tr, hrun, hacts, hcounts⟩ := run_of_checked h
  exact ⟨tr, hrun.mono fun _ _ _ hs ↦ step_perform hs, hacts, hcounts⟩

end Perform

end ShellOS.Ipc.SemaphoreRun
