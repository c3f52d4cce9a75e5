import ShellOS.Ipc.PipeOpen

namespace ShellOS.Ipc.PipeFailure

open Pipes PipeTable PipeOpen Function

/-- When an open fails, nothing has changed, and closing the descriptor then
changes no pipe either. -/
def Harmless (k : Kernel) (fd : FdPipe) (id reader newPipe : ℕ) : Prop :=
  ∀ k' fd', openPipeId k fd id reader newPipe = (k', fd', -1) →
    k' = k ∧ fd' = fd ∧ (closeFdPipe k' (some fd')).1.pipe = k.pipe ∧
      (closeFdPipe k' (some fd')).1.pipes = k.pipes ∧ (closeFdPipe k' (some fd')).2 = none

/-- The end that the descriptor's flags name is closed already, the other end
is open, and no process waits: a close has nothing to do. -/
def Idle (k : Kernel) (fd : FdPipe) : Prop :=
  if fd.readable ≠ 0 then
    (k.pipe fd.pipe).readOpen = 0 ∧ (k.pipe fd.pipe).writeOpen ≠ 0 ∧
      (k.pipe fd.pipe).waitingProcess = 0
  else fd.writable ≠ 0 → (k.pipe fd.pipe).writeOpen = 0 ∧ (k.pipe fd.pipe).readOpen ≠ 0 ∧
    (k.pipe fd.pipe).waitingProcess = 0

variable {k : Kernel} {fd : FdPipe} {id reader newPipe a other : ℕ}

theorem release_idle_iff (k k₁ : Kernel) (hpipe : ∀ b, b ≠ a → k₁.pipe b = k.pipe b)
    (hpipes : k₁.pipes = k.pipes) (hwait : (k₁.pipe a).waitingProcess = (k.pipe a).waitingProcess) :
    ((release k₁ a other).1.pipe = k.pipe ∧ (release k₁ a other).1.pipes = k.pipes ∧
      (release k₁ a other).2 = none) ↔
    k₁.pipe a = k.pipe a ∧ other ≠ 0 ∧ (k.pipe a).waitingProcess = 0 := by
  by_cases hother : other = 0
  · simp [release, hother]
  have hfreed : (release k₁ a other).2 = none := by rw [release, if_neg hother]
  have htable : (release k₁ a other).1.pipes = k.pipes := by
    rw [release_pipes, if_neg hother, hpipes]
  constructor
  · rintro ⟨hsame, -, -⟩
    have ha := congrFun hsame a
    rw [release_pipe, if_pos ⟨hother, rfl⟩] at ha
    have hw : (k.pipe a).waitingProcess = 0 := by rw [← ha]
    have hself : { k₁.pipe a with waitingProcess := 0 } = k₁.pipe a := by rw [← hw, ← hwait]
    exact ⟨hself.symm.trans ha, hother, hw⟩
  · rintro ⟨ha, -, hw⟩
    refine ⟨?_, htable, hfreed⟩
    funext b
    rw [release_pipe]
    by_cases hb : b = a
    · have hself : { k₁.pipe a with waitingProcess := 0 } = k₁.pipe a := by rw [← hw, ← hwait]
      rw [if_pos ⟨hother, hb⟩, hb, hself, ha]
    · rw [if_neg (fun h ↦ hb h.2), hpipe b hb]

theorem shut_readOpen (p : Pipe) : { p with readOpen := 0 } = p ↔ p.readOpen = 0 := by
  constructor
  · intro h
    rw [← h]
  · intro h
    rw [← h]

theorem shut_writeOpen (p : Pipe) : { p with writeOpen := 0 } = p ↔ p.writeOpen = 0 := by
  constructor
  · intro h
    rw [← h]
  · intro h
    rw [← h]

theorem close_idle_iff : ((closeFdPipe k (some fd)).1.pipe = k.pipe ∧
    (closeFdPipe k (some fd)).1.pipes = k.pipes ∧ (closeFdPipe k (some fd)).2 = none) ↔
      Idle k fd := by
  unfold Idle
  by_cases hr : fd.readable = 0
  · by_cases hw : fd.writable = 0
    · rw [closeFdPipe_neither hr hw]
      simp [hr, hw]
    · have hshut : (shutWrite k fd.pipe).pipe fd.pipe = { k.pipe fd.pipe with writeOpen := 0 } := by
        simp [shutWrite]
      rw [closeFdPipe_writable hr hw, release_idle_iff k (shutWrite k fd.pipe)
        (fun b hb ↦ by simp [shutWrite, hb]) rfl (by rw [hshut]), hshut, shut_writeOpen]
      simp [hr, hw]
  · have hshut : (shutRead k fd.pipe).pipe fd.pipe = { k.pipe fd.pipe with readOpen := 0 } := by
      simp [shutRead]
    rw [closeFdPipe_readable hr, release_idle_iff k (shutRead k fd.pipe)
      (fun b hb ↦ by simp [shutRead, hb]) rfl (by rw [hshut]), hshut, shut_readOpen]
    simp [hr]

/-- A failed open is harmless exactly when it came to fail before it wrote the
flags, or found the same flags, and when the descriptor's flags leave a close
nothing to do. -/
theorem openPipeId_harmless_iff (k : Kernel) (fd : FdPipe) (id reader newPipe : ℕ) :
    Harmless k fd id reader newPipe ↔
      (Fails k id reader → (id < maxPipes → aim fd reader = fd) ∧ Idle k fd) := by
  constructor
  · intro h hfails
    obtain ⟨-, hfd, hclose⟩ := h _ _ (open_fails hfails)
    rw [hfd] at hclose
    refine ⟨fun hid ↦ ?_, close_idle_iff.mp hclose⟩
    rw [if_pos hid] at hfd
    exact hfd
  · intro h k' fd' hopen
    have hfails : Fails k id reader := by
      by_contra hnot
      exact open_ret fd newPipe hnot (by rw [hopen])
    obtain ⟨hsame, hidle⟩ := h hfails
    rw [open_fails hfails] at hopen
    have hfd : (if id < maxPipes then aim fd reader else fd) = fd := by
      split
      · rename_i hid
        exact hsame hid
      · rfl
    rw [hfd] at hopen
    cases hopen
    exact ⟨rfl, rfl, close_idle_iff.mpr hidle⟩

/-- The end is taken, and the failed open through an unused descriptor makes
it a reader of the pipe at the address it holds: its close frees that pipe. -/
theorem failed_open_frees_pipe :
    (openPipeId firstOpen.kernel ⟨0, 0, 1⟩ 5 1 2).2.2 = -1 ∧
      (closeFdPipe (openPipeId firstOpen.kernel ⟨0, 0, 1⟩ 5 1 2).1
        (some (openPipeId firstOpen.kernel ⟨0, 0, 1⟩ 5 1 2).2.1)).2 = some 1 ∧
      ¬ Harmless firstOpen.kernel ⟨0, 0, 1⟩ 5 1 2 := by
  refine ⟨by decide, by decide, fun h ↦ ?_⟩
  obtain ⟨-, -, -, -, hfreed⟩ := h (openPipeId firstOpen.kernel ⟨0, 0, 1⟩ 5 1 2).1
    (openPipeId firstOpen.kernel ⟨0, 0, 1⟩ 5 1 2).2.1 rfl
  exact absurd hfreed (by decide)

end ShellOS.Ipc.PipeFailure
