import ShellOS.System.MachineRun

namespace ShellOS.System.KilledWaiters

open Library.Fuel Library.Runs Ipc Sched Time Machine MachineRun

def Deleted (s : Kernel) (pid x : ℕ) : Prop :=
  x ≠ 0 ∧ ∃ n, Scheduler.getPCB s.sched pid n s.sched.start = some x

def IsPipe (s : Kernel) (a : ℕ) : Prop := a ∈ s.pipes ∨ a ∈ s.livePipes

def pending (s : Kernel) : List ℕ := Keyboard.pending (keyboardKernel s)

def entry (s : Kernel) : ℕ → ℕ × ℕ × ℕ := TimerRun.entry (timerKernel s)

/-- No wait of the process `x` is left, those of the others are as they were,
with `Q` as the timer's queue before, and no `NULL` was read through. -/
structure Clean (s s' : Kernel) (Q : List ℕ) (x : ℕ) : Prop where
  keyboard : x ∉ pending s'
  timer : ∃ Q', Timer.Queue (timerKernel s') Q' ∧ (∀ a ∈ Q', (s'.timerNode a).process ≠ x) ∧
    Q'.map (entry s') = (Q.filter fun a ↦ (s.timerNode a).process ≠ x).map (entry s)
  pipe : ∀ a, IsPipe s' a → (s'.pipe a).waitingProcess ≠ x
  keyboard_others : (pending s').filter (· ≠ x) = (pending s).filter (· ≠ x)
  pipes : s'.pipes = s.pipes ∧ s'.livePipes = s.livePipes
  pipe_others : ∀ a, IsPipe s a → (s.pipe a).waitingProcess ≠ x → s'.pipe a = s.pipe a
  nullReads : s'.nullReads = s.nullReads

/-- The process waits for no key and for no tick, a pipe that it waits for is in
the table, and each pipe of the table has a waiting process. -/
structure Unwaiting (s : Kernel) (Q : List ℕ) (pid x : ℕ) : Prop where
  keyboard : x ∉ pending s
  timer : ∀ a ∈ Q, (s.timerNode a).process ≠ x
  unlisted : ∀ a ∈ s.livePipes, a ∉ s.pipes → (s.pipe a).waitingProcess ≠ x
  waited : ∀ a ∈ s.pipes, (s.pipe a).waitingProcess ≠ 0
  own : ∀ a ∈ s.pipes, pidOf s (s.pipe a).waitingProcess = pid →
    (s.pipe a).waitingProcess = x ∧ s.pipes.count a ≤ 1

variable {s s' : Kernel} {Q : List ℕ} {pid x n : ℕ}

theorem Deleted.eq (h : Deleted s pid x) {y : ℕ}
    (hy : Scheduler.getPCB s.sched pid n s.sched.start = some y) : x = y := by
  obtain ⟨-, m, hm⟩ := h
  have hx := extends_seek s.sched.start (Nat.le_max_left m n) _ hm
  have hy := extends_seek s.sched.start (Nat.le_max_right m n) _ hy
  exact Option.some.inj (hx.symm.trans hy)

theorem deleteWaiter_pipe (s : Kernel) (pid a : ℕ) : (deleteWaiter s pid).pipe a =
    if a ∈ s.pipes ∧ pidOf s (s.pipe a).waitingProcess = pid then
      { s.pipe a with waitingProcess := 0 } else s.pipe a :=
  (Pipes.deleteLoop_spec (k := pipeKernel (deleteProcessFromSemaphores s pid))).2 a

theorem deleteWaiter_pipes (s : Kernel) (pid : ℕ) : (deleteWaiter s pid).pipes = s.pipes :=
  congrArg Pipes.Kernel.pipes
    (Pipes.deleteLoop_spec (k := pipeKernel (deleteProcessFromSemaphores s pid))).1

theorem deleteWaiter_nullReads (s : Kernel) (pid : ℕ) :
    (deleteWaiter s pid).nullReads = s.nullReads ↔
      (∀ a ∈ s.pipes, (s.pipe a).waitingProcess ≠ 0) ∧
        ∀ a, pidOf s (s.pipe a).waitingProcess = pid → s.pipes.count a ≤ 1 :=
  Nat.add_eq_left.trans Pipes.deleteLoop_null

section Removed

variable {k : Scheduler.Kernel} (hQ : Timer.Queue (timerKernel s) Q)
  (hs : s' = { deleteWaiter s pid with sched := k })

include hQ hs

theorem unwaiting_of_clean (h : Clean s s' Q x) : Unwaiting s Q pid x := by
  subst hs
  obtain ⟨hwaited, hcount⟩ := (deleteWaiter_nullReads s pid).mp h.nullReads
  refine ⟨h.keyboard, ?_, fun a ha hout ↦ ?_, hwaited, fun a ha hpid ↦ ⟨?_, hcount a hpid⟩⟩
  · obtain ⟨Q', hQ', htimer, -⟩ := h.timer
    have hsame : Timer.Queue (timerKernel { deleteWaiter s pid with sched := k }) Q :=
      hQ.congr rfl rfl
    exact hsame.unique hQ' ▸ htimer
  · have hpipe := h.pipe a (Or.inr ha)
    change ((deleteWaiter s pid).pipe a).waitingProcess ≠ x at hpipe
    rwa [deleteWaiter_pipe, if_neg (fun hlisted ↦ hout hlisted.1)] at hpipe
  · -- the waits of another process with this pid are deleted as well
    by_contra hne
    have hpipe := h.pipe_others a (Or.inl ha) hne
    change (deleteWaiter s pid).pipe a = s.pipe a at hpipe
    rw [deleteWaiter_pipe, if_pos ⟨ha, hpid⟩] at hpipe
    exact hwaited a ha (congrArg Pipes.Pipe.waitingProcess hpipe).symm

theorem clean_of_unwaiting (hx : x ≠ 0) (hxp : pidOf s x = pid) (h : Unwaiting s Q pid x) :
    Clean s s' Q x := by
  subst hs
  have hpipes : (deleteWaiter s pid).pipes = s.pipes := deleteWaiter_pipes s pid
  have hnull : (deleteWaiter s pid).nullReads = s.nullReads := by
    refine (deleteWaiter_nullReads s pid).mpr ⟨h.waited, fun a hpid ↦ ?_⟩
    by_cases ha : a ∈ s.pipes
    · exact (h.own a ha hpid).2
    · rw [List.count_eq_zero.mpr ha]
      exact Nat.zero_le 1
  have hfilter : (Q.filter fun a ↦ (s.timerNode a).process ≠ x) = Q :=
    List.filter_eq_self.mpr (fun a ha ↦ by simpa using h.timer a ha)
  refine ⟨h.keyboard, ⟨Q, hQ.congr rfl rfl, h.timer, ?_⟩, fun a ha ↦ ?_, rfl, ⟨hpipes, rfl⟩,
    fun a ha hne ↦ ?_, hnull⟩
  · rw [hfilter]
    rfl
  · change ((deleteWaiter s pid).pipe a).waitingProcess ≠ x
    rw [deleteWaiter_pipe]
    split
    · exact hx.symm
    · rename_i hout
      intro heq
      by_cases hlisted : a ∈ s.pipes
      · exact hout ⟨hlisted, heq ▸ hxp⟩
      · have hlive : a ∈ s.livePipes := ha.resolve_left (hpipes.symm ▸ hlisted)
        exact h.unlisted a hlive hlisted heq
  · change (deleteWaiter s pid).pipe a = s.pipe a
    rw [deleteWaiter_pipe, if_neg]
    exact fun hdeleted ↦ hne (h.own a hdeleted.1 hdeleted.2).1

end Removed

/-- `killPid` leaves no wait of its process, and those of the others alone,
exactly if the process waits at most for pipes of the table, all of which have a
waiting process. It returns if the steps before it were regular. -/
theorem killPid_clean_iff {m : ℕ} {b : Boot} {s₀ : Kernel} {tr : List (Kernel × Act)}
    (hmain : main m b = some s₀) (hrun : Run Step s₀ tr s) (h1 : 1 < pid) :
    ∃ Q, Timer.Queue (timerKernel s) Q ∧
      (∀ n s', killPid n s pid = some s' →
        ((∀ x, Deleted s pid x → Clean s s' Q x) ↔
          ∀ x, Deleted s pid x → Unwaiting s Q pid x)) ∧
      ((∀ e ∈ tr, Regular e.1 e.2) → ∃ l s', ∀ n, l < n → killPid n s pid = some s') := by
  obtain ⟨Q, hQ⟩ := run_queue hmain hrun
  refine ⟨Q, hQ, fun n s' h ↦ ?_, fun hok ↦ run_killPid_returns hmain hrun hok pid⟩
  refine forall₂_congr (fun x hx ↦ ?_)
  rcases killPid_cases h1 h with ⟨hget, -⟩ | ⟨y, k, -, hget, hyp, hs, -⟩
  · exact absurd (hx.eq hget) hx.1
  · obtain rfl := hx.eq hget
    exact ⟨unwaiting_of_clean hQ hs, clean_of_unwaiting hQ hs hx.1 hyp⟩

def fallAsleep : List Act :=
  [.create ⟨3, [], 0, 0, 3, 0x3000⟩, .switchProcess 7, .waitForKeyboard, .switchProcess 7,
    .sleep 200 5, .switchProcess 7, .awakeKeyboardQueue, .switchProcess 7]

theorem fallAsleep_isSome : (fallAsleep.foldlM (perform 8) booted).isSome := by decide +kernel

def asleep : Kernel := (fallAsleep.foldlM (perform 8) booted).get fallAsleep_isSome

theorem asleep_run : ∃ tr, Run Step booted tr asleep :=
  run_of_booted (Option.some_get fallAsleep_isSome).symm

theorem asleep_state :
    (asleep.timerStart = 200 ∧ (asleep.timerNode 200).next = 0 ∧
      (asleep.timerNode 200).process = 3) ∧
    Scheduler.getPCB asleep.sched 2 8 asleep.sched.start = some 3 ∧ (killPid 8 asleep 2).isSome := by
  decide +kernel

theorem killPid_clean_asleep : ∃ Q, Timer.Queue (timerKernel asleep) Q ∧
    ∀ n s', killPid n asleep 2 = some s' →
      ((∀ x, Deleted asleep 2 x → Clean asleep s' Q x) ↔
        ∀ x, Deleted asleep 2 x → Unwaiting asleep Q 2 x) := by
  obtain ⟨tr, hrun⟩ := asleep_run
  obtain ⟨Q, hQ, hclean, -⟩ := killPid_clean_iff main_smallBoot hrun Nat.one_lt_two
  exact ⟨Q, hQ, hclean⟩

/-- The timer still has the node of the process that was deleted. -/
theorem deleted_still_queued : ¬ ∀ m b s₀ tr s, main m b = some s₀ → Run Step s₀ tr s →
    ∀ pid > 1, ∀ Q, Timer.Queue (timerKernel s) Q → ∀ n s', killPid n s pid = some s' →
      ∀ x, Deleted s pid x → Clean s s' Q x := by
  intro hall
  obtain ⟨tr, hrun⟩ := asleep_run
  obtain ⟨⟨hstart, hnext, hprocess⟩, hget, hkill⟩ := asleep_state
  obtain ⟨s', hs'⟩ := Option.isSome_iff_exists.mp hkill
  have hQ : Timer.Queue (timerKernel asleep) [200] := ⟨⟨hstart, hnext⟩, by decide, by decide⟩
  have hclean := hall 1 smallBoot booted tr asleep main_smallBoot hrun 2 Nat.one_lt_two [200] hQ 8
    s' hs' 3 ⟨by decide, 8, hget⟩
  obtain ⟨hnode, hhead⟩ := killPid_timer hs'
  obtain ⟨Q', hQ', htimer, -⟩ := hclean.timer
  have hsame : Timer.Queue (timerKernel s') [200] := hQ.congr hnode hhead
  rw [← hsame.unique hQ'] at htimer
  have hleft := htimer 200 (List.mem_singleton_self 200)
  rw [hnode] at hleft
  exact hleft hprocess

end ShellOS.System.KilledWaiters
