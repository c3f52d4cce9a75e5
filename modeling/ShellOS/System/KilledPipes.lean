import ShellOS.Ipc.PipeTable
import ShellOS.System.KilledWaiters

namespace ShellOS.System.KilledPipes

open Library.Fuel Library.Runs Ipc Sched Machine MachineRun KilledWaiters
open PipeTable (shutRead shutWrite release release_pipe release_pipes release_pstate)
open PipeTable (deletePipeFromArray_sublist not_mem_deletePipeFromArray)
open PipeTable (closeFdPipe_readable closeFdPipe_writable closeFdPipe_neither)

section Ends

variable (fd : Pipes.FdPipe)

def IsEnd : Prop := fd.readable ≠ 0 ∨ fd.writable ≠ 0

/-- The flag of the end that the descriptor is for. -/
def ownOpen (p : Pipes.Pipe) : ℕ := if fd.readable ≠ 0 then p.readOpen else p.writeOpen

def otherOpen (p : Pipes.Pipe) : ℕ := if fd.readable ≠ 0 then p.writeOpen else p.readOpen

/-- From `s` to `s'` an end of the process `x` was closed: the pipe is gone if
the other end was closed before, and if not, a peer that was blocked is ready. -/
structure EndClosed (s s' : Kernel) (x : ℕ) : Prop where
  own : ownOpen fd (s'.pipe fd.pipe) = 0
  gone : otherOpen fd (s.pipe fd.pipe) = 0 → fd.pipe ∉ s'.pipes ∧ fd.pipe ∉ s'.livePipes
  peer : otherOpen fd (s.pipe fd.pipe) ≠ 0 → ∀ w, w = (s.pipe fd.pipe).waitingProcess → w ≠ 0 →
    w ≠ x → pstate s' w = 1

end Ends

def Holds (s : Kernel) (x f : ℕ) : Prop :=
  f ≠ 0 ∧ (f = (s.sched.pcb x).customStdin ∨ f = (s.sched.pcb x).customStdout) ∧ IsEnd (s.fd f)

variable {s s' t : Kernel} {fd : Pipes.FdPipe} {f pid x n : ℕ}

structure Untouched (s s' : Kernel) (x : ℕ) : Prop where
  readOpen : ∀ a, (s'.pipe a).readOpen = (s.pipe a).readOpen
  writeOpen : ∀ a, (s'.pipe a).writeOpen = (s.pipe a).writeOpen
  pipes : s'.pipes = s.pipes
  livePipes : s'.livePipes = s.livePipes
  pstate : ∀ y, y ≠ x → pstate s' y = pstate s y

theorem untouched_of_deleted {k : Scheduler.Kernel} (hk : ∀ y ≠ x, k.pcb y = s.sched.pcb y)
    (hs : s' = { deleteWaiter s pid with sched := k }) : Untouched s s' x := by
  subst hs
  refine ⟨fun a ↦ ?_, fun a ↦ ?_, deleteWaiter_pipes s pid, rfl,
    fun y hy ↦ congrArg Scheduler.Pcb.pstate (hk y hy)⟩
  · change ((deleteWaiter s pid).pipe a).readOpen = _
    rw [deleteWaiter_pipe]
    split
    · rfl
    · rfl
  · change ((deleteWaiter s pid).pipe a).writeOpen = _
    rw [deleteWaiter_pipe]
    split
    · rfl
    · rfl

theorem Untouched.ownOpen (h : Untouched s s' x) (fd : Pipes.FdPipe) (a : ℕ) :
    ownOpen fd (s'.pipe a) = ownOpen fd (s.pipe a) := by
  rw [KilledPipes.ownOpen, KilledPipes.ownOpen, h.readOpen, h.writeOpen]

theorem Untouched.endClosed_iff (h : Untouched s s' x) :
    EndClosed fd t s' x ↔ EndClosed fd t s x := by
  constructor
  · intro hc
    refine ⟨(h.ownOpen fd _).symm.trans hc.own, fun h0 ↦ ?_, fun h0 w hw hw0 hwx ↦ ?_⟩
    · rw [← h.pipes, ← h.livePipes]
      exact hc.gone h0
    · rw [← h.pstate w hwx]
      exact hc.peer h0 w hw hw0 hwx
  · intro hc
    refine ⟨(h.ownOpen fd _).trans hc.own, fun h0 ↦ ?_, fun h0 w hw hw0 hwx ↦ ?_⟩
    · rw [h.pipes, h.livePipes]
      exact hc.gone h0
    · rw [h.pstate w hwx]
      exact hc.peer h0 w hw hw0 hwx

/-- After `killPid` an end of its process is closed exactly if it was closed
before. It returns if the steps before it were regular. -/
theorem killPid_closes_iff {m : ℕ} {b : Boot} {s₀ : Kernel} {tr : List (Kernel × Act)}
    (hmain : main m b = some s₀) (hrun : Run Step s₀ tr s) (h1 : 1 < pid) :
    (∀ n s', killPid n s pid = some s' → ∀ x f, Deleted s pid x → Holds s x f →
      (EndClosed (s.fd f) s s' x ↔ EndClosed (s.fd f) s s x)) ∧
    ((∀ e ∈ tr, Regular e.1 e.2) → ∃ l s', ∀ n, l < n → killPid n s pid = some s') := by
  refine ⟨fun n s' h x f hx hf ↦ ?_, fun hok ↦ run_killPid_returns hmain hrun hok pid⟩
  rcases killPid_cases h1 h with ⟨hget, -⟩ | ⟨y, k, -, hget, -, hs, hk⟩
  · exact absurd (hx.eq hget) hx.1
  · obtain rfl := hx.eq hget
    exact (untouched_of_deleted hk hs).endClosed_iff

def makeReader : List Act :=
  [.switchProcess 7, .createPipe 300 301 400, .create ⟨3, [], 300, 0, 3, 0x3000⟩]

theorem makeReader_isSome : (makeReader.foldlM (perform 8) booted).isSome := by decide +kernel

def withReader : Kernel := (makeReader.foldlM (perform 8) booted).get makeReader_isSome

theorem withReader_run : ∃ tr, Run Step booted tr withReader :=
  run_of_booted (Option.some_get makeReader_isSome).symm

theorem withReader_state :
    Scheduler.getPCB withReader.sched 2 8 withReader.sched.start = some 3 ∧
    (withReader.sched.pcb 3).customStdin = 300 ∧ (withReader.fd 300).readable = 1 ∧
    (withReader.fd 300).pipe = 400 ∧ ((killPid 8 withReader 2).map fun s ↦
      (s.pipe 400).readOpen) = some 1 := by
  decide +kernel

theorem withReader_deleted : Deleted withReader 2 3 := ⟨by decide, 8, withReader_state.1⟩

theorem withReader_holds : Holds withReader 3 300 := by
  obtain ⟨-, hstdin, hreadable, -⟩ := withReader_state
  refine ⟨by decide, Or.inl hstdin.symm, Or.inl ?_⟩
  rw [hreadable]
  exact Nat.one_ne_zero

theorem killPid_closes_reader : ∃ s', killPid 8 withReader 2 = some s' ∧
    (EndClosed (withReader.fd 300) withReader s' 3 ↔
      EndClosed (withReader.fd 300) withReader withReader 3) := by
  obtain ⟨tr, hrun⟩ := withReader_run
  obtain ⟨s', hs', -⟩ := Option.map_eq_some_iff.mp withReader_state.2.2.2.2
  have hcloses := (killPid_closes_iff main_smallBoot hrun Nat.one_lt_two).1 8 s' hs' 3 300
  exact ⟨s', hs', hcloses withReader_deleted withReader_holds⟩

/-- The read end of the process that was killed stays open. -/
theorem read_end_left : ¬ ∀ m b s₀ tr s, main m b = some s₀ → Run Step s₀ tr s → ∀ pid > 1,
    ∀ n s', killPid n s pid = some s' → ∀ x f, Deleted s pid x → Holds s x f →
      EndClosed (s.fd f) s s' x := by
  intro hall
  obtain ⟨tr, hrun⟩ := withReader_run
  obtain ⟨-, -, hreadable, hpipe, hkill⟩ := withReader_state
  obtain ⟨s', hs', hopen⟩ := Option.map_eq_some_iff.mp hkill
  have hclosed := hall 1 smallBoot booted tr withReader main_smallBoot hrun 2 Nat.one_lt_two 8 s'
    hs' 3 300 withReader_deleted withReader_holds
  have hown := hclosed.own
  rw [ownOpen, hreadable, if_pos Nat.one_ne_zero, hpipe, hopen] at hown
  cases hown

section Exit

def shut (fd : Pipes.FdPipe) (k : Pipes.Kernel) : Pipes.Kernel :=
  if fd.readable ≠ 0 then shutRead k fd.pipe else shutWrite k fd.pipe

theorem shut_pipe (fd : Pipes.FdPipe) (k : Pipes.Kernel) (b : ℕ) :
    ((shut fd k).pipe b).id = (k.pipe b).id ∧
      ((shut fd k).pipe b).waitingProcess = (k.pipe b).waitingProcess ∧
      ownOpen fd ((shut fd k).pipe b) = (if b = fd.pipe then 0 else ownOpen fd (k.pipe b)) ∧
      otherOpen fd ((shut fd k).pipe b) = otherOpen fd (k.pipe b) := by
  by_cases hread : fd.readable = 0
  · by_cases hb : b = fd.pipe <;> simp [shut, hread, shutWrite, ownOpen, otherOpen, hb]
  · by_cases hb : b = fd.pipe <;> simp [shut, hread, shutRead, ownOpen, otherOpen, hb]

theorem closeFdPipe_end (hend : IsEnd fd) (k : Pipes.Kernel) : Pipes.closeFdPipe k (some fd) =
    release (shut fd k) fd.pipe (otherOpen fd (k.pipe fd.pipe)) := by
  by_cases hread : fd.readable = 0
  · have hwrite : fd.writable ≠ 0 := hend.resolve_left (not_not.mpr hread)
    rw [closeFdPipe_writable hread hwrite, shut, otherOpen, if_neg (not_not.mpr hread),
      if_neg (not_not.mpr hread)]
  · rw [closeFdPipe_readable hread, shut, otherOpen, if_pos hread, if_pos hread]

/-- What the closes of `exit` leave true of every pipe and every process. -/
structure Closing (s t : Kernel) : Prop where
  readOpen : ∀ a, (s.pipe a).readOpen = 0 → (t.pipe a).readOpen = 0
  writeOpen : ∀ a, (s.pipe a).writeOpen = 0 → (t.pipe a).writeOpen = 0
  id : ∀ a, (t.pipe a).id = (s.pipe a).id
  pipes : t.pipes.Sublist s.pipes
  livePipes : ∀ a ∈ t.livePipes, a ∈ s.livePipes
  ready : ∀ y, y ≠ 0 → pstate s y = 1 → pstate t y = 1
  waiting : ∀ a, (t.pipe a).waitingProcess = (s.pipe a).waitingProcess ∨
    pstate t (s.pipe a).waitingProcess = 1
  sched : ∃ g, t.sched = setStates s.sched g
  fd : t.fd = s.fd

theorem shut_zero (fd : Pipes.FdPipe) (k : Pipes.Kernel) (b : ℕ) :
    ((k.pipe b).readOpen = 0 → ((shut fd k).pipe b).readOpen = 0) ∧
      ((k.pipe b).writeOpen = 0 → ((shut fd k).pipe b).writeOpen = 0) := by
  by_cases hread : fd.readable = 0
  · by_cases hb : b = fd.pipe <;> simp [shut, hread, shutWrite, hb]
  · by_cases hb : b = fd.pipe <;> simp [shut, hread, shutRead, hb]

theorem shut_fields (fd : Pipes.FdPipe) (k : Pipes.Kernel) :
    (shut fd k).pstate = k.pstate ∧ (shut fd k).pipes = k.pipes := by
  rw [shut]
  split
  · exact ⟨rfl, rfl⟩
  · exact ⟨rfl, rfl⟩

structure Closes (s t : Kernel) (fd : Pipes.FdPipe) : Prop where
  pipe : ∀ b, t.pipe b = if otherOpen fd (s.pipe fd.pipe) ≠ 0 ∧ b = fd.pipe then
    { (shut fd (pipeKernel s)).pipe b with waitingProcess := 0 } else (shut fd (pipeKernel s)).pipe b
  pstate : ∀ y, y ≠ 0 → pstate t y = if otherOpen fd (s.pipe fd.pipe) ≠ 0 ∧
    y = (s.pipe fd.pipe).waitingProcess then 1 else pstate s y
  pipes : t.pipes = if otherOpen fd (s.pipe fd.pipe) = 0 then
    (Pipes.deletePipeFromArray (shut fd (pipeKernel s)) fd.pipe).pipes else s.pipes
  livePipes : t.livePipes = if otherOpen fd (s.pipe fd.pipe) = 0 then
    s.livePipes.filter fun a ↦ a ≠ fd.pipe else s.livePipes
  sched : ∃ g, t.sched = setStates s.sched g
  fd : t.fd = s.fd

theorem closeFdPipe_closes (hf : f ≠ 0) (hend : IsEnd (s.fd f)) :
    Closes s (closeFdPipe s f) (s.fd f) := by
  have hclose : closeFdPipe s f =
      let r := release (shut (s.fd f) (pipeKernel s)) (s.fd f).pipe
        (otherOpen (s.fd f) (s.pipe (s.fd f).pipe))
      { setPipes s r.1 with livePipes := s.livePipes.filter fun a ↦ r.2 ≠ some a } := by
    rw [closeFdPipe, if_neg hf, closeFdPipe_end hend]
    rfl
  obtain ⟨hstate, hpipes⟩ := shut_fields (s.fd f) (pipeKernel s)
  rw [hclose]
  refine ⟨fun b ↦ release_pipe _ _ _ b, fun y hy ↦ ?_, (release_pipes _ _ _).trans ?_, ?_, ⟨_, rfl⟩, rfl⟩
  · refine (release_pstate _ _ _ hy).trans ?_
    rw [hstate, (shut_pipe (s.fd f) (pipeKernel s) (s.fd f).pipe).2.1]
    rfl
  · rw [hpipes]
    rfl
  · rw [release]
    by_cases hother : otherOpen (s.fd f) (s.pipe (s.fd f).pipe) = 0
    · simp [hother, eq_comm]
    · simp [hother]

theorem Closes.pipe_eq (h : Closes s t fd) {β : Type} {g : Pipes.Pipe → β}
    (hg : ∀ p w, g { p with waitingProcess := w } = g p) (b : ℕ) :
    g (t.pipe b) = g ((shut fd (pipeKernel s)).pipe b) := by
  rw [h.pipe]
  split
  · exact hg _ 0
  · rfl

theorem closeFdPipe_none (h : f = 0 ∨ ¬ IsEnd (s.fd f)) : closeFdPipe s f = s := by
  have hnone : Pipes.closeFdPipe (pipeKernel s) (if f = 0 then none else some (s.fd f)) =
      (pipeKernel s, none) := by
    by_cases hf : f = 0
    · rw [if_pos hf]
      rfl
    · have hend : ¬ IsEnd (s.fd f) := h.resolve_left hf
      simp only [IsEnd, not_or, not_not] at hend
      rw [if_neg hf, closeFdPipe_neither hend.1 hend.2]
  rw [closeFdPipe, hnone]
  simp [setPipes, pipeKernel, setStates_self]

theorem Closing.refl (s : Kernel) : Closing s s :=
  ⟨fun _ h ↦ h, fun _ h ↦ h, fun _ ↦ rfl, List.Sublist.refl _, fun _ h ↦ h, fun _ _ h ↦ h,
    fun _ ↦ Or.inl rfl, ⟨pstate s, rfl⟩, rfl⟩

theorem Closes.closing (h : Closes s t fd) : Closing s t := by
  refine ⟨fun a h0 ↦ ?_, fun a h0 ↦ ?_, fun a ↦ ?_, ?_, fun a ha ↦ ?_, fun y hy hready ↦ ?_,
    fun a ↦ ?_, h.sched, h.fd⟩
  · rw [h.pipe_eq (g := Pipes.Pipe.readOpen) (fun _ _ ↦ rfl)]
    exact (shut_zero fd (pipeKernel s) a).1 h0
  · rw [h.pipe_eq (g := Pipes.Pipe.writeOpen) (fun _ _ ↦ rfl)]
    exact (shut_zero fd (pipeKernel s) a).2 h0
  · rw [h.pipe_eq (g := Pipes.Pipe.id) (fun _ _ ↦ rfl)]
    exact (shut_pipe fd (pipeKernel s) a).1
  · rw [h.pipes]
    split
    · have hsub := deletePipeFromArray_sublist (shut fd (pipeKernel s)) fd.pipe
      rwa [(shut_fields fd (pipeKernel s)).2] at hsub
    · exact List.Sublist.refl _
  · rw [h.livePipes] at ha
    split at ha
    · exact List.mem_of_mem_filter ha
    · exact ha
  · rw [h.pstate y hy]
    split
    · rfl
    · exact hready
  · have hwait := (shut_pipe fd (pipeKernel s) a).2.1
    by_cases hawake : otherOpen fd (s.pipe fd.pipe) ≠ 0 ∧ a = fd.pipe
    · obtain ⟨hother, rfl⟩ := hawake
      by_cases hw : (s.pipe fd.pipe).waitingProcess = 0
      · refine Or.inl ?_
        rw [h.pipe, if_pos ⟨hother, rfl⟩, hw]
      · refine Or.inr ?_
        rw [h.pstate _ hw, if_pos ⟨hother, rfl⟩]
    · refine Or.inl ?_
      rw [h.pipe, if_neg hawake]
      exact hwait

theorem closing_closeFdPipe (s : Kernel) (f : ℕ) : Closing s (closeFdPipe s f) := by
  by_cases h : f = 0 ∨ ¬ IsEnd (s.fd f)
  · rw [closeFdPipe_none h]
    exact .refl s
  · simp only [not_or, not_not] at h
    exact (closeFdPipe_closes h.1 h.2).closing

theorem Closing.ownOpen {s t : Kernel} (h : Closing s t) (fd : Pipes.FdPipe) {a : ℕ}
    (h0 : ownOpen fd (s.pipe a) = 0) : ownOpen fd (t.pipe a) = 0 := by
  rw [KilledPipes.ownOpen] at h0 ⊢
  split
  · rename_i hread
    rw [if_pos hread] at h0
    exact h.readOpen a h0
  · rename_i hread
    rw [if_neg hread] at h0
    exact h.writeOpen a h0

theorem EndClosed.closing (hc : EndClosed fd s t x) {u : Kernel} (h : Closing t u) :
    EndClosed fd s u x := by
  refine ⟨h.ownOpen fd hc.own, fun h0 ↦ ?_, fun h0 w hw hw0 hwx ↦ ?_⟩
  · obtain ⟨hpipes, hlive⟩ := hc.gone h0
    exact ⟨fun hmem ↦ hpipes (h.pipes.mem hmem), fun hmem ↦ hlive (h.livePipes _ hmem)⟩
  · exact h.ready w hw0 (hc.peer h0 w hw hw0 hwx)

def DistinctIds (s : Kernel) : Prop := (s.pipes.map fun q ↦ (s.pipe q).id).Nodup

theorem Closing.distinctIds (h : Closing s t) (hids : DistinctIds s) : DistinctIds t := by
  have hid : (t.pipes.map fun q ↦ (t.pipe q).id) = t.pipes.map fun q ↦ (s.pipe q).id :=
    List.map_congr_left (fun q _ ↦ h.id q)
  rw [DistinctIds, hid]
  exact hids.sublist (h.pipes.map _)

theorem Closes.endClosed (h : Closes s t fd) (hids : DistinctIds s) (x : ℕ) :
    EndClosed fd s t x := by
  refine ⟨?_, fun h0 ↦ ⟨?_, ?_⟩, fun h0 w hw hw0 hwx ↦ ?_⟩
  · have hown := (shut_pipe fd (pipeKernel s) fd.pipe).2.2.1
    rw [if_pos rfl] at hown
    exact (h.pipe_eq (g := ownOpen fd) (fun _ _ ↦ rfl) fd.pipe).trans hown
  · rw [h.pipes, if_pos h0]
    apply not_mem_deletePipeFromArray
    rw [(shut_fields fd (pipeKernel s)).2,
      List.map_congr_left (fun q _ ↦ (shut_pipe fd (pipeKernel s) q).1)]
    exact hids
  · rw [h.livePipes, if_pos h0]
    simp
  · rw [h.pstate w hw0, if_pos ⟨h0, hw⟩]

/-- A close clears the other end of a descriptor only if it is itself for that end. -/
theorem Closes.other_cleared {gd : Pipes.FdPipe} {a : ℕ} (h : Closes s t gd)
    (hopen : otherOpen fd (s.pipe a) ≠ 0) (hclosed : otherOpen fd (t.pipe a) = 0) :
    a = gd.pipe ∧ otherOpen gd (s.pipe a) = ownOpen fd (s.pipe a) := by
  have hshut : otherOpen fd ((shut gd (pipeKernel s)).pipe a) = 0 :=
    (h.pipe_eq (g := otherOpen fd) (fun _ _ ↦ rfl) a).symm.trans hclosed
  have hpipe : (pipeKernel s).pipe = s.pipe := rfl
  by_cases ha : a = gd.pipe
  · refine ⟨ha, ?_⟩
    by_cases hread : fd.readable = 0 <;> by_cases hgread : gd.readable = 0 <;>
      simp_all [otherOpen, ownOpen, shut, shutRead, shutWrite]
  · exfalso
    by_cases hread : fd.readable = 0 <;> by_cases hgread : gd.readable = 0 <;>
      simp_all [otherOpen, shut, shutRead, shutWrite]

theorem Closing.otherOpen (h : Closing s t) (fd : Pipes.FdPipe) {a : ℕ}
    (h0 : otherOpen fd (s.pipe a) = 0) : otherOpen fd (t.pipe a) = 0 := by
  rw [KilledPipes.otherOpen] at h0 ⊢
  split
  · rename_i hread
    rw [if_pos hread] at h0
    exact h.writeOpen a h0
  · rename_i hread
    rw [if_neg hread] at h0
    exact h.readOpen a h0

theorem EndClosed.after {u : Kernel} {g : ℕ} (hids : DistinctIds s)
    (hown : ownOpen fd (s.pipe fd.pipe) ≠ 0)
    (h : Closes (closeFdPipe s g) u fd) : EndClosed fd s u x := by
  have hfirst := closing_closeFdPipe s g
  have hc := h.endClosed (hfirst.distinctIds hids) x
  refine ⟨hc.own, fun h0 ↦ hc.gone (hfirst.otherOpen fd h0), fun h0 w hw hw0 hwx ↦ ?_⟩
  by_cases hready : pstate (closeFdPipe s g) w = 1
  · exact h.closing.ready w hw0 hready
  have hwait : ((closeFdPipe s g).pipe fd.pipe).waitingProcess = w := by
    rw [hw]
    exact (hfirst.waiting fd.pipe).resolve_right (hw ▸ hready)
  by_cases hother : KilledPipes.otherOpen fd ((closeFdPipe s g).pipe fd.pipe) = 0
  · -- the first close was of the other end of this pipe
    exfalso
    by_cases hnone : g = 0 ∨ ¬ IsEnd (s.fd g)
    · rw [closeFdPipe_none hnone] at hother
      exact h0 hother
    · simp only [not_or, not_not] at hnone
      have hg := closeFdPipe_closes hnone.1 hnone.2
      obtain ⟨hpipe, hflag⟩ := hg.other_cleared h0 hother
      apply hready
      rw [hg.pstate w hw0, if_pos]
      rw [← hpipe, hflag]
      exact ⟨hown, hw⟩
  · exact hc.peer hother w hwait.symm hw0 hwx

theorem exitCurrentProcess_untouched (hx : Deleted s (pidOf s x) x)
    (hcurrent : s.sched.currentProcess = x) (h : exitCurrentProcess n s = some s') :
    Untouched s s' x := by
  obtain ⟨r, hr, rfl⟩ := Option.map_eq_some_iff.mp h
  rw [hcurrent] at hr
  rcases deleteProcess_cases hr with ⟨hget, -⟩ | ⟨y, k, -, hget, -, hs, hk⟩
  · exact absurd (hx.eq hget) hx.1
  · obtain rfl := hx.eq hget
    have hdeleted := untouched_of_deleted (s := { s with sched := SchedulerRun.exitFlag s.sched })
      hk hs
    exact ⟨hdeleted.readOpen, hdeleted.writeOpen, hdeleted.pipes, hdeleted.livePipes,
      hdeleted.pstate⟩

/-- What `killPid` leaves out: `exit` closes the ends of its process. -/
theorem exit_closes (hx : Deleted s (pidOf s x) x) (hcurrent : s.sched.currentProcess = x)
    (hids : DistinctIds s)
    (hopen : ∀ f, Holds s x f → ownOpen (s.fd f) (s.pipe (s.fd f).pipe) ≠ 0)
    (h : exit n s = some s') (hf : Holds s x f) : EndClosed (s.fd f) s s' x := by
  let s₁ := closeFdPipe s (s.sched.pcb x).customStdin
  let s₂ := closeFdPipe s₁ (s.sched.pcb x).customStdout
  have h₁ : Closing s s₁ := closing_closeFdPipe _ _
  have h₂ : Closing s₁ s₂ := closing_closeFdPipe _ _
  obtain ⟨g₁, hg₁⟩ := h₁.sched
  obtain ⟨g₂, hg₂⟩ := h₂.sched
  have hsched : s₂.sched = setStates (setStates s.sched g₁) g₂ := by rw [hg₂, hg₁]
  have hstdout : (s₁.sched.pcb s₁.sched.currentProcess).customStdout =
      (s.sched.pcb x).customStdout := by
    rw [hg₁, ← hcurrent]
    rfl
  have hexit : exitCurrentProcess n s₂ = some s' := by
    rw [exit, hcurrent] at h
    change exitCurrentProcess n
      (closeFdPipe s₁ (s₁.sched.pcb s₁.sched.currentProcess).customStdout) = some s' at h
    rwa [hstdout] at h
  have hdeleted : Deleted s₂ (pidOf s₂ x) x := by
    rw [Deleted, pidOf, hsched]
    exact hx
  have hcurrent₂ : s₂.sched.currentProcess = x := by
    rw [hsched]
    exact hcurrent
  have huntouched := exitCurrentProcess_untouched hdeleted hcurrent₂ hexit
  rw [huntouched.endClosed_iff]
  obtain ⟨h0, hstd | hstd, hend⟩ := hf
  · have hclosed := (closeFdPipe_closes h0 hend).endClosed hids x
    rw [hstd] at hclosed ⊢
    exact hclosed.closing h₂
  · have hown := hopen f ⟨h0, Or.inr hstd, hend⟩
    have hend' : IsEnd (s₁.fd f) := by
      rw [h₁.fd]
      exact hend
    have hcloses := closeFdPipe_closes h0 hend'
    rw [h₁.fd] at hcloses
    rw [hstd] at hcloses hown ⊢
    exact EndClosed.after hids hown hcloses

end Exit

end ShellOS.System.KilledPipes
