import ShellOS.Library.Runs
import ShellOS.Sched.SwitchSpec

namespace ShellOS.Sched.SchedulerRun

open Library.FirstMin Library.Fuel Library.Links Library.Runs Library.Words Scheduler ProcessList
open SwitchSpec Function

inductive Act
  | create (c : Create)
  | killPid (pid : ℕ)
  | exit
  | changeProcessPriority (pid newPriority : ℕ)
  | changeProcessState (pid : ℕ)
  | block
  | wake (process : ℕ)
  | switchProcess (sp : ℕ)

/-- `alloc` returns memory that no listed process uses. `exit` and a block are
calls of the running process, which the dummy process never makes. -/
inductive Step : Kernel → Act → Kernel → Prop
  | create {k : Kernel} {c : Create} {n : ℕ} {r : Kernel × ℤ} :
      c.newNode ≠ 0 → c.newNode ≠ k.dummy → (∀ L, Listed k L → c.newNode ∉ L) →
      createProcess n k c = some r → Step k (.create c) r.1
  | killPid {k k' : Kernel} {pid n : ℕ} :
      killPid n k pid = some k' → Step k (.killPid pid) k'
  | exit {k k' : Kernel} {n : ℕ} :
      k.currentProcess ≠ 0 → k.currentProcess ≠ k.dummy → exitCurrentProcess n k = some k' →
      Step k .exit k'
  | changeProcessPriority {k k' : Kernel} {pid newPriority n : ℕ} :
      changeProcessPriority n k pid newPriority = some k' →
      Step k (.changeProcessPriority pid newPriority) k'
  | changeProcessState {k k' : Kernel} {pid n : ℕ} :
      changeProcessState n k pid = some k' → Step k (.changeProcessState pid) k'
  | block {k : Kernel} :
      k.currentProcess ≠ 0 → k.currentProcess ≠ k.dummy → Step k .block (blockCurrentProcess k)
  | wake {k : Kernel} {process : ℕ} :
      process ≠ 0 → Step k (.wake process) (setState k process 1)
  | switchProcess {k : Kernel} {sp n : ℕ} {r : Kernel × ℕ} :
      switchProcess n k sp = some r → Step k (.switchProcess sp) r.1

/-- The memory as `initScheduler` finds it, and the addresses that `alloc`
returns. The node of the shell is in memory that was never written. -/
structure Boot where
  node : ℕ → ListNode
  dummyMemory : ℕ
  dummy : ℕ
  newNode : ℕ
  processMemory : ℕ
  dummy_ne_null : dummy ≠ 0
  newNode_ne_null : newNode ≠ 0
  apart : newNode ≠ dummy
  unwritten : (node newNode).next = 0

/-- The scheduler's part of the kernel's `main`. -/
def main (n : ℕ) (b : Boot) : Option Kernel :=
  (createProcess n (initScheduler b.node b.dummyMemory b.dummy)
    ⟨1, [[83, 104, 101, 108, 108]], 0, 0, b.newNode, b.processMemory⟩).map Prod.fst

/-- The list, with distinct pids that were all handed out, and the dummy
process beside it. -/
structure Linked (k : Kernel) (L : List ℕ) : Prop where
  listed : Listed k L
  dummy_ne_null : k.dummy ≠ 0
  dummy_not_mem : k.dummy ∉ L
  dummy_pid : (k.pcb k.dummy).pid = 0
  dummy_next : k.next k.dummy = 0
  pids : (L.map fun y ↦ (k.pcb y).pid).Nodup
  pid_pos : ∀ y ∈ L, 1 ≤ (k.pcb y).pid
  pid_lt : k.pid ≠ 0 → ∀ y ∈ L, (k.pcb y).pid < k.pid
  counter : k.pid < 2 ^ 32 ∧ (k.pid ≠ 0 → 2 ≤ k.pid)
  quantum : k.quantum = 0

/-- What `currentProcess` points to: nothing yet, a listed process, or a node
that left the list. From there the links lead over more such nodes back into
the list or to its end. -/
inductive Running (k : Kernel) (L : List ℕ) : Prop
  | boot : k.firstProcess ≠ 0 → k.currentProcess = 0 → (∃ y ∈ L, (k.pcb y).pid = 1) → Running k L
  | listed : k.firstProcess = 0 → k.currentProcess ∈ L → Running k L
  | gone {D : List ℕ} {s : ℕ} : k.firstProcess = 0 → k.currentProcess ∉ L →
      (k.currentProcess = k.dummy ∨
        (k.pcb k.currentProcess).pstate ≠ 1 ∧ 1 ≤ (k.pcb k.currentProcess).pid ∧
          (k.pid ≠ 0 → (k.pcb k.currentProcess).pid < k.pid)) →
      (∀ y ∈ L, (k.pcb y).pid ≠ (k.pcb k.currentProcess).pid) →
      Path k.next (k.next k.currentProcess) D s →
      (∀ d ∈ D, d ≠ 0 ∧ d ∉ L ∧ (k.pcb d).pstate ≠ 1) → (s = 0 ∨ s ∈ L) → Running k L

variable {k k' : Kernel} {L L' : List ℕ} {a x pid n : ℕ} {c : Create}

theorem Linked.perm (h : Linked k L) (hlisted : Listed k' L') (hperm : L'.Perm L)
    (hnext : ∀ y, y ∉ L → k'.next y = k.next y) (hdummy : k'.dummy = k.dummy)
    (hpid : k'.pid = k.pid) (hquantum : k'.quantum = k.quantum)
    (hpids : ∀ y, (k'.pcb y).pid = (k.pcb y).pid) : Linked k' L' := by
  refine ⟨hlisted, ?_, ?_, ?_, ?_, ?_, fun y hy ↦ ?_, fun h0 y hy ↦ ?_, ?_,
    hquantum.trans h.quantum⟩
  · rw [hdummy]
    exact h.dummy_ne_null
  · rw [hdummy, hperm.mem_iff]
    exact h.dummy_not_mem
  · rw [hpids, hdummy]
    exact h.dummy_pid
  · rw [hdummy, hnext _ h.dummy_not_mem]
    exact h.dummy_next
  · rw [(hperm.map _).nodup_iff, List.map_congr_left (fun y _ ↦ hpids y)]
    exact h.pids
  · rw [hpids]
    exact h.pid_pos y (hperm.mem_iff.mp hy)
  · rw [hpids, hpid]
    exact h.pid_lt (hpid ▸ h0) y (hperm.mem_iff.mp hy)
  · rw [hpid]
    exact h.counter

theorem Running.perm (h : Running k L) (hperm : L'.Perm L)
    (hnext : ∀ y, y ∉ L → k'.next y = k.next y)
    (hcurrent : k'.currentProcess = k.currentProcess) (hfirst : k'.firstProcess = k.firstProcess)
    (hdummy : k'.dummy = k.dummy) (hpid : k'.pid = k.pid)
    (hpids : ∀ y, (k'.pcb y).pid = (k.pcb y).pid)
    (hready : ∀ y, y ∉ L → (k'.pcb y).pstate = 1 → (k.pcb y).pstate = 1) : Running k' L' := by
  have hmem : ∀ y, y ∈ L' ↔ y ∈ L := fun y ↦ hperm.mem_iff
  cases h with
  | boot hf hc hone =>
    refine .boot (hfirst ▸ hf) (hcurrent.trans hc) ?_
    simpa only [hpids, hmem] using hone
  | listed hf hc => exact .listed (hfirst.trans hf) ((hmem _).mpr (hcurrent ▸ hc))
  | @gone D s hf hc hout hfresh hpath hD hs =>
    refine .gone (D := D) (s := s) (hfirst.trans hf) ?_ ?_ ?_ ?_ (fun d hd ↦ ?_)
      (hs.imp id (hmem s).mpr)
    · rw [hcurrent, hmem]
      exact hc
    · rw [hcurrent, hdummy, hpids, hpid]
      exact hout.imp id (fun h ↦ ⟨fun hr ↦ h.1 (hready _ hc hr), h.2⟩)
    · rw [hcurrent]
      simpa only [hpids, hmem] using hfresh
    · rw [hcurrent, hnext _ hc]
      exact hpath.congr (fun d hd ↦ hnext d (hD d hd).2.1)
    · rw [hmem]
      exact ⟨(hD d hd).1, (hD d hd).2.1, fun hr ↦ (hD d hd).2.2 (hready d (hD d hd).2.1 hr)⟩

theorem removed_next (h : Linked k L) (hx : x ∈ L) (hpid : (k.pcb x).pid = pid) :
    k.next x = 0 ∨ k.next x ∈ L.filter fun y ↦ (k.pcb y).pid ≠ pid := by
  refine (h.listed.next_cases hx).imp id (fun hnext ↦ mem_removed.mpr ⟨hnext.1, fun heq ↦ ?_⟩)
  exact hnext.2 (List.inj_on_of_nodup_map h.pids hnext.1 hx (heq.trans hpid.symm))

section Remove

variable (hr : Removed k k' L pid)

include hr
theorem Linked.removed (h : Linked k L) :
    Linked k' (L.filter fun y ↦ (k.pcb y).pid ≠ pid) := by
  have hdummy : k'.dummy = k.dummy := hr.fields.dummy
  have hpid : k'.pid = k.pid := hr.fields.counter
  refine ⟨hr.listed, ?_, ?_, ?_, ?_, ?_, fun y hy ↦ ?_, fun h0 y hy ↦ ?_, ?_,
    hr.fields.quantum.trans h.quantum⟩
  · rw [hdummy]
    exact h.dummy_ne_null
  · rw [hdummy]
    exact fun hmem ↦ h.dummy_not_mem (List.mem_of_mem_filter hmem)
  · rw [hr.pid_eq, hdummy]
    exact h.dummy_pid
  · rw [hdummy, hr.next _ (Or.inl h.dummy_not_mem)]
    exact h.dummy_next
  · rw [List.map_congr_left (fun y _ ↦ hr.pid_eq y)]
    exact h.pids.sublist (List.filter_sublist.map _)
  · rw [hr.pid_eq]
    exact h.pid_pos y (List.mem_of_mem_filter hy)
  · rw [hr.pid_eq, hpid]
    exact h.pid_lt (hpid ▸ h0) y (List.mem_of_mem_filter hy)
  · rw [hpid]
    exact h.counter

theorem Running.removed (h : Running k L) (hl : Linked k L)
    (hshell : k.firstProcess ≠ 0 → pid ≠ 1) :
    Running k' (L.filter fun y ↦ (k.pcb y).pid ≠ pid) := by
  have hcurrent : k'.currentProcess = k.currentProcess := hr.fields.currentProcess
  have hfirst : k'.firstProcess = k.firstProcess := hr.fields.firstProcess
  have hdummy : k'.dummy = k.dummy := hr.fields.dummy
  have hcount : k'.pid = k.pid := hr.fields.counter
  have hstate : ∀ y, (k'.pcb y).pstate = 1 → (k.pcb y).pstate = 1 := by
    intro y hy
    rw [hr.pcb] at hy
    split at hy
    · cases hy
    · exact hy
  have hfresh : ∀ a, (∀ y ∈ L, (k.pcb y).pid ≠ pid → (k.pcb y).pid ≠ (k.pcb a).pid) →
      ∀ y ∈ L.filter (fun y ↦ (k.pcb y).pid ≠ pid), (k'.pcb y).pid ≠ (k'.pcb a).pid := by
    intro a ha y hy
    rw [hr.pid_eq, hr.pid_eq]
    exact ha y (mem_removed.mp hy).1 (mem_removed.mp hy).2
  cases h with
  | boot hf hc hone =>
    obtain ⟨y, hy, hpid⟩ := hone
    refine .boot (hfirst ▸ hf) (hcurrent.trans hc) ⟨y, mem_removed.mpr ⟨hy, ?_⟩, ?_⟩
    · rw [hpid]
      exact (hshell hf).symm
    · rw [hr.pid_eq, hpid]
  | listed hf hc =>
    by_cases hpid : (k.pcb k.currentProcess).pid = pid
    · have hnext : k'.next k.currentProcess = k.next k.currentProcess := hr.next _ (Or.inr hpid)
      refine .gone (D := []) (s := k.next k.currentProcess) (hfirst.trans hf) ?_ (Or.inr ?_) ?_ ?_
        (by simp) (removed_next hl hc hpid)
      · rw [hcurrent]
        exact fun hmem ↦ (mem_removed.mp hmem).2 hpid
      · rw [hcurrent, hr.pid_eq, hcount, hr.pcb, if_pos ⟨hc, hpid⟩]
        exact ⟨by simp, hl.pid_pos _ hc, fun h0 ↦ hl.pid_lt h0 _ hc⟩
      · rw [hcurrent]
        exact hfresh _ (fun y _ hy ↦ hpid.symm ▸ hy)
      · rw [hcurrent, hnext]
        rfl
    · refine .listed (hfirst.trans hf) ?_
      rw [hcurrent]
      exact mem_removed.mpr ⟨hc, hpid⟩
  | @gone D s hf hc hout hpids hpath hD hs =>
    have hnext : ∀ y, y ∉ L → k'.next y = k.next y := fun y hy ↦ hr.next y (Or.inl hy)
    have hpath' : Path k'.next (k'.next k'.currentProcess) D s := by
      rw [hcurrent, hnext _ hc]
      exact hpath.congr (fun d hd ↦ hnext d (hD d hd).2.1)
    have hc' : k'.currentProcess ∉ L.filter fun y ↦ (k.pcb y).pid ≠ pid := by
      rw [hcurrent]
      exact fun hmem ↦ hc (List.mem_of_mem_filter hmem)
    have hout' : k'.currentProcess = k'.dummy ∨
        (k'.pcb k'.currentProcess).pstate ≠ 1 ∧ 1 ≤ (k'.pcb k'.currentProcess).pid ∧
          (k'.pid ≠ 0 → (k'.pcb k'.currentProcess).pid < k'.pid) := by
      rw [hcurrent, hdummy, hr.pid_eq, hcount]
      exact hout.imp id (fun h ↦ ⟨fun hy ↦ h.1 (hstate _ hy), h.2⟩)
    have hpids' := hfresh k.currentProcess (fun y hy _ ↦ hpids y hy)
    have hD' : ∀ d ∈ D, d ≠ 0 ∧ d ∉ L.filter (fun y ↦ (k.pcb y).pid ≠ pid) ∧
        (k'.pcb d).pstate ≠ 1 :=
      fun d hd ↦ ⟨(hD d hd).1, fun hmem ↦ (hD d hd).2.1 (List.mem_of_mem_filter hmem),
        fun hy ↦ (hD d hd).2.2 (hstate _ hy)⟩
    by_cases hsp : s ∈ L ∧ (k.pcb s).pid = pid
    · -- the chain of nodes that left the list gets longer by one
      refine .gone (D := D ++ [s]) (s := k.next s) (hfirst.trans hf) hc' hout'
        (hcurrent.symm ▸ hpids') ?_ (fun d hd ↦ ?_) (removed_next hl hsp.1 hsp.2)
      · exact path_snoc.mpr ⟨hpath', hr.next s (Or.inr hsp.2)⟩
      · rcases List.mem_append.mp hd with hd | hd
        · exact hD' d hd
        · rw [List.mem_singleton.mp hd]
          refine ⟨ne_of_mem_of_not_mem hsp.1 hl.listed.not_null,
            fun hmem ↦ (mem_removed.mp hmem).2 hsp.2, ?_⟩
          rw [hr.pcb, if_pos hsp]
          simp
    · refine .gone (hfirst.trans hf) hc' hout' (hcurrent.symm ▸ hpids') hpath' hD' ?_
      exact hs.imp id (fun hmem ↦ mem_removed.mpr ⟨hmem, fun hpid ↦ hsp ⟨hmem, hpid⟩⟩)

end Remove

section Insert

variable (hc : Created k k' c L)

include hc

theorem Linked.created (h : Linked k L) (hnew : c.newNode ∉ L) (hdummy : c.newNode ≠ k.dummy)
    (hcounter : k.pid ≠ 0) : Linked k' (withNew k c L) := by
  have hpcb : ∀ y ∈ L, k'.pcb y = k.pcb y := by
    intro y hy
    rw [hc.pcb, update_of_ne (ne_of_mem_of_not_mem hy hnew)]
  have hnewpid : (k'.pcb c.newNode).pid = k.pid := by
    rw [hc.pcb, update_self]
    rfl
  have hcount : k'.pid = u32 (k.pid + 1) := hc.fields.counter
  have hlt : k'.pid ≠ 0 → k'.pid = k.pid + 1 := by
    intro h0
    have hk := h.counter.1
    rw [hcount] at h0 ⊢
    unfold u32 at h0 ⊢
    omega
  have hdummy' : k'.dummy = k.dummy := hc.fields.dummy
  have hout : ∀ y, y ≠ c.newNode → y ∉ L → k'.next y = k.next y := fun y hy hyL ↦
    hc.next y (by simp [hy, hyL])
  refine ⟨hc.listed, ?_, ?_, ?_, ?_, ?_, fun y hy ↦ ?_, fun h0 y hy ↦ ?_, ⟨?_, fun h0 ↦ ?_⟩,
    hc.fields.quantum.trans h.quantum⟩
  · rw [hdummy']
    exact h.dummy_ne_null
  · rw [hdummy', mem_withNew, not_or]
    exact ⟨hdummy.symm, h.dummy_not_mem⟩
  · rw [hdummy', hc.pcb, update_of_ne hdummy.symm]
    exact h.dummy_pid
  · rw [hdummy', hout _ hdummy.symm h.dummy_not_mem]
    exact h.dummy_next
  · rw [(withNew_perm.map _).nodup_iff, List.map_cons, List.nodup_cons, hnewpid,
      List.map_congr_left (fun y hy ↦ congrArg Pcb.pid (hpcb y hy))]
    refine ⟨fun hmem ↦ ?_, h.pids⟩
    obtain ⟨y, hy, hpid⟩ := List.mem_map.mp hmem
    have hltk := h.pid_lt hcounter y hy
    omega
  · rcases mem_withNew.mp hy with rfl | hy
    · rw [hnewpid]
      omega
    · rw [hpcb y hy]
      exact h.pid_pos y hy
  · rcases mem_withNew.mp hy with rfl | hy
    · rw [hnewpid, hlt h0]
      omega
    · rw [hpcb y hy, hlt h0]
      have hltk := h.pid_lt hcounter y hy
      omega
  · rw [hcount]
    exact u32_lt _
  · rw [hlt h0]
    omega

theorem Running.created (h : Running k L) (hl : Linked k L) (hnew : c.newNode ∉ L)
    (hcounter : k.pid ≠ 0) : Running k' (withNew k c L) := by
  have hcurrent : k'.currentProcess = k.currentProcess := hc.fields.currentProcess
  have hfirst : k'.firstProcess = k.firstProcess := hc.fields.firstProcess
  have hdummy' : k'.dummy = k.dummy := hc.fields.dummy
  have hcount : k'.pid = u32 (k.pid + 1) := hc.fields.counter
  have hpcb : ∀ y, y ≠ c.newNode → k'.pcb y = k.pcb y := fun y hy ↦ by
    rw [hc.pcb, update_of_ne hy]
  have hout : ∀ y, y ≠ c.newNode → y ∉ L → k'.next y = k.next y := fun y hy hyL ↦
    hc.next y (by simp [hy, hyL])
  cases h with
  | boot hf hcur hone =>
    obtain ⟨y, hy, hpid⟩ := hone
    refine .boot (hfirst ▸ hf) (hcurrent.trans hcur) ⟨y, mem_withNew.mpr (Or.inr hy), ?_⟩
    rw [hpcb y (ne_of_mem_of_not_mem hy hnew), hpid]
  | listed hf hcur =>
    refine .listed (hfirst.trans hf) ?_
    rw [hcurrent]
    exact mem_withNew.mpr (Or.inr hcur)
  | @gone D s hf hcur houtside hpids hpath hD hs =>
    by_cases hreuse : k.currentProcess = c.newNode
    · refine .listed (hfirst.trans hf) ?_
      rw [hcurrent, hreuse]
      exact mem_withNew.mpr (Or.inl rfl)
    have hgone : k.currentProcess = k.dummy ∨ (k.pcb k.currentProcess).pid < k.pid :=
      houtside.imp id (fun h ↦ h.2.2 hcounter)
    have hcur' : k'.currentProcess ∉ withNew k c L := by
      rw [hcurrent, mem_withNew]
      rintro (heq | hmem)
      · exact hreuse heq
      · exact hcur hmem
    have hout' : k'.currentProcess = k'.dummy ∨
        (k'.pcb k'.currentProcess).pstate ≠ 1 ∧ 1 ≤ (k'.pcb k'.currentProcess).pid ∧
          (k'.pid ≠ 0 → (k'.pcb k'.currentProcess).pid < k'.pid) := by
      rw [hcurrent, hdummy', hpcb _ hreuse]
      refine houtside.imp id (fun h ↦ ⟨h.1, h.2.1, fun h0 ↦ ?_⟩)
      have hlt := h.2.2 hcounter
      rw [hcount] at h0 ⊢
      unfold u32 at h0 ⊢
      have hk := hl.counter.1
      omega
    have hpids' : ∀ y ∈ withNew k c L, (k'.pcb y).pid ≠ (k'.pcb k'.currentProcess).pid := by
      intro y hy
      rw [hcurrent, hpcb _ hreuse]
      rcases mem_withNew.mp hy with rfl | hy
      · rw [hc.pcb, update_self]
        change k.pid ≠ _
        rcases hgone with hd | hlt
        · rw [hd, hl.dummy_pid]
          exact hcounter
        · omega
      · rw [hpcb y (ne_of_mem_of_not_mem hy hnew)]
        exact hpids y hy
    have hD' : ∀ d ∈ D, d ≠ c.newNode →
        d ≠ 0 ∧ d ∉ withNew k c L ∧ (k'.pcb d).pstate ≠ 1 := by
      intro d hd hdn
      rw [mem_withNew, not_or, hpcb d hdn]
      exact ⟨(hD d hd).1, ⟨hdn, (hD d hd).2.1⟩, (hD d hd).2.2⟩
    have hstart : k'.next k'.currentProcess = k.next k.currentProcess := by
      rw [hcurrent, hout _ hreuse hcur]
    by_cases hmem : c.newNode ∈ D
    · -- the chain now ends at the new node
      obtain ⟨D₁, D₂, rfl, hnot⟩ := List.eq_append_cons_of_mem hmem
      obtain ⟨b, hpath₁, rfl, -⟩ := path_append.mp hpath
      have hne : ∀ d ∈ D₁, d ≠ c.newNode := fun d hd ↦ ne_of_mem_of_not_mem hd hnot
      refine .gone (D := D₁) (s := c.newNode) (hfirst.trans hf) hcur' hout' hpids' ?_
        (fun d hd ↦ hD' d (List.mem_append_left _ hd) (hne d hd))
        (Or.inr (mem_withNew.mpr (Or.inl rfl)))
      rw [hstart]
      exact hpath₁.congr (fun d hd ↦ hout d (hne d hd) (hD d (List.mem_append_left _ hd)).2.1)
    · have hne : ∀ d ∈ D, d ≠ c.newNode := fun d hd ↦ ne_of_mem_of_not_mem hd hmem
      refine .gone (D := D) (s := s) (hfirst.trans hf) hcur' hout' hpids' ?_
        (fun d hd ↦ hD' d hd (hne d hd)) (hs.imp id (fun h ↦ mem_withNew.mpr (Or.inr h)))
      rw [hstart]
      exact hpath.congr (fun d hd ↦ hout d (hne d hd) (hD d hd).2.1)

end Insert

section Reorder

variable {v : ℕ} (hr : Reordered k k' L x v)

include hr

theorem reordered_pid (y : ℕ) : (k'.pcb y).pid = (k.pcb y).pid := by
  rw [hr.pcb]
  by_cases hy : y = x <;> simp [hy]

theorem Linked.reordered (h : Linked k L) (hx : x ∈ L.tail) : Linked k' (moved k x v L) :=
  h.perm hr.listed (moved_perm hx v) hr.next hr.fields.dummy hr.fields.counter hr.fields.quantum
    (reordered_pid hr)

theorem Running.reordered (h : Running k L) (hx : x ∈ L.tail) : Running k' (moved k x v L) := by
  refine h.perm (moved_perm hx v) hr.next hr.fields.currentProcess hr.fields.firstProcess
    hr.fields.dummy hr.fields.counter (reordered_pid hr) (fun y hy hready ↦ ?_)
  rw [hr.pcb, update_of_ne] at hready
  · exact hready
  · rintro rfl
    exact hy (List.mem_of_mem_tail hx)

end Reorder

section State

theorem setState_pcb (y v : ℕ) : (setState k a v).pcb y =
    if y = a then { k.pcb a with pstate := v } else k.pcb y := by
  rw [setState, pcb_setPcb, update_apply]

theorem setState_pid (y v : ℕ) : ((setState k a v).pcb y).pid = (k.pcb y).pid := by
  rw [setState_pcb]
  split
  · rename_i h
    rw [h]
  · rfl

theorem Linked.setState (h : Linked k L) (a v : ℕ) : Linked (setState k a v) L := by
  refine h.perm ⟨?_, h.listed.not_null, h.listed.nodup⟩ (.refl L) (fun y _ ↦ ?_) rfl rfl rfl
    (fun y ↦ setState_pid y v)
  · rw [Scheduler.setState, next_setPcb]
    exact h.listed.path
  · rw [Scheduler.setState, next_setPcb]

theorem Running.setState {v : ℕ} (h : Running k L) (hv : a ∈ L ∨ v ≠ 1) :
    Running (setState k a v) L := by
  refine h.perm (.refl L) (fun y _ ↦ ?_) rfl rfl rfl rfl (fun y ↦ setState_pid y v)
    (fun y hy hready ↦ ?_)
  · rw [Scheduler.setState, next_setPcb]
  · rw [setState_pcb] at hready
    split at hready
    · rename_i heq
      rcases hv with hmem | hv
      · exact absurd hmem (heq ▸ hy)
      · exact absurd hready hv
    · exact hready

end State

section Switch

structure Behind (k : Kernel) (L N : List ℕ) : Prop where
  path : Path k.next (k.next k.currentProcess) N 0
  not_null : 0 ∉ N
  live : ∀ y ∈ N, (k.pcb y).pstate = 1 → y ∈ L
  split : k.currentProcess ∈ L → ∃ F, L = F ++ k.currentProcess :: N

theorem Running.behind (h : Running k L) (hl : Listed k L) (hfirst : k.firstProcess = 0) :
    ∃ N, Behind k L N := by
  cases h with
  | boot hf => exact absurd hfirst hf
  | listed hf hc =>
    obtain ⟨F, N, hL⟩ := List.append_of_mem hc
    have hpath := hl.path
    rw [hL] at hpath
    obtain ⟨b, -, rfl, hN⟩ := path_append.mp hpath
    have hmem : ∀ y ∈ N, y ∈ L := fun y hy ↦ by rw [hL]; simp [hy]
    exact ⟨N, hN, fun h0 ↦ hl.not_null (hmem 0 h0), fun y hy _ ↦ hmem y hy, fun _ ↦ ⟨F, hL⟩⟩
  | @gone D s hf hc hout hpids hpath hD hs =>
    have hD0 : 0 ∉ D := fun h0 ↦ (hD 0 h0).1 rfl
    rcases hs with rfl | hs
    · exact ⟨D, hpath, hD0, fun y hy hr ↦ absurd hr (hD y hy).2.2, fun hmem ↦ absurd hmem hc⟩
    · obtain ⟨F, M, hL⟩ := List.append_of_mem hs
      have hrest := hl.path
      rw [hL] at hrest
      obtain ⟨b, -, hM⟩ := path_append.mp hrest
      have hb : b = s := hM.1
      have hmem : ∀ y ∈ s :: M, y ∈ L := fun y hy ↦ by
        rw [hL]
        exact List.mem_append_right _ hy
      refine ⟨D ++ s :: M, path_append.mpr ⟨s, hpath, hb ▸ hM⟩, fun h0 ↦ ?_, fun y hy hr ↦ ?_,
        fun hmem ↦ absurd hmem hc⟩
      · rcases List.mem_append.mp h0 with h0 | h0
        · exact hD0 h0
        · exact hl.not_null (hmem 0 h0)
      · rcases List.mem_append.mp hy with hy | hy
        · exact absurd hr (hD y hy).2.2
        · exact hmem y hy

structure Switched (k k' : Kernel) (L : List ℕ) : Prop where
  next : k'.next = k.next
  start : k'.start = k.start
  dummy : k'.dummy = k.dummy
  fgTaken : k'.fgTaken = k.fgTaken
  counter : k'.pid = k.pid
  quantum : k'.quantum = 0
  firstProcess : k'.firstProcess = 0
  current : k'.currentProcess ∈ L ∨ k'.currentProcess = k.dummy
  pcb : ∀ y, ∃ aux sp, k'.pcb y = { k.pcb y with auxPriority := aux, sp := sp } ∧
    (aux = (k.pcb y).auxPriority ∨ aux = (k.pcb y).priority ∨
      1 < (k.pcb y).auxPriority ∧ aux = (k.pcb y).auxPriority - 1)
  first : k.firstProcess ≠ 0 → k'.currentProcess = k.start
  settled : k.firstProcess = 0 → k'.currentProcess ≠ k.dummy →
    (k'.pcb k'.currentProcess).auxPriority = (k'.pcb k'.currentProcess).priority

theorem Running.ready_listed (h : Running k L) (hl : Linked k L) (hfirst : k.firstProcess = 0)
    (hready : (k.pcb k.currentProcess).pstate = 1) (hpid : (k.pcb k.currentProcess).pid ≠ 0) :
    k.currentProcess ∈ L := by
  cases h with
  | boot hf => exact absurd hfirst hf
  | listed _ hc => exact hc
  | gone _ _ hout =>
    rcases hout with hd | hout
    · rw [hd, hl.dummy_pid] at hpid
      exact absurd rfl hpid
    · exact absurd hready hout.1

theorem switchProcess_run (hl : Linked k L) (hr : Running k L) (hfirst : k.firstProcess = 0)
    (sp : ℕ) :
    ∃ N k₁, Behind k L N ∧ (∀ n, L.length < n → aging n k = some k₁) ∧ AfterAging k k₁ L ∧
      (∀ n, L.length + N.length < n → switchProcess n k sp =
        some (select (saveSp k₁ sp) (chosen (saveSp k₁ sp) L N))) ∧
      ∀ a, chosen (saveSp k₁ sp) L N = some a → a ∈ L := by
  obtain ⟨N, hN⟩ := hr.behind hl.listed hfirst
  obtain ⟨k₁, haging, haged, hswitch⟩ :=
    switchProcess_spec hl.listed hN.path hN.not_null hfirst hl.quantum sp
  have hk : { k with quantum := 0 } = k := by rw [← hl.quantum]
  rw [hk] at haging haged
  refine ⟨N, k₁, hN, haging, haged, hswitch, fun a ha ↦ ?_⟩
  refine chosen_mem (haged.saved_listed hl.listed sp) ?_ ?_ (fun y hy hready ↦ ?_)
    (fun hready hpid ↦ ?_) ha
  · rw [List.map_congr_left (fun y _ ↦ haged.saved_pid sp y)]
    exact hl.pids
  · rw [haged.saved_next, haged.saved_current]
    exact hN.path
  · simp only [readyOf, haged.saved_pstate, decide_eq_true_eq] at hready
    exact hN.live y hy hready
  · simp only [readyOf, haged.saved_current, haged.saved_pstate, haged.saved_pid,
      decide_eq_true_eq] at hready hpid ⊢
    exact hr.ready_listed hl hfirst hready hpid

theorem AfterAging.switched {k₁ : Kernel} {b : Option ℕ} {sp : ℕ} (h : AfterAging k k₁ L)
    (hfirst : k.firstProcess = 0) (hquantum : k.quantum = 0) (hb : ∀ a, b = some a → a ∈ L) :
    Switched k (select (saveSp k₁ sp) b).1 L := by
  have hfields := h.saved_fields sp
  have hselect := select_fields (k := saveSp k₁ sp) (b := b)
  refine ⟨select_next.trans (h.saved_next sp), ?_, ?_, ?_, ?_, ?_, ?_, ?_, fun y ↦ ?_,
    fun hf ↦ absurd hfirst hf, fun _ hlive ↦ ?_⟩
  · rw [hselect, hfields]
  · rw [hselect, hfields]
  · rw [hselect, hfields]
  · rw [hselect, hfields]
  · rw [hselect, hfields]
    exact hquantum
  · rw [hselect, hfields]
    exact hfirst
  · rw [select_current]
    cases b with
    | none =>
      refine Or.inr ?_
      rw [hfields]
      rfl
    | some a => exact Or.inl (hb a rfl)
  · obtain ⟨aux, sp', hpcb, haux⟩ := h.saved sp y
    rw [select_pcb, hpcb]
    split
    · exact ⟨_, _, rfl, Or.inr (Or.inl rfl)⟩
    · exact ⟨_, _, rfl, haux.imp id Or.inr⟩
  · cases b with
    | none =>
      refine absurd ?_ hlive
      rw [select_current, hfields]
      rfl
    | some a =>
      rw [select_pcb, select_current, Option.getD_some, if_pos rfl]

theorem switchProcess_switched {sp : ℕ} {r : Kernel × ℕ} (hl : Linked k L) (hr : Running k L)
    (hs : switchProcess n k sp = some r) : Switched k r.1 L := by
  by_cases hfirst : k.firstProcess = 0
  · obtain ⟨N, k₁, hN, haging, haged, hswitch, hmem⟩ := switchProcess_run hl hr hfirst sp
    have hr' := eq_of_enough (fun n m h ↦ switchProcess_mono h sp) hs hswitch
    subst hr'
    exact AfterAging.switched haged hfirst hl.quantum hmem
  · rw [switchProcess, if_pos hfirst, Option.some_inj] at hs
    subst hs
    refine ⟨rfl, rfl, rfl, rfl, rfl, hl.quantum, rfl, Or.inl ?_, fun y ↦ ⟨_, _, rfl, Or.inl rfl⟩,
      fun _ ↦ rfl, fun hf ↦ absurd hf hfirst⟩
    cases hr with
    | boot _ _ hone =>
      obtain ⟨y, hy, -⟩ := hone
      exact hl.listed.path.start_mem (List.ne_nil_of_mem hy)
    | listed hf => exact absurd hf hfirst
    | gone hf => exact absurd hf hfirst

theorem Switched.pid_eq (h : Switched k k' L) (y : ℕ) : (k'.pcb y).pid = (k.pcb y).pid := by
  obtain ⟨aux, sp, hpcb, -⟩ := h.pcb y
  rw [hpcb]

theorem Linked.switched (hl : Linked k L) (h : Switched k k' L) : Linked k' L := by
  refine hl.perm ⟨?_, hl.listed.not_null, hl.listed.nodup⟩ (.refl L)
    (fun y _ ↦ congrFun h.next y) h.dummy h.counter (h.quantum.trans hl.quantum.symm) h.pid_eq
  rw [h.next, h.start]
  exact hl.listed.path

theorem Running.switched (hl : Linked k L) (h : Switched k k' L) : Running k' L := by
  rcases h.current with hmem | hdummy
  · exact .listed h.firstProcess hmem
  · refine .gone (D := []) (s := 0) h.firstProcess ?_ (Or.inl ?_) (fun y hy ↦ ?_) ?_ (by simp)
      (Or.inl rfl)
    · rw [hdummy]
      exact hl.dummy_not_mem
    · rw [hdummy, h.dummy]
    · have hpos := hl.pid_pos y hy
      rw [h.pid_eq, h.pid_eq, hdummy, hl.dummy_pid]
      omega
    · rw [hdummy, h.next]
      exact hl.dummy_next

end Switch

/-- The process counter did not wrap, the first node of a list has no link in
it, a wake-up is one of a listed process, and the head of the list is not moved. -/
def Regular (k : Kernel) : Act → Prop
  | .create c => k.pid ≠ 0 ∧ (k.start = 0 → k.next c.newNode = 0)
  | .changeProcessPriority pid _ => k.start ≠ 0 → 1 < pid → (k.pcb k.start).pid ≠ pid
  | .wake process => ∃ L, Listed k L ∧ process ∈ L
  | _ => True

def exitFlag (k : Kernel) : Kernel :=
  { k with fgTaken := if (k.pcb k.currentProcess).priority = 1 then 0 else k.fgTaken }

theorem exitCurrentProcess_eq (n : ℕ) (k : Kernel) : exitCurrentProcess n k =
    (deleteProcess (k.pcb k.currentProcess).pid n (exitFlag k) k.start).map fun r ↦
      { r.1 with start := r.2 } := by
  by_cases hprio : (k.pcb k.currentProcess).priority = 1
  · simp only [exitCurrentProcess, exitFlag, if_pos hprio]
    rfl
  · simp only [exitCurrentProcess, exitFlag, if_neg hprio]

def OfState : Act → Prop
  | .changeProcessState _ | .block | .wake _ => True
  | _ => False

/-- Everything a step can do to the list `L`, with the list it leaves. -/
inductive Effect (k k' : Kernel) (L : List ℕ) : Act → List ℕ → Prop
  | created {c : Create} : c.newNode ≠ k.dummy → c.newNode ∉ L → k.pid ≠ 0 → Created k k' c L →
      Effect k k' L (.create c) (withNew k c L)
  | removed {pid : ℕ} : 1 < pid → Removed k k' L pid →
      Effect k k' L (.killPid pid) (L.filter fun y ↦ (k.pcb y).pid ≠ pid)
  | spared {pid : ℕ} : pid ≤ 1 → k' = k → Effect k k' L (.killPid pid) L
  | exited : k.firstProcess = 0 → k.currentProcess ≠ k.dummy →
      Removed (exitFlag k) k' L (k.pcb k.currentProcess).pid →
      Effect k k' L .exit (L.filter fun y ↦ (k.pcb y).pid ≠ (k.pcb k.currentProcess).pid)
  | reordered {x pid v : ℕ} : x ∈ L.tail → (k.pcb x).pid = pid → 1 < pid → 1 < v → v ≤ 10 →
      Reordered k k' L x v → Effect k k' L (.changeProcessPriority pid v) (moved k x v L)
  | refused {pid v : ℕ} : pid ≤ 1 ∨ v ≤ 1 ∨ 10 < v ∨ (∀ y ∈ L, (k.pcb y).pid ≠ pid) → k' = k →
      Effect k k' L (.changeProcessPriority pid v) L
  | state {act : Act} {a v : ℕ} : OfState act → a ∈ L ∨ v ≠ 1 ∧ a = k.currentProcess →
      k' = setState k a v → Effect k k' L act L
  | same {act : Act} : OfState act → k' = k → Effect k k' L act L
  | switched {sp : ℕ} : Switched k k' L → Effect k k' L (.switchProcess sp) L

theorem Running.first (h : Running k L) (hc : k.currentProcess ≠ 0) : k.firstProcess = 0 := by
  cases h with
  | boot _ hcurrent => exact absurd hcurrent hc
  | listed hf => exact hf
  | gone hf => exact hf

section Effects

variable (hl : Linked k L)

include hl

theorem create_effect {r : Kernel × ℤ} (h0 : c.newNode ≠ 0) (hdummy : c.newNode ≠ k.dummy)
    (hnew : c.newNode ∉ L) (hok : Regular k (.create c)) (hcall : createProcess n k c = some r) :
    Effect k r.1 L (.create c) (withNew k c L) := by
  have hfirst : L = [] → k.next c.newNode = 0 := by
    rintro rfl
    exact hok.2 hl.listed.path
  obtain ⟨r', hcreate, hcreated⟩ := createProcess_spec hl.listed hnew h0 hfirst
  have hr := eq_of_enough (fun n m h ↦ createProcess_mono h) hcall hcreate
  exact .created hdummy hnew hok.1 (hr ▸ hcreated)

theorem killPid_effect (hcall : killPid n k pid = some k') :
    ∃ L', Effect k k' L (.killPid pid) L' := by
  by_cases hpid : 1 < pid
  · obtain ⟨r, hdelete, hremoved⟩ := deleteProcess_spec hl.listed hl.pids pid
    rw [killPid, if_pos hpid] at hcall
    obtain ⟨r', hcall', rfl⟩ := Option.map_eq_some_iff.mp hcall
    have hr := eq_of_enough (fun n m h ↦ deleteProcess_mono h _ _) hcall' hdelete
    exact ⟨_, .removed hpid (hr ▸ hremoved)⟩
  · rw [killPid, if_neg hpid, Option.some_inj] at hcall
    exact ⟨_, .spared (by omega) hcall.symm⟩

theorem exit_removed (hcall : exitCurrentProcess n k = some k') :
    Removed (exitFlag k) k' L (k.pcb k.currentProcess).pid := by
  have hlisted : Listed (exitFlag k) L := ⟨hl.listed.path, hl.listed.not_null, hl.listed.nodup⟩
  obtain ⟨r, hdelete, hremoved⟩ := deleteProcess_spec hlisted hl.pids (k.pcb k.currentProcess).pid
  rw [exitCurrentProcess_eq] at hcall
  obtain ⟨r', hcall', rfl⟩ := Option.map_eq_some_iff.mp hcall
  have hr := eq_of_enough (fun n m h ↦ deleteProcess_mono h _ _) hcall' hdelete
  exact hr ▸ hremoved

theorem changeProcessPriority_effect {v : ℕ} (hok : Regular k (.changeProcessPriority pid v))
    (hcall : changeProcessPriority n k pid v = some k') :
    ∃ L', Effect k k' L (.changeProcessPriority pid v) L' := by
  by_cases hno : pid ≤ 1 ∨ v ≤ 1 ∨ 10 < v ∨ ∀ y ∈ L, (k.pcb y).pid ≠ pid
  · have hrefused := eq_of_enough (fun n m h ↦ changeProcessPriority_mono h v) hcall
      (fun m hm ↦ changeProcessPriority_refused hl.listed v hno hm)
    exact ⟨_, .refused hno hrefused⟩
  · simp only [not_or, not_le, not_lt, not_forall, not_not] at hno
    obtain ⟨hpid, hlo, hhi, x, hx, hxp⟩ := hno
    have htail : x ∈ L.tail := by
      cases L with
      | nil => cases hx
      | cons a T =>
        rcases List.mem_cons.mp hx with rfl | hx
        · have hstart : k.start = x := hl.listed.path.1
          have hx0 : x ≠ 0 := ne_of_mem_of_not_mem List.mem_cons_self hl.listed.not_null
          exact absurd (hstart.symm ▸ hxp) (hok (hstart.symm ▸ hx0) hpid)
        · exact hx
    obtain ⟨k₁, hchange, hreordered⟩ :=
      changeProcessPriority_spec hl.listed hl.pids hpid hlo hhi htail hxp
    have hk := eq_of_enough (fun n m h ↦ changeProcessPriority_mono h v) hcall hchange
    exact ⟨_, .reordered htail hxp hpid hlo hhi (hk ▸ hreordered)⟩

theorem changeProcessState_effect (hcall : changeProcessState n k pid = some k') :
    Effect k k' L (.changeProcessState pid) L := by
  by_cases hpid : pid ≤ 1
  · rw [changeProcessState, if_pos hpid, Option.some_inj] at hcall
    exact .same trivial hcall.symm
  obtain ⟨p, hget, hp⟩ := getPCB_spec hl.listed pid
  rw [changeProcessState, if_neg hpid] at hcall
  obtain ⟨q, hcall, hk⟩ := Option.map_eq_some_iff.mp hcall
  have hq := eq_of_enough (fun n m h ↦ extends_seek _ h) hcall hget
  rw [hq] at hk
  by_cases hp0 : p = 0
  · rw [if_pos hp0] at hk
    exact .same trivial hk.symm
  have hpL : p ∈ L := by
    rcases hp with hp | hp
    · exact absurd hp.1 hp0
    · exact hp.1
  rw [if_neg hp0] at hk
  split at hk
  · exact .state trivial (Or.inl hpL) hk.symm
  split at hk
  · exact .state trivial (Or.inl hpL) hk.symm
  · exact .same trivial hk.symm

end Effects

theorem step_effect {act : Act} (hl : Linked k L) (hr : Running k L) (hs : Step k act k')
    (hok : Regular k act) : ∃ L', Effect k k' L act L' := by
  cases hs with
  | create h0 hdummy hfresh hcall =>
    exact ⟨_, create_effect hl h0 hdummy (hfresh L hl.listed) hok hcall⟩
  | killPid hcall => exact killPid_effect hl hcall
  | exit h0 hdummy hcall => exact ⟨_, .exited (hr.first h0) hdummy (exit_removed hl hcall)⟩
  | changeProcessPriority hcall => exact changeProcessPriority_effect hl hok hcall
  | changeProcessState hcall => exact ⟨_, changeProcessState_effect hl hcall⟩
  | block h0 hdummy => exact ⟨_, .state trivial (Or.inr ⟨Nat.zero_ne_one, rfl⟩) rfl⟩
  | wake h0 =>
    obtain ⟨L', hL', hmem⟩ := hok
    exact ⟨_, .state trivial (Or.inl (hl.listed.unique hL' ▸ hmem)) rfl⟩
  | switchProcess hcall => exact ⟨_, .switched (switchProcess_switched hl hr hcall)⟩

theorem Linked.exitFlag (h : Linked k L) : Linked (exitFlag k) L :=
  h.perm ⟨h.listed.path, h.listed.not_null, h.listed.nodup⟩ (.refl L) (fun _ _ ↦ rfl) rfl rfl rfl
    (fun _ ↦ rfl)

theorem Running.exitFlag (h : Running k L) : Running (exitFlag k) L :=
  h.perm (.refl L) (fun _ _ ↦ rfl) rfl rfl rfl rfl (fun _ ↦ rfl) (fun _ _ h ↦ h)

theorem Effect.linked {act : Act} (h : Effect k k' L act L') (hl : Linked k L) : Linked k' L' := by
  cases h with
  | created hdummy hnew hcounter hc => exact hl.created hc hnew hdummy hcounter
  | removed hpid hremoved => exact hl.removed hremoved
  | spared hpid hk => exact hk ▸ hl
  | exited hfirst hdummy hremoved =>
    have hlinked := hl.exitFlag.removed hremoved
    exact hlinked
  | reordered hx hpid h1 hlo hhi hreordered => exact hl.reordered hreordered hx
  | refused hno hk => exact hk ▸ hl
  | @state _ a v hact hmem hk => exact hk ▸ hl.setState a v
  | same hact hk => exact hk ▸ hl
  | switched hs => exact hl.switched hs

theorem Effect.running {act : Act} (h : Effect k k' L act L') (hl : Linked k L)
    (hr : Running k L) : Running k' L' := by
  cases h with
  | created hdummy hnew hcounter hc => exact hr.created hc hl hnew hcounter
  | removed hpid hremoved => exact hr.removed hremoved hl (fun _ ↦ by omega)
  | spared hpid hk => exact hk ▸ hr
  | exited hfirst hdummy hremoved =>
    have hrunning := hr.exitFlag.removed hremoved hl.exitFlag (fun hf ↦ absurd hfirst hf)
    exact hrunning
  | reordered hx hpid h1 hlo hhi hreordered => exact hr.reordered hreordered hx
  | refused hno hk => exact hk ▸ hr
  | @state _ a v hact hmem hk => exact hk ▸ hr.setState (hmem.imp id And.left)
  | same hact hk => exact hk ▸ hr
  | switched hs => exact .switched hl hs

def Sound (k : Kernel) : Prop := ∃ L, Linked k L ∧ Running k L

theorem step_sound {act : Act} (h : Sound k) (hok : Regular k act) (hs : Step k act k') :
    Sound k' := by
  obtain ⟨L, hl, hr⟩ := h
  obtain ⟨L', heffect⟩ := step_effect hl hr hs hok
  exact ⟨L', heffect.linked hl, heffect.running hl hr⟩

structure Started (b : Boot) (k : Kernel) : Prop where
  linked : Linked k [b.newNode]
  running : Running k [b.newNode]
  shell : (k.pcb b.newNode).pid = 1 ∧ (k.pcb b.newNode).priority = 1 ∧
    (k.pcb b.newNode).auxPriority = 1
  fgTaken : k.fgTaken = 0
  counter : k.pid = 2
  firstProcess : k.firstProcess ≠ 0
  shell_sp : (k.pcb b.newNode).sp = initProcess (b.processMemory + defaultProgramSize)
  dummy_sp : (k.pcb k.dummy).sp = initProcess (b.dummyMemory + 2048)

theorem main_started {b : Boot} (h : main n b = some k) : Started b k := by
  let c : Create := ⟨1, [[83, 104, 101, 108, 108]], 0, 0, b.newNode, b.processMemory⟩
  let k₀ := initScheduler b.node b.dummyMemory b.dummy
  have hempty : Listed k₀ [] := ⟨rfl, List.not_mem_nil, List.nodup_nil⟩
  have hunwritten : k₀.next c.newNode = 0 := by
    change (update b.node b.dummy _ b.newNode).next = 0
    rw [update_of_ne b.apart]
    exact b.unwritten
  obtain ⟨r, hcreate, hcreated⟩ := createProcess_spec (c := c) hempty List.not_mem_nil
    b.newNode_ne_null (fun _ ↦ hunwritten)
  obtain ⟨r', hcall, rfl⟩ := Option.map_eq_some_iff.mp h
  have hr := eq_of_enough (fun n m h ↦ createProcess_mono h) hcall hcreate
  subst hr
  have hpcb : r'.1.pcb b.newNode = newPcb c 1 (k₀.pcb b.newNode) := by
    rw [hcreated.pcb]
    exact update_self _ _ _
  have hdummy : r'.1.dummy = b.dummy := hcreated.fields.dummy
  have hcount : r'.1.pid = 2 := hcreated.fields.counter
  have hdpcb : (r'.1.pcb b.dummy).pid = 0 ∧
      (r'.1.pcb b.dummy).sp = initProcess (b.dummyMemory + 2048) := by
    rw [hcreated.pcb, update_of_ne b.apart.symm]
    change (update b.node b.dummy _ b.dummy).process.pid = 0 ∧
      (update b.node b.dummy _ b.dummy).process.sp = _
    rw [update_self]
    exact ⟨rfl, rfl⟩
  have hdnext : r'.1.next b.dummy = 0 := by
    rw [hcreated.next _ (by simp [c, b.apart.symm])]
    change (update b.node b.dummy _ b.dummy).next = 0
    rw [update_self]
  refine ⟨⟨hcreated.listed, ?_, ?_, ?_, ?_, ?_, ?_, ?_, ?_, hcreated.fields.quantum⟩, ?_, ?_,
    hcreated.fields.fgTaken, hcount, ?_, ?_, ?_⟩
  · rw [hdummy]
    exact b.dummy_ne_null
  · rw [hdummy, List.mem_singleton]
    exact b.apart.symm
  · rw [hdummy, hdpcb.1]
  · rw [hdummy, hdnext]
  · simp
  · simp [hpcb, newPcb]
  · simp [hpcb, newPcb, hcount]
  · rw [hcount]
    decide
  · refine .boot ?_ hcreated.fields.currentProcess ⟨b.newNode, by simp, by rw [hpcb]; rfl⟩
    rw [hcreated.fields.firstProcess]
    exact Nat.one_ne_zero
  · rw [hpcb]
    exact ⟨rfl, rfl, rfl⟩
  · rw [hcreated.fields.firstProcess]
    exact Nat.one_ne_zero
  · rw [hpcb]
    rfl
  · rw [hdummy, hdpcb.2]

theorem Started.sound {b : Boot} (h : Started b k) : Sound k := ⟨_, h.linked, h.running⟩

section Perform

variable {act : Act}

def Unlisted (n : ℕ) (k : Kernel) (a : ℕ) : Prop :=
  seek (fun y ↦ y = 0 || y = a) k.next n k.start = some 0

instance (n : ℕ) (k : Kernel) (a : ℕ) : Decidable (Unlisted n k a) := by
  unfold Unlisted
  infer_instance

theorem Unlisted.not_mem {a : ℕ} (h : Unlisted n k a) (ha : a ≠ 0) {L : List ℕ}
    (hL : Listed k L) : a ∉ L := Library.Fuel.Path.not_mem_of_seek hL.path hL.not_null ha h

def perform (n : ℕ) (k : Kernel) : Act → Option Kernel
  | .create c =>
    if c.newNode ≠ 0 ∧ c.newNode ≠ k.dummy ∧ Unlisted n k c.newNode then
      (createProcess n k c).map Prod.fst
    else none
  | .killPid pid => killPid n k pid
  | .exit =>
    if k.currentProcess ≠ 0 ∧ k.currentProcess ≠ k.dummy then exitCurrentProcess n k else none
  | .changeProcessPriority pid newPriority => changeProcessPriority n k pid newPriority
  | .changeProcessState pid => changeProcessState n k pid
  | .block =>
    if k.currentProcess ≠ 0 ∧ k.currentProcess ≠ k.dummy then some (blockCurrentProcess k)
    else none
  | .wake process => if process ≠ 0 then some (setState k process 1) else none
  | .switchProcess sp => (switchProcess n k sp).map Prod.fst

theorem step_perform (h : perform n k act = some k') : Step k act k' := by
  cases act with
  | create c =>
    obtain ⟨hc, h⟩ := Option.ite_none_right_eq_some.mp h
    obtain ⟨r, hcall, rfl⟩ := Option.map_eq_some_iff.mp h
    exact .create hc.1 hc.2.1 (fun L hL ↦ hc.2.2.not_mem hc.1 hL) hcall
  | killPid pid => exact .killPid h
  | exit =>
    obtain ⟨hc, h⟩ := Option.ite_none_right_eq_some.mp h
    exact .exit hc.1 hc.2 h
  | changeProcessPriority pid v => exact .changeProcessPriority h
  | changeProcessState pid => exact .changeProcessState h
  | block =>
    obtain ⟨hc, h⟩ := Option.ite_none_right_eq_some.mp h
    exact Option.some_inj.mp h ▸ .block hc.1 hc.2
  | wake process =>
    obtain ⟨hc, h⟩ := Option.ite_none_right_eq_some.mp h
    exact Option.some_inj.mp h ▸ .wake hc
  | switchProcess sp =>
    obtain ⟨r, hcall, rfl⟩ := Option.map_eq_some_iff.mp h
    exact .switchProcess hcall

def Routine (k : Kernel) : Act → Prop
  | .create c => k.pid ≠ 0 ∧ k.start ≠ 0 ∧ c.newNode ≠ k.currentProcess
  | .killPid _ | .exit | .changeProcessState _ | .switchProcess _ => True
  | .changeProcessPriority _ _ | .block | .wake _ => False

instance (k : Kernel) : DecidablePred (Routine k)
  | .create c =>
    inferInstanceAs (Decidable (k.pid ≠ 0 ∧ k.start ≠ 0 ∧ c.newNode ≠ k.currentProcess))
  | .killPid _ | .exit | .changeProcessState _ | .switchProcess _ => inferInstanceAs (Decidable True)
  | .changeProcessPriority _ _ | .block | .wake _ => inferInstanceAs (Decidable False)

theorem Routine.regular (h : Routine k act) : Regular k act := by
  cases act with
  | create c => exact ⟨h.1, fun hstart ↦ absurd hstart h.2.1⟩
  | changeProcessPriority pid v => exact h.elim
  | wake process => exact h.elim
  | _ => exact trivial

theorem run_of_routine {acts : List Act}
    (h : acts.foldlM (fun k act ↦ if Routine k act then perform n k act else none) k = some k') :
    ∃ tr, Run Step k tr k' ∧ tr.map Prod.snd = acts ∧ ∀ e ∈ tr, Routine e.1 e.2 := by
  obtain ⟨tr, hrun, hacts, hroutine⟩ := run_of_checked h
  exact ⟨tr, hrun.mono fun _ _ _ hs ↦ step_perform hs, hacts, hroutine⟩

end Perform

def blankNode : ListNode := ⟨⟨[], 0, 0, 0, 0, 0, 0, 0, 0, 0⟩, 0⟩

def smallBoot : Boot :=
  ⟨fun _ ↦ blankNode, 0x1000, 1, 2, 0x2000, by decide, by decide, by decide, rfl⟩

def booted : Kernel := (main 1 smallBoot).getD (initScheduler (fun _ ↦ blankNode) 0 0)

theorem main_smallBoot : main 1 smallBoot = some booted := rfl

theorem booted_listed : Listed booted [2] := ⟨⟨rfl, rfl⟩, by decide, by decide⟩

end ShellOS.Sched.SchedulerRun
