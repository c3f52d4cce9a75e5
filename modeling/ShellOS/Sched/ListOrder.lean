import ShellOS.Sched.SchedulerRun

namespace ShellOS.Sched.ListOrder

open Library.Fuel Library.Links Library.Runs Library.StableInsert Library.Words Scheduler
open ProcessList SchedulerRun Function

/-- The shell heads the list, which is sorted by priority, and no priority on
loan is below 1 or above the process's own. -/
structure Ordered (k : Kernel) (L : List ℕ) : Prop where
  shell : ∃ s T, L = s :: T ∧ (k.pcb s).pid = 1 ∧ (k.pcb s).priority = 1
  sorted : L.Pairwise fun y z ↦ priorityOf k y ≤ priorityOf k z
  aux : ∀ y ∈ L, 1 ≤ (k.pcb y).auxPriority ∧ (k.pcb y).auxPriority ≤ (k.pcb y).priority

variable {k k' : Kernel} {L L' T : List ℕ} {act : Act} {s x pid n : ℕ} {c : Create}

theorem ordered_cons (hpid : (k.pcb s).pid = 1) (hpriority : (k.pcb s).priority = 1)
    (hT : T.Pairwise fun y z ↦ priorityOf k y ≤ priorityOf k z)
    (haux : ∀ y ∈ s :: T, 1 ≤ (k.pcb y).auxPriority ∧ (k.pcb y).auxPriority ≤ (k.pcb y).priority) :
    Ordered k (s :: T) := by
  refine ⟨⟨s, T, rfl, hpid, hpriority⟩, List.pairwise_cons.mpr ⟨fun y hy ↦ ?_, hT⟩, haux⟩
  have hy := haux y (List.mem_cons_of_mem _ hy)
  rw [priorityOf, priorityOf, hpriority]
  omega

theorem Ordered.same (h : Ordered k L) (hpid : ∀ y ∈ L, (k'.pcb y).pid = (k.pcb y).pid)
    (hpriority : ∀ y ∈ L, (k'.pcb y).priority = (k.pcb y).priority)
    (haux : ∀ y ∈ L, 1 ≤ (k'.pcb y).auxPriority ∧
      (k'.pcb y).auxPriority ≤ (k.pcb y).priority) : Ordered k' L := by
  obtain ⟨⟨s, T, rfl, hs, hone⟩, hsorted, -⟩ := h
  refine ordered_cons ((hpid s List.mem_cons_self).trans hs)
    ((hpriority s List.mem_cons_self).trans hone) ?_ (fun y hy ↦ ?_)
  · refine (List.pairwise_cons.mp hsorted).2.imp_of_mem (fun hy hz hle ↦ ?_)
    rw [priorityOf, priorityOf, hpriority _ (List.mem_cons_of_mem _ hy),
      hpriority _ (List.mem_cons_of_mem _ hz)]
    exact hle
  · rw [hpriority y hy]
    exact haux y hy

theorem Ordered.created (h : Ordered k L) (hnew : c.newNode ∉ L) (hpriority : 1 ≤ c.priority)
    (hc : Created k k' c L) : Ordered k' (withNew k c L) := by
  have hold : ∀ y ∈ L, k'.pcb y = k.pcb y := by
    intro y hy
    rw [hc.pcb, update_of_ne (ne_of_mem_of_not_mem hy hnew)]
  have hnewpcb : k'.pcb c.newNode = newPcb c k.pid (k.pcb c.newNode) := by
    rw [hc.pcb, update_self]
  obtain ⟨⟨s, T, rfl, hs, hone⟩, hsorted, haux⟩ := h
  have hkey : ∀ y ∈ T, priorityOf k' y = priorityOf k y :=
    fun y hy ↦ congrArg Pcb.priority (hold y (List.mem_cons_of_mem _ hy))
  refine ordered_cons ?_ ?_ ?_ (fun y hy ↦ ?_)
  · rw [hold s List.mem_cons_self, hs]
  · rw [hold s List.mem_cons_self, hone]
  · rw [← insertBehind_congr hkey]
    refine sorted_insertBehind ?_ (congrArg Pcb.priority hnewpcb)
    refine (List.pairwise_cons.mp hsorted).2.imp_of_mem (fun hy hz hle ↦ ?_)
    rw [hkey _ hy, hkey _ hz]
    exact hle
  · have hmem : y ∈ withNew k c (s :: T) := hy
    rcases mem_withNew.mp hmem with rfl | hy
    · rw [hnewpcb]
      exact ⟨hpriority, le_rfl⟩
    · rw [hold y hy]
      exact haux y hy

theorem Ordered.removed (h : Ordered k L) (hpid : pid ≠ 1) (hr : Removed k k' L pid) :
    Ordered k' (L.filter fun y ↦ (k.pcb y).pid ≠ pid) := by
  have hold : ∀ y ∈ L.filter (fun y ↦ (k.pcb y).pid ≠ pid), k'.pcb y = k.pcb y := by
    intro y hy
    rw [hr.pcb, if_neg (fun h ↦ (mem_removed.mp hy).2 h.2)]
  have hkept : Ordered k (L.filter fun y ↦ (k.pcb y).pid ≠ pid) := by
    obtain ⟨⟨s, T, rfl, hs, hone⟩, hsorted, haux⟩ := h
    refine ⟨⟨s, T.filter fun y ↦ (k.pcb y).pid ≠ pid, ?_, hs, hone⟩, hsorted.filter _,
      fun y hy ↦ haux y (List.mem_of_mem_filter hy)⟩
    rw [List.filter_cons_of_pos]
    simpa [hs] using hpid.symm
  refine hkept.same (fun y hy ↦ ?_) (fun y hy ↦ ?_) (fun y hy ↦ ?_)
  · rw [hold y hy]
  · rw [hold y hy]
  · rw [hold y hy]
    exact hkept.aux y hy

theorem Ordered.reordered {v : ℕ} (h : Ordered k L) (hnd : L.Nodup) (hx : x ∈ L.tail)
    (hv : 1 < v) (hr : Reordered k k' L x v) : Ordered k' (moved k x v L) := by
  obtain ⟨⟨s, T, rfl, hs, hone⟩, hsorted, haux⟩ := h
  obtain ⟨hsT, hndT⟩ := List.nodup_cons.mp hnd
  have hsx : s ≠ x := fun heq ↦ hsT (heq ▸ hx)
  have hold : ∀ y, y ≠ x → k'.pcb y = k.pcb y := by
    intro y hy
    rw [hr.pcb, update_of_ne hy]
  have hxpcb : k'.pcb x = { k.pcb x with priority := v, auxPriority := v } := by
    rw [hr.pcb, update_self]
  have hkey : ∀ y ∈ T.erase x, priorityOf k' y = priorityOf k y :=
    fun y hy ↦ congrArg Pcb.priority (hold y (hndT.mem_erase_iff.mp hy).1)
  refine ordered_cons ?_ ?_ ?_ (fun y hy ↦ ?_)
  · rw [hold s hsx, hs]
  · rw [hold s hsx, hone]
  · rw [← insertBehind_congr hkey]
    refine sorted_insertBehind ?_ (congrArg Pcb.priority hxpcb)
    refine ((List.pairwise_cons.mp hsorted).2.sublist List.erase_sublist).imp_of_mem
      (fun hy hz hle ↦ ?_)
    rw [hkey _ hy, hkey _ hz]
    exact hle
  · by_cases hyx : y = x
    · rw [hyx, hxpcb]
      exact ⟨hv.le, le_rfl⟩
    · have hmem : y ∈ moved k x v (s :: T) := hy
      have hy : y ∈ s :: T := (moved_perm hx v).mem_iff.mp hmem
      rw [hold y hyx]
      exact haux y hy

theorem Ordered.setState (h : Ordered k L) (a v : ℕ) : Ordered (setState k a v) L := by
  have hsame : ∀ y, ((Scheduler.setState k a v).pcb y).priority = (k.pcb y).priority ∧
      ((Scheduler.setState k a v).pcb y).auxPriority = (k.pcb y).auxPriority := by
    intro y
    rw [setState_pcb]
    split
    · rename_i heq
      rw [heq]
      exact ⟨rfl, rfl⟩
    · exact ⟨rfl, rfl⟩
  refine h.same (fun y _ ↦ setState_pid y v) (fun y _ ↦ (hsame y).1) (fun y hy ↦ ?_)
  rw [(hsame y).2]
  exact h.aux y hy

theorem Ordered.switched (h : Ordered k L) (hs : Switched k k' L) : Ordered k' L := by
  refine h.same (fun y _ ↦ hs.pid_eq y) (fun y _ ↦ ?_) (fun y hy ↦ ?_)
  · obtain ⟨aux, sp, hpcb, -⟩ := hs.pcb y
    rw [hpcb]
  · obtain ⟨aux, sp, hpcb, haux⟩ := hs.pcb y
    have hy := h.aux y hy
    rw [hpcb]
    change 1 ≤ aux ∧ aux ≤ _
    omega

/-- A new process has a priority of at least 1, the shell does not exit, and a
wake-up is one of a listed process. -/
def Allowed (k : Kernel) : Act → Prop
  | .create c => 1 ≤ c.priority
  | .exit => (k.pcb k.currentProcess).pid ≠ 1
  | .wake process => ∃ L, Listed k L ∧ process ∈ L
  | _ => True

theorem regular_of_allowed (h : Ordered k L) (hl : Listed k L) (hok : Allowed k act)
    (hcounter : ∀ c, act = .create c → k.pid ≠ 0) : Regular k act := by
  obtain ⟨⟨s, T, rfl, hs, -⟩, -, -⟩ := h
  have hstart : k.start = s := hl.path.1
  have hs0 : s ≠ 0 := ne_of_mem_of_not_mem List.mem_cons_self hl.not_null
  cases act with
  | create c => exact ⟨hcounter c rfl, fun h0 ↦ absurd (hstart.symm.trans h0) hs0⟩
  | changeProcessPriority pid v =>
    intro _ hpid
    rw [hstart, hs]
    exact hpid.ne
  | wake process => exact hok
  | _ => trivial

theorem effect_ordered (h : Ordered k L) (hl : Linked k L) (hok : Allowed k act)
    (he : Effect k k' L act L') : Ordered k' L' := by
  cases he with
  | created hdummy hnew hcounter hc => exact h.created hnew hok hc
  | removed hpid hremoved => exact h.removed hpid.ne' hremoved
  | spared hpid hk => exact hk ▸ h
  | exited hfirst hdummy hremoved =>
    have hflag : Ordered (exitFlag k) L := ⟨h.shell, h.sorted, h.aux⟩
    exact hflag.removed hok hremoved
  | reordered hx hpid h1 hlo hhi hreordered => exact h.reordered hl.listed.nodup hx hlo hreordered
  | refused hno hk => exact hk ▸ h
  | state hact hmem hk => exact hk ▸ h.setState _ _
  | same hact hk => exact hk ▸ h
  | switched hs => exact h.switched hs

def Settled (k : Kernel) (L : List ℕ) : Prop :=
  k.currentProcess ∈ L →
    (k.pcb k.currentProcess).auxPriority = (k.pcb k.currentProcess).priority

theorem Settled.same (h : Settled k L) (hcurrent : k'.currentProcess = k.currentProcess)
    (hmem : k.currentProcess ∈ L' → k.currentProcess ∈ L)
    (hpcb : (k'.pcb k.currentProcess).auxPriority = (k.pcb k.currentProcess).auxPriority ∧
      (k'.pcb k.currentProcess).priority = (k.pcb k.currentProcess).priority) : Settled k' L' := by
  intro hc
  rw [hcurrent] at hc ⊢
  rw [hpcb.1, hpcb.2]
  exact h (hmem hc)

theorem Settled.created (h : Settled k L) (hc : Created k k' c L) :
    Settled k' (withNew k c L) := by
  have hcurrent : k'.currentProcess = k.currentProcess := hc.fields.currentProcess
  by_cases hnew : k.currentProcess = c.newNode
  · intro _
    rw [hcurrent, hnew, hc.pcb, update_self]
    rfl
  · refine h.same hcurrent (fun hmem ↦ (mem_withNew.mp hmem).resolve_left hnew) ?_
    rw [hc.pcb, update_of_ne hnew]
    exact ⟨rfl, rfl⟩

theorem Settled.removed (h : Settled k L) (hr : Removed k k' L pid) :
    Settled k' (L.filter fun y ↦ (k.pcb y).pid ≠ pid) := by
  refine h.same hr.fields.currentProcess List.mem_of_mem_filter ?_
  rw [hr.pcb]
  split <;> exact ⟨rfl, rfl⟩

theorem Settled.reordered {v : ℕ} (h : Settled k L) (hx : x ∈ L.tail)
    (hr : Reordered k k' L x v) : Settled k' (moved k x v L) := by
  by_cases hcx : k.currentProcess = x
  · intro _
    have hcurrent : k'.currentProcess = k.currentProcess := hr.fields.currentProcess
    rw [hcurrent, hcx, hr.pcb, update_self]
  · refine h.same hr.fields.currentProcess (moved_perm hx v).mem_iff.mp ?_
    rw [hr.pcb, update_of_ne hcx]
    exact ⟨rfl, rfl⟩

theorem Settled.setState (h : Settled k L) (a v : ℕ) : Settled (setState k a v) L := by
  refine h.same rfl id ?_
  rw [setState_pcb]
  split
  · rename_i heq
    rw [heq]
    exact ⟨rfl, rfl⟩
  · exact ⟨rfl, rfl⟩

theorem Settled.switched (ho : Ordered k L) (hl : Linked k L) (hs : Switched k k' L) :
    Settled k' L := by
  intro hc
  by_cases hfirst : k.firstProcess = 0
  · exact hs.settled hfirst (ne_of_mem_of_not_mem hc hl.dummy_not_mem)
  · obtain ⟨⟨s, T, rfl, -, hone⟩, -, haux⟩ := ho
    have hstart : k.start = s := hl.listed.path.1
    have hshell := haux s List.mem_cons_self
    obtain ⟨aux, sp, hpcb, hcases⟩ := hs.pcb s
    rw [hs.first hfirst, hstart, hpcb]
    change aux = (k.pcb s).priority
    omega

theorem effect_settled (h : Settled k L) (ho : Ordered k L) (hl : Linked k L)
    (he : Effect k k' L act L') : Settled k' L' := by
  cases he with
  | created hdummy hnew hcounter hc => exact h.created hc
  | removed hpid hremoved => exact h.removed hremoved
  | spared hpid hk => exact hk ▸ h
  | exited hfirst hdummy hremoved =>
    have hflag : Settled (exitFlag k) L := h
    exact hflag.removed hremoved
  | reordered hx hpid h1 hlo hhi hreordered => exact h.reordered hx hreordered
  | refused hno hk => exact hk ▸ h
  | state hact hmem hk => exact hk ▸ h.setState _ _
  | same hact hk => exact hk ▸ h
  | switched hs => exact .switched ho hl hs

section Live

def isCreate : Act → Bool
  | .create _ => true
  | _ => false

def creations (tr : List (Kernel × Act)) : ℕ := tr.countP fun e ↦ isCreate e.2

def liveStep (P : List ℕ) : Kernel × Act → List ℕ
  | (k, .create _) => k.pid :: P
  | (_, .killPid pid) => if 1 < pid then P.filter (· ≠ pid) else P
  | (k, .exit) => P.filter (· ≠ (k.pcb k.currentProcess).pid)
  | _ => P

/-- The pids of the live processes, from the shell's on. -/
def live (tr : List (Kernel × Act)) : List ℕ := tr.foldl liveStep [1]

variable {P : List ℕ}

theorem removed_live (hr : Removed k k' L pid) (hP : (L.map fun y ↦ (k.pcb y).pid).Perm P) :
    ((L.filter fun y ↦ (k.pcb y).pid ≠ pid).map fun y ↦ (k'.pcb y).pid).Perm
      (P.filter (· ≠ pid)) := by
  have hmap : (L.filter fun y ↦ (k.pcb y).pid ≠ pid).map (fun y ↦ (k'.pcb y).pid) =
      (L.map fun y ↦ (k.pcb y).pid).filter (· ≠ pid) := by
    rw [List.filter_map, List.map_congr_left (fun y _ ↦ hr.pid_eq y)]
    rfl
  rw [hmap]
  exact hP.filter _

theorem effect_live (hP : (L.map fun y ↦ (k.pcb y).pid).Perm P) (he : Effect k k' L act L') :
    (L'.map fun y ↦ (k'.pcb y).pid).Perm (liveStep P (k, act)) := by
  cases he with
  | @created c hdummy hnew hcounter hc =>
    have hnewpid : (k'.pcb c.newNode).pid = k.pid := by
      rw [hc.pcb, update_self]
      rfl
    have hold : L.map (fun y ↦ (k'.pcb y).pid) = L.map fun y ↦ (k.pcb y).pid := by
      refine List.map_congr_left (fun y hy ↦ ?_)
      rw [hc.pcb, update_of_ne (ne_of_mem_of_not_mem hy hnew)]
    have hperm := (withNew_perm (k := k) (c := c) (L := L)).map fun y ↦ (k'.pcb y).pid
    rw [List.map_cons, hnewpid, hold] at hperm
    exact hperm.trans (hP.cons _)
  | removed hpid hremoved =>
    rw [liveStep, if_pos hpid]
    exact removed_live hremoved hP
  | spared hpid hk =>
    rw [liveStep, if_neg (not_lt.mpr hpid), hk]
    exact hP
  | exited hfirst hdummy hremoved => exact removed_live (k := exitFlag k) hremoved hP
  | @reordered x pid v hx hpid h1 hlo hhi hreordered =>
    have hperm := (moved_perm (k := k) hx v).map fun y ↦ (k'.pcb y).pid
    rw [List.map_congr_left (l := L) (fun y _ ↦ reordered_pid hreordered y)] at hperm
    exact hperm.trans hP
  | refused hno hk => exact hk ▸ hP
  | @state act a v hact hmem hk =>
    have hsame : liveStep P (k, act) = P := by cases act <;> first | rfl | cases hact
    rw [hsame, hk, List.map_congr_left (fun y _ ↦ setState_pid y v)]
    exact hP
  | @same act hact hk =>
    have hsame : liveStep P (k, act) = P := by cases act <;> first | rfl | cases hact
    rw [hsame, hk]
    exact hP
  | switched hs =>
    rw [List.map_congr_left (fun y _ ↦ hs.pid_eq y)]
    exact hP

theorem effect_counter (he : Effect k k' L act L') :
    k'.pid = if isCreate act then u32 (k.pid + 1) else k.pid := by
  cases he with
  | created hdummy hnew hcounter hc => exact hc.fields.counter
  | removed hpid hremoved => exact hremoved.fields.counter
  | spared hpid hk => rw [hk]; rfl
  | exited hfirst hdummy hremoved => exact hremoved.fields.counter
  | reordered hx hpid h1 hlo hhi hreordered => exact hreordered.fields.counter
  | refused hno hk => rw [hk]; rfl
  | @state act a v hact hmem hk =>
    have hno : isCreate act = false := by cases act <;> first | rfl | cases hact
    rw [hno, hk]
    rfl
  | @same act hact hk =>
    have hno : isCreate act = false := by cases act <;> first | rfl | cases hact
    rw [hno, hk]
    rfl
  | switched hs => exact hs.counter

structure Kept (k : Kernel) (L : List ℕ) (tr : List (Kernel × Act)) : Prop where
  linked : Linked k L
  running : Running k L
  ordered : Ordered k L
  settled : Settled k L
  live : (L.map fun y ↦ (k.pcb y).pid).Perm (live tr)
  counter : k.pid = u32 (creations tr + 2)

theorem creations_snoc (tr : List (Kernel × Act)) (k : Kernel) (act : Act) :
    creations (tr ++ [(k, act)]) = creations tr + if isCreate act then 1 else 0 := by
  rw [creations, List.countP_append, List.countP_singleton]
  rfl

theorem Kept.step {tr : List (Kernel × Act)} (h : Kept k L tr) (hok : Allowed k act)
    (hcount : creations (tr ++ [(k, act)]) < 2 ^ 32 - 1) (hs : Step k act k') :
    ∃ L', Effect k k' L act L' ∧ Kept k' L' (tr ++ [(k, act)]) := by
  rw [creations_snoc] at hcount
  have hregular : Regular k act := by
    refine regular_of_allowed h.ordered h.linked.listed hok (fun c hc ↦ ?_)
    rw [hc, isCreate, if_pos rfl] at hcount
    rw [h.counter, u32_of_lt (by omega)]
    omega
  obtain ⟨L', he⟩ := step_effect h.linked h.running hs hregular
  refine ⟨L', he, he.linked h.linked, he.running h.linked h.running,
    effect_ordered h.ordered h.linked hok he, effect_settled h.settled h.ordered h.linked he, ?_, ?_⟩
  · rw [ListOrder.live, List.foldl_append]
    exact effect_live h.live he
  · rw [effect_counter he, creations_snoc, h.counter]
    by_cases hcreate : isCreate act
    · rw [if_pos hcreate] at hcount
      rw [if_pos hcreate, if_pos hcreate, u32_of_lt (by omega : creations tr + 2 < 2 ^ 32)]
    · rw [if_neg hcreate, if_neg hcreate]

theorem started_kept {b : Boot} (h : Started b k) : Kept k [b.newNode] [] := by
  obtain ⟨hpid, hpriority, haux⟩ := h.shell
  refine ⟨h.linked, h.running, ordered_cons hpid hpriority .nil (fun y hy ↦ ?_), fun hc ↦ ?_, ?_,
    h.counter⟩
  · rw [List.mem_singleton.mp hy, hpriority, haux]
    exact ⟨le_rfl, le_rfl⟩
  · rw [List.mem_singleton.mp hc, hpriority, haux]
  · rw [List.map_singleton, hpid]
    exact .refl _

theorem run_kept_with {P : Kernel → List ℕ → Prop} {b : Boot} {k₀ : Kernel}
    {tr : List (Kernel × Act)} (hmain : main n b = some k₀) (hrun : Run Step k₀ tr k)
    (hok : ∀ e ∈ tr, Allowed e.1 e.2) (hcount : creations tr < 2 ^ 32 - 1)
    (hstart : P k₀ [b.newNode])
    (hstep : ∀ {k act k' L L' pre}, Kept k L pre → P k L → Allowed k act →
      Effect k k' L act L' → P k' L') :
    ∃ L, Kept k L tr ∧ P k L := by
  let I := fun (pre : List (Kernel × Act)) (k : Kernel) ↦
    creations pre < 2 ^ 32 - 1 → ∃ L, Kept k L pre ∧ P k L
  have hI : ∀ pre k act k', I pre k → Allowed k act → Step k act k' → I (pre ++ [(k, act)]) k' := by
    intro pre k act k' h hok hs hcount
    have hle : creations pre ≤ creations (pre ++ [(k, act)]) := by
      rw [creations_snoc]
      omega
    obtain ⟨L, hkept, hP⟩ := h (by omega)
    obtain ⟨L', he, hkept'⟩ := hkept.step hok hcount hs
    exact ⟨L', hkept', hstep hkept hP hok he⟩
  have hfirst : I [] k₀ := fun _ ↦ ⟨_, started_kept (main_started hmain), hstart⟩
  exact hrun.history hI hok hfirst hcount

theorem run_kept {b : Boot} {k₀ : Kernel} {tr : List (Kernel × Act)} (hmain : main n b = some k₀)
    (hrun : Run Step k₀ tr k) (hok : ∀ e ∈ tr, Allowed e.1 e.2)
    (hcount : creations tr < 2 ^ 32 - 1) : ∃ L, Kept k L tr := by
  obtain ⟨L, hkept, -⟩ := run_kept_with (P := fun _ _ ↦ True) hmain hrun hok hcount trivial
    (fun _ _ _ _ ↦ trivial)
  exact ⟨L, hkept⟩

theorem killPid_list (hl : Linked k L) (hpid : 1 < pid) :
    ∃ k', (∀ n, L.length < n → killPid n k pid = some k') ∧ Removed k k' L pid := by
  obtain ⟨r, hdelete, hremoved⟩ := deleteProcess_spec hl.listed hl.pids pid
  refine ⟨_, fun n hn ↦ ?_, hremoved⟩
  rw [killPid, if_pos hpid, hdelete n hn, Option.map_some]

theorem changeProcessPriority_list {v : ℕ} (hl : Linked k L) (ho : Ordered k L) (hx : x ∈ L)
    (hxp : (k.pcb x).pid = pid) (hpid : 1 < pid) (hlo : 1 < v) (hhi : v ≤ 10) :
    ∃ k', (∀ n, L.length < n → changeProcessPriority n k pid v = some k') ∧ x ∈ L.tail ∧
      Reordered k k' L x v := by
  obtain ⟨⟨s, T, rfl, hs, -⟩, -, -⟩ := ho
  have htail : x ∈ T := by
    rcases List.mem_cons.mp hx with rfl | hx
    · omega
    · exact hx
  obtain ⟨k', hchange, hreordered⟩ :=
    changeProcessPriority_spec hl.listed hl.pids hpid hlo hhi htail hxp
  exact ⟨k', hchange, htail, hreordered⟩

/-- After every run from boot the list holds the live processes, each once, in
order of priority with the shell first. A kill then takes out the process it
names and nothing else, and a change of priority that passes its checks moves
one process and changes its two priorities. -/
theorem process_list {b : Boot} {k₀ : Kernel} {tr : List (Kernel × Act)}
    (hmain : main n b = some k₀) (hrun : Run Step k₀ tr k) (hok : ∀ e ∈ tr, Allowed e.1 e.2)
    (hcount : creations tr < 2 ^ 32 - 1) :
    ∃ L, Listed k L ∧ (L.map fun y ↦ (k.pcb y).pid).Perm (live tr) ∧
      (L.map fun y ↦ (k.pcb y).pid).Nodup ∧ (L.head?.map fun y ↦ (k.pcb y).pid) = some 1 ∧
      (L.Pairwise fun y z ↦ (k.pcb y).priority ≤ (k.pcb z).priority) ∧
      (∀ y ∈ L, 1 ≤ (k.pcb y).auxPriority ∧ (k.pcb y).auxPriority ≤ (k.pcb y).priority) ∧
      (∀ pid, 1 < pid → ∃ k', (∀ n, L.length < n → killPid n k pid = some k') ∧
        Listed k' (L.filter fun y ↦ (k.pcb y).pid ≠ pid) ∧
        ∀ y ∈ L, (k.pcb y).pid ≠ pid → k'.pcb y = k.pcb y) ∧
      ∀ x ∈ L, ∀ v, 1 < (k.pcb x).pid → 1 < v → v ≤ 10 →
        ∃ k' L', (∀ n, L.length < n → changeProcessPriority n k (k.pcb x).pid v = some k') ∧
          Listed k' L' ∧ L'.Perm L ∧ k'.pcb = update k.pcb x
            { k.pcb x with priority := v, auxPriority := v } := by
  obtain ⟨L, h⟩ := run_kept hmain hrun hok hcount
  refine ⟨L, h.linked.listed, h.live, h.linked.pids, ?_, h.ordered.sorted, h.ordered.aux,
    fun pid hpid ↦ ?_, fun x hx v hpid hlo hhi ↦ ?_⟩
  · obtain ⟨s, T, rfl, hs, -⟩ := h.ordered.shell
    rw [List.head?_cons, Option.map_some, hs]
  · obtain ⟨k', hkill, hr⟩ := killPid_list h.linked hpid
    refine ⟨k', hkill, hr.listed, fun y hy hne ↦ ?_⟩
    rw [hr.pcb, if_neg (fun h ↦ hne h.2)]
  · obtain ⟨k', hchange, htail, hr⟩ :=
      changeProcessPriority_list h.linked h.ordered hx rfl hpid hlo hhi
    exact ⟨k', _, hchange, hr.listed, moved_perm htail v, hr.pcb⟩

def editor : Create := ⟨3, [], 0, 0, 3, 0x3000⟩

def withEditor : Kernel × ℤ := (createProcess 2 booted editor).getD (booted, 0)

theorem step_editor : Step booted (.create editor) withEditor.1 := by
  refine .create (n := 2) (r := withEditor) (by decide) (by decide) (fun L hL ↦ ?_) rfl
  rw [hL.unique booted_listed]
  decide

def moveAndKill : List Act :=
  [.create editor, .create { editor with priority := 5, newNode := 4 }, .switchProcess 0x7000,
    .changeProcessPriority 3 2, .killPid 2]

theorem moveAndKill_isSome : (moveAndKill.foldlM (perform 8) booted).isSome := by decide +kernel

def killed : Kernel := (moveAndKill.foldlM (perform 8) booted).get moveAndKill_isSome

theorem killed_listed : Listed killed [2, 4] := by
  have hstart : killed.start = 2 := by decide +kernel
  have hsecond : killed.next 2 = 4 := by decide +kernel
  have hlast : killed.next 4 = 0 := by decide +kernel
  exact ⟨⟨hstart, hsecond, hlast⟩, by decide, by decide⟩

theorem killed_run : ∃ tr, Run Step booted tr killed ∧ tr.map Prod.snd = moveAndKill ∧
    (∀ e ∈ tr, Allowed e.1 e.2) ∧ creations tr < 2 ^ 32 - 1 := by
  have hperform : moveAndKill.foldlM (perform 8) booted = some killed :=
    (Option.some_get moveAndKill_isSome).symm
  obtain ⟨tr, hrun, hacts⟩ := run_of_foldlM hperform
  have hrun := hrun.mono fun _ _ _ h ↦ step_perform h
  have hall : ∀ act ∈ moveAndKill, ∀ k, Allowed k act := by simp [moveAndKill, Allowed, editor]
  have hcount : creations tr = moveAndKill.countP isCreate := by
    rw [← hacts, List.countP_map]
    rfl
  exact ⟨tr, hrun, hacts, fun e he ↦ hall e.2 (hacts ▸ List.mem_map_of_mem he) e.1,
    by rw [hcount]; decide⟩

theorem process_list_move_and_kill : ∃ tr, Run Step booted tr killed ∧
    tr.map Prod.snd = moveAndKill ∧ [1, 3].Perm (live tr) ∧
    (killed.pcb 2).priority ≤ (killed.pcb 4).priority := by
  obtain ⟨tr, hrun, hacts, hok, hcount⟩ := killed_run
  obtain ⟨L, hlisted, hlive, -, -, hsorted, -⟩ := process_list main_smallBoot hrun hok hcount
  obtain rfl := hlisted.unique killed_listed
  have hpids : [2, 4].map (fun y ↦ (killed.pcb y).pid) = [1, 3] := by decide +kernel
  exact ⟨tr, hrun, hacts, hpids ▸ hlive, (List.pairwise_cons.mp hsorted).1 4 List.mem_cons_self⟩

end Live

end ShellOS.Sched.ListOrder
