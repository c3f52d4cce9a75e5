import Mathlib.Data.List.TakeWhile
import ShellOS.Sched.ListOrder

namespace ShellOS.Sched.Selection

open Library.FirstMin Library.Fuel Library.Links Library.Runs Scheduler ProcessList SwitchSpec
open SchedulerRun ListOrder Function

/-- A process that may run: it is ready, and not a shell that is held back. -/
def Eligible (k : Kernel) (e : ℕ) : Prop := readyOf k e ∧ ¬ Held k e

def agedAux (k : Kernel) (y : ℕ) : ℕ :=
  if k.priorityQuantum = 0 ∧ Ages k y then (k.pcb y).auxPriority - 1 else (k.pcb y).auxPriority

/-- Of the processes before the current one, none that is not ready is ahead of
all ready ones before it. -/
def Unovertaken (k : Kernel) : Prop :=
  ∀ L, Listed k L → NoOvertaking (readyOf k) (agedAux k) (candidates k L)

/-- When a process may run, one of those with the least priority on loan is
selected. -/
def SelectsLeast (k : Kernel) (sp : ℕ) : Prop :=
  ∀ L n k₁ r, Listed k L → aging n k = some k₁ → switchProcess n k sp = some r →
    (∃ e ∈ L, Eligible k e) → r.1.currentProcess ≠ k.dummy ∧
      ∀ e ∈ L, Eligible k e →
        (k₁.pcb r.1.currentProcess).auxPriority ≤ (k₁.pcb e).auxPriority

variable {k k₁ : Kernel} {L N T : List ℕ} {s sp n : ℕ} {tr : List (Kernel × Act)}

theorem saved_aux (k₁ : Kernel) (sp y : ℕ) :
    auxOf (saveSp k₁ sp) y = (k₁.pcb y).auxPriority := by
  rw [auxOf, saveSp_pcb]
  split <;> rfl

section Saved

variable (h : AfterAging k k₁ L) (sp : ℕ)

include h

theorem saved_ready : readyOf (saveSp k₁ sp) = readyOf k := by
  funext y
  rw [readyOf, readyOf, h.saved_pstate]

theorem saved_held (y : ℕ) : Held (saveSp k₁ sp) y ↔ Held k y := by
  have hfg : (saveSp k₁ sp).fgTaken = k.fgTaken := by rw [h.saved_fields sp]
  rw [Held, Held, h.saved_pid, hfg]

theorem saved_before : before (saveSp k₁ sp) L = before k L := by
  rw [before, before, h.saved_current]
  congr 1
  funext y
  rw [h.saved_pid, h.saved_pid]

theorem saved_candidates : candidates (saveSp k₁ sp) L = candidates k L := by
  rw [candidates, candidates, saved_before h]
  congr 1
  funext y
  rw [decide_eq_decide, saved_held h]

theorem aged_aux {y : ℕ} (hy : y ∈ L) : (k₁.pcb y).auxPriority = agedAux k y := by
  rw [h.pcb, agedAux]
  by_cases hage : k.priorityQuantum = 0 ∧ Ages k y
  · rw [if_pos hage, if_pos ⟨hage.1, hy, hage.2⟩]
  · rw [if_neg hage, if_neg (fun h ↦ hage ⟨h.1, h.2.2⟩)]

theorem current_aux : (k₁.pcb k.currentProcess).auxPriority =
    (k.pcb k.currentProcess).auxPriority := by
  rw [h.pcb, if_neg]
  exact fun hage ↦ hage.2.2.2.1 rfl

theorem aux_le (y : ℕ) : (k₁.pcb y).auxPriority ≤ (k.pcb y).auxPriority := by
  rw [h.pcb]
  split
  · exact Nat.sub_le _ _
  · exact le_rfl

end Saved

theorem before_current {F : List ℕ} (h : L = F ++ k.currentProcess :: N)
    (hpids : (L.map fun y ↦ (k.pcb y).pid).Nodup) : before k L = F := by
  rw [h, List.map_append, List.map_cons, List.nodup_middle, List.nodup_cons] at hpids
  have hF : ∀ y ∈ F, decide ((k.pcb y).pid ≠ (k.pcb k.currentProcess).pid) = true := by
    intro y hy
    rw [decide_eq_true_eq]
    intro heq
    exact hpids.1 (List.mem_append_left _ (List.mem_map.mpr ⟨y, hy, heq⟩))
  rw [h, before, List.takeWhile_append_of_pos hF, List.takeWhile_cons_of_neg (by simp),
    List.append_nil]

theorem kept_current (h : Kept k L tr) (hfirst : k.firstProcess = 0) (hN : Behind k L N)
    (haged : AfterAging k k₁ L) (sp : ℕ) : Current (saveSp k₁ sp) L N := by
  have hcurrent : (saveSp k₁ sp).currentProcess = k.currentProcess := haged.saved_current sp
  cases h.running with
  | boot hf => exact absurd hfirst hf
  | listed _ hc =>
    obtain ⟨F, hL⟩ := hN.split hc
    have hpos := h.linked.pid_pos _ hc
    have hbefore : before (saveSp k₁ sp) L = F :=
      (saved_before haged sp).trans (before_current hL h.linked.pids)
    refine .listed (by rw [hcurrent]; exact hL) hbefore (fun y hy ↦ ?_) ?_
    · -- an earlier process has no greater priority, and the current one no loan
      have hyL : y ∈ L := hL ▸ List.mem_append_left _ hy
      have hsorted := h.ordered.sorted
      rw [hL, List.pairwise_append] at hsorted
      have hle : (k.pcb y).priority ≤ (k.pcb k.currentProcess).priority :=
        hsorted.2.2 y hy _ List.mem_cons_self
      have haux := (h.ordered.aux y hyL).2
      have hage := aux_le haged y
      have hsettled := h.settled hc
      rw [hcurrent, saved_aux, saved_aux, current_aux haged]
      omega
    · rw [hcurrent, haged.saved_pid]
      omega
  | gone _ hc hout hpids =>
    refine .gone ?_ (fun hready ↦ ?_)
    · rw [saved_before haged, before, List.takeWhile_eq_self_iff]
      intro y hy
      simpa using hpids y hy
    · rw [saved_ready haged, hcurrent, readyOf, decide_eq_true_eq] at hready
      rw [hcurrent, haged.saved_pid]
      rcases hout with hd | hout
      · rw [hd, h.linked.dummy_pid]
      · exact absurd hready hout.1

theorem kept_searchable (h : Kept k (s :: T) tr) (hfirst : k.firstProcess = 0)
    (hN : Behind k (s :: T) N) (haged : AfterAging k k₁ (s :: T)) (sp : ℕ) :
    Searchable (saveSp k₁ sp) s T N := by
  have hlisted := haged.saved_listed h.linked.listed sp
  have hshell : (k.pcb s).pid = 1 := by
    obtain ⟨s', T', hL, hs, -⟩ := h.ordered.shell
    rw [(List.cons.inj hL).1]
    exact hs
  refine ⟨?_, hlisted.not_null, ?_, fun y hy ↦ ?_, ?_, fun y hy hready ↦ ?_,
    kept_current h hfirst hN haged sp⟩
  · have hpath := hlisted.path
    rwa [hpath.1] at hpath
  · rw [haged.saved_pid, hshell]
  · rw [haged.saved_pid, ← hshell]
    have hpids := h.linked.pids
    rw [List.map_cons, List.nodup_cons] at hpids
    exact fun heq ↦ hpids.1 (List.mem_map.mpr ⟨y, hy, heq⟩)
  · rw [haged.saved_next, haged.saved_current]
    exact hN.path
  · rw [saved_ready haged, readyOf, decide_eq_true_eq] at hready
    exact hN.live y hy hready

theorem kept_selects (h : Kept k L tr) (hfirst : k.firstProcess = 0) (hno : Unovertaken k)
    (sp : ℕ) : (∃ N, ∀ n, N < n → (switchProcess n k sp).isSome) ∧ SelectsLeast k sp := by
  obtain ⟨N, k₁, hN, haging, haged, hswitch, -⟩ := switchProcess_run h.linked h.running hfirst sp
  refine ⟨⟨L.length + N.length, fun n hn ↦ ?_⟩, fun L' n k₁' r hL' hag hsw hex ↦ ?_⟩
  · rw [hswitch n hn]
    rfl
  have hk := eq_of_enough (fun n m h ↦ aging_mono h) hag haging
  have hr := eq_of_enough (fun n m h ↦ switchProcess_mono h sp) hsw hswitch
  subst hk hr
  obtain rfl := h.linked.listed.unique hL'
  obtain ⟨s, T, rfl, -⟩ := h.ordered.shell
  have hsearch := kept_searchable h hfirst hN haged sp
  have hover : NoOvertaking (readyOf (saveSp k₁' sp)) (auxOf (saveSp k₁' sp))
      (candidates (saveSp k₁' sp) (s :: T)) := by
    rw [saved_candidates haged]
    refine (hno _ h.linked.listed).congr (fun y _ ↦ ?_) (fun y hy ↦ ?_)
    · rw [saved_ready haged]
    · have hyL : y ∈ s :: T := (List.takeWhile_sublist _).mem (List.mem_of_mem_filter hy)
      rw [saved_aux, aged_aux haged hyL]
  have heligible : ∀ e, Eligible k e ↔
      readyOf (saveSp k₁' sp) e ∧ ¬ Held (saveSp k₁' sp) e := by
    intro e
    rw [Eligible, saved_ready haged, saved_held haged]
  have hstart : (saveSp k₁' sp).start = s := (haged.saved_listed h.linked.listed sp).path.1
  have hex' : ∃ e ∈ s :: T, readyOf (saveSp k₁' sp) e ∧ ¬ Held (saveSp k₁' sp) e := by
    obtain ⟨e, he, hel⟩ := hex
    exact ⟨e, he, (heligible e).mp hel⟩
  obtain ⟨a, ha, hmem, hleast⟩ := hsearch.choose_least hover hstart hex'
  have hcurrent : (select (saveSp k₁' sp) (chosen (saveSp k₁' sp) (s :: T) N)).1.currentProcess =
      a := by
    rw [select_current, chosen, ha]
    rfl
  rw [hcurrent]
  refine ⟨ne_of_mem_of_not_mem hmem h.linked.dummy_not_mem, fun e he hel ↦ ?_⟩
  have hle := hleast e he ((heligible e).mp hel).1 ((heligible e).mp hel).2
  rw [saved_aux, saved_aux] at hle
  exact hle

/-- In every state of a run from boot, a call of `switchProcess` in which
nothing is overtaken returns and selects a least process. -/
theorem selection_least {b : Boot} {k₀ : Kernel} (hmain : main n b = some k₀)
    (hrun : Run Step k₀ tr k) (hok : ∀ e ∈ tr, Allowed e.1 e.2)
    (hcount : creations tr < 2 ^ 32 - 1) (hfirst : k.firstProcess = 0) (hno : Unovertaken k)
    (sp : ℕ) : (∃ N, ∀ n, N < n → (switchProcess n k sp).isSome) ∧ SelectsLeast k sp := by
  obtain ⟨L, h⟩ := run_kept hmain hrun hok hcount
  exact kept_selects h hfirst hno sp

theorem selection_least_killed : SelectsLeast killed 7 := by
  obtain ⟨tr, hrun, -, hok, hcount⟩ := killed_run
  have hready : ∀ y ∈ [2, 4], readyOf killed y = true := by decide +kernel
  refine (selection_least main_smallBoot hrun hok hcount (by decide +kernel) (fun L hL ↦ ?_) 7).2
  obtain rfl := hL.unique killed_listed
  intro l₁ y l₂ hl hy
  have hmem : y ∈ candidates killed [2, 4] := hl ▸ List.mem_append_right _ List.mem_cons_self
  have hbefore : y ∈ [2, 4] := (List.takeWhile_sublist _).mem (List.mem_of_mem_filter hmem)
  rw [hready y hbefore] at hy
  cases hy

def worker (newNode : ℕ) : Create := ⟨3, [], 0, 0, newNode, 0x3000⟩

/-- The first of three processes of priority 3 is blocked while the two others
age. It is ready again, the second one and the shell are blocked, and the third
one blocks itself. -/
def overtaking : List Act :=
  [.create (worker 3), .create (worker 4), .create (worker 5), .changeProcessState 2] ++
    List.replicate 7 (.switchProcess 7) ++
    [.changeProcessState 3, .changeProcessState 2, .block, .switchProcess 7, .block]

theorem overtaking_isSome : (overtaking.foldlM (perform 8) booted).isSome := by decide +kernel

def overtaken : Kernel := (overtaking.foldlM (perform 8) booted).get overtaking_isSome

theorem overtaken_run : ∃ tr, Run Step booted tr overtaken ∧ ∀ e ∈ tr, Allowed e.1 e.2 := by
  have hperform : overtaking.foldlM (perform 8) booted = some overtaken :=
    (Option.some_get overtaking_isSome).symm
  obtain ⟨tr, hrun, hacts⟩ := run_of_foldlM hperform
  refine ⟨tr, hrun.mono (fun _ _ _ h ↦ step_perform h), fun e he ↦ ?_⟩
  have hall : ∀ act ∈ overtaking, ∀ k, Allowed k act := by simp [overtaking, Allowed, worker]
  exact hall e.2 (hacts ▸ List.mem_map_of_mem he) e.1

theorem overtaken_call :
    (overtaken.start = 2 ∧ overtaken.next 2 = 3 ∧ overtaken.next 3 = 4 ∧ overtaken.next 4 = 5 ∧
      overtaken.next 5 = 0) ∧
    overtaken.firstProcess = 0 ∧ (aging 8 overtaken).isSome ∧
    ((switchProcess 8 overtaken 7).map fun r ↦ r.1.currentProcess) = some overtaken.dummy ∧
    (overtaken.pcb 3).pstate = 1 ∧ (overtaken.pcb 3).pid ≠ 1 := by
  decide +kernel

/-- The dummy process is selected although a process is ready: the second
search went from it to a blocked one with a smaller priority on loan. -/
theorem ready_passed_over : ¬ ∀ n b k₀ tr k, main n b = some k₀ → Run Step k₀ tr k →
    (∀ e ∈ tr, Allowed e.1 e.2) → k.firstProcess = 0 → ∀ sp, SelectsLeast k sp := by
  intro hall
  obtain ⟨tr, hrun, hok⟩ := overtaken_run
  obtain ⟨hlinks, hfirst, hage, hdummy, hready, hpid⟩ := overtaken_call
  have hlisted : Listed overtaken [2, 3, 4, 5] := ⟨hlinks, by decide, by decide⟩
  have hleast := hall 1 smallBoot booted tr overtaken main_smallBoot hrun hok hfirst 7
  obtain ⟨k₁, hk₁⟩ := Option.isSome_iff_exists.mp hage
  obtain ⟨r, hr, hcurrent⟩ := Option.map_eq_some_iff.mp hdummy
  refine (hleast _ 8 k₁ r hlisted hk₁ hr ⟨3, by decide, ?_, ?_⟩).1 hcurrent
  · rw [readyOf, hready]
    rfl
  · exact fun hheld ↦ hpid hheld.1

end ShellOS.Sched.Selection
