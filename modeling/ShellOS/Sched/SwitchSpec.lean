import ShellOS.Library.FirstMin
import ShellOS.Sched.ProcessList

namespace ShellOS.Sched.SwitchSpec

open Library.FirstMin Library.Links Scheduler ProcessList Function

variable {k k' k₁ : Kernel} {L N F : List ℕ} {a x n : ℕ}

def Ages (k : Kernel) (y : ℕ) : Prop :=
  (k.pcb y).auxPriority > 1 ∧ (k.pcb y).pid ≠ (k.pcb k.currentProcess).pid ∧ (k.pcb y).pstate = 1

instance (k : Kernel) (y : ℕ) : Decidable (Ages k y) := by
  unfold Ages
  infer_instance

/-- Only priorities on loan have changed, those of the listed processes. -/
structure Aged (k k' : Kernel) (L : List ℕ) : Prop where
  pcb : ∀ y, k'.pcb y = if y ∈ L ∧ Ages k y then
    { k.pcb y with auxPriority := (k.pcb y).auxPriority - 1 } else k.pcb y
  next : k'.next = k.next
  fields : k' = { k with node := k'.node }

theorem Aged.pid_eq (h : Aged k k' L) (y : ℕ) : (k'.pcb y).pid = (k.pcb y).pid := by
  rw [h.pcb]
  split <;> rfl

theorem Aged.current_eq (h : Aged k k' L) : k'.currentProcess = k.currentProcess := by
  rw [h.fields]

theorem ageLoop_spec (h : Path k.next a L 0) (h0 : 0 ∉ L) (hnd : L.Nodup) :
    ∃ k', (∀ n, L.length < n → ageLoop n k a = some k') ∧ Aged k k' L := by
  induction L generalizing k a with
  | nil =>
    cases h
    refine ⟨k, fun n hn ↦ ?_, fun y ↦ by simp, rfl, rfl⟩
    obtain ⟨n, rfl⟩ : ∃ i, n = i + 1 := ⟨n - 1, by omega⟩
    rw [ageLoop, if_pos rfl]
  | cons y L ih =>
    obtain ⟨rfl, h⟩ := h
    obtain ⟨haL, hnd⟩ := List.nodup_cons.mp hnd
    have ha : a ≠ 0 := (List.ne_of_not_mem_cons h0).symm
    let k₁ := if Ages k a then
      k.setPcb a { k.pcb a with auxPriority := (k.pcb a).auxPriority - 1 } else k
    have hone : Aged k k₁ [a] := by
      by_cases hage : Ages k a
      · simp only [k₁, if_pos hage]
        refine ⟨fun z ↦ ?_, next_setPcb _ _ _, rfl⟩
        by_cases hz : z = a
        · simp [hz, hage]
        · simp [hz]
      · simp only [k₁, if_neg hage]
        refine ⟨fun z ↦ ?_, rfl, rfl⟩
        rw [if_neg]
        rintro ⟨hz, hage'⟩
        exact hage (List.mem_singleton.mp hz ▸ hage')
    have hages : ∀ z, z ≠ a → (Ages k₁ z ↔ Ages k z) := by
      intro z hz
      have hpcb : k₁.pcb z = k.pcb z := by
        rw [hone.pcb, if_neg (by simp [hz])]
      rw [Ages, Ages, hpcb, hone.current_eq, hone.pid_eq]
    obtain ⟨k', hloop, haged⟩ := ih (k := k₁) (a := k.next a) (by rw [hone.next]; exact h)
      (List.not_mem_of_not_mem_cons h0) hnd
    refine ⟨k', fun n hn ↦ ?_, fun z ↦ ?_, haged.next.trans hone.next,
      haged.fields.trans (by rw [hone.fields])⟩
    · obtain ⟨n, rfl⟩ : ∃ i, n = i + 1 := ⟨n - 1, by omega⟩
      rw [ageLoop, if_neg ha]
      change ageLoop n k₁ (k₁.next a) = _
      rw [hone.next]
      exact hloop n (by simpa using hn)
    · rw [haged.pcb, hone.pcb]
      by_cases hz : z = a
      · subst hz
        simp [haL]
      · simp [hz, hages z hz]

structure AfterAging (k k' : Kernel) (L : List ℕ) : Prop where
  pcb : ∀ y, k'.pcb y = if k.priorityQuantum = 0 ∧ y ∈ L ∧ Ages k y then
    { k.pcb y with auxPriority := (k.pcb y).auxPriority - 1 } else k.pcb y
  next : k'.next = k.next
  fields : k' = { k with node := k'.node, priorityQuantum := k'.priorityQuantum }

theorem aging_spec (h : Listed k L) :
    ∃ k', (∀ n, L.length < n → aging n k = some k') ∧ AfterAging k k' L := by
  by_cases hpq : k.priorityQuantum = 0
  · obtain ⟨k', hloop, haged⟩ := ageLoop_spec h.path h.not_null h.nodup
    refine ⟨{ k' with priorityQuantum := priorityQuantumTicks + 1 - 1 }, fun n hn ↦ ?_,
      fun y ↦ ?_, haged.next, ?_⟩
    · rw [aging, if_pos hpq, hloop n hn]
      rfl
    · simp only [hpq, true_and]
      exact haged.pcb y
    · rw [haged.fields]
  · refine ⟨{ k with priorityQuantum := k.priorityQuantum - 1 }, fun n _ ↦ ?_, fun y ↦ ?_, rfl, rfl⟩
    · rw [aging, if_neg hpq]
      rfl
    · rw [if_neg (fun h ↦ hpq h.1)]
      rfl

theorem nextLoop_spec (h : Path k.next a N 0) (h0 : 0 ∉ N) (hn : N.length < n) :
    nextLoop k n x a = some (N.foldl (nextStep k) x) := by
  induction N generalizing a x n with
  | nil =>
    cases h
    obtain ⟨n, rfl⟩ : ∃ i, n = i + 1 := ⟨n - 1, by omega⟩
    rw [nextLoop, if_pos rfl, List.foldl_nil]
  | cons y N ih =>
    obtain ⟨rfl, h⟩ := h
    obtain ⟨n, rfl⟩ : ∃ i, n = i + 1 := ⟨n - 1, by omega⟩
    rw [nextLoop, if_neg (List.ne_of_not_mem_cons h0).symm, List.foldl_cons]
    exact ih h (List.not_mem_of_not_mem_cons h0) (by simpa using hn)

def before (k : Kernel) (L : List ℕ) : List ℕ :=
  L.takeWhile fun y ↦ (k.pcb y).pid ≠ (k.pcb k.currentProcess).pid

theorem firstLoop_spec (h : Path k.next a L 0) (h0 : 0 ∉ L) (hn : L.length < n) :
    firstLoop k n x a = some ((before k L).foldl (firstStep k) x) := by
  induction L generalizing a x n with
  | nil =>
    cases h
    obtain ⟨n, rfl⟩ : ∃ i, n = i + 1 := ⟨n - 1, by omega⟩
    rw [firstLoop, if_pos (Or.inl rfl)]
    rfl
  | cons y L ih =>
    obtain ⟨rfl, h⟩ := h
    obtain ⟨n, rfl⟩ : ∃ i, n = i + 1 := ⟨n - 1, by omega⟩
    have ha : a ≠ 0 := (List.ne_of_not_mem_cons h0).symm
    by_cases hpid : (k.pcb a).pid = (k.pcb k.currentProcess).pid
    · have hbefore : before k (a :: L) = [] := by simp [before, hpid]
      rw [firstLoop, if_pos (Or.inr hpid), hbefore, List.foldl_nil]
    · have hbefore : before k (a :: L) = a :: before k L := by simp [before, hpid]
      rw [firstLoop, if_neg (not_or.mpr ⟨ha, hpid⟩), hbefore, List.foldl_cons]
      exact ih h (List.not_mem_of_not_mem_cons h0) (by simpa using hn)

section Choice

def readyOf (k : Kernel) (a : ℕ) : Bool := decide ((k.pcb a).pstate = 1)

def auxOf (k : Kernel) (a : ℕ) : ℕ := (k.pcb a).auxPriority

/-- The shell, while a foreground process holds it back. -/
def Held (k : Kernel) (a : ℕ) : Prop := (k.pcb a).pid = 1 ∧ k.fgTaken ≠ 0

instance (k : Kernel) (a : ℕ) : Decidable (Held k a) := by
  unfold Held
  infer_instance

theorem nextStep_eq : nextStep k = better (readyOf k) (auxOf k) := by
  funext x a
  by_cases hx : (k.pcb x).pstate = 1
  · simp [nextStep, better, hx, readyOf, auxOf]
  · simp [nextStep, better, hx, readyOf]

theorem firstStep_eq (h : ¬ Held k a) (x : ℕ) :
    firstStep k x a = better' (readyOf k) (auxOf k) x a := by
  have h : ¬ ((k.pcb a).pid = 1 ∧ k.fgTaken ≠ 0) := h
  have hfree : k.fgTaken = 0 ∨ (k.pcb a).pid ≠ 1 := by tauto
  rw [firstStep, if_neg h]
  by_cases hx : (k.pcb x).pstate = 1
  · simp [better', hx, readyOf, auxOf]
  · simp [better', hx, hfree, readyOf]

theorem firstStep_held (h : Held k a) (x : ℕ) :
    firstStep k x a = if (k.pcb x).pid = 1 then k.next x else x :=
  if_pos h

def Good (k : Kernel) (a : ℕ) : Prop := a ≠ 0 ∧ readyOf k a

theorem not_good : a = 0 ∨ (k.pcb a).pstate ≠ 1 ↔ ¬ Good k a := by
  simp only [Good, readyOf, decide_eq_true_eq]
  tauto

theorem choose_spec (k : Kernel) (x y : ℕ) :
    choose k x y = none ∧ ¬ Good k x ∧ ¬ Good k y ∨
      ∃ a, choose k x y = some a ∧ Good k a ∧ (a = x ∨ a = y) ∧
        (Good k x → auxOf k a ≤ auxOf k x) ∧ (Good k y → auxOf k a ≤ auxOf k y) := by
  have hbad : ∀ z, Good k z → ¬ (z = 0 ∨ (k.pcb z).pstate ≠ 1) :=
    fun z hz h ↦ not_good.mp h hz
  by_cases hx : Good k x
  · have hxy : ¬ ((x = 0 ∨ (k.pcb x).pstate ≠ 1) ∧ (y = 0 ∨ (k.pcb y).pstate ≠ 1)) :=
      fun h ↦ hbad x hx h.1
    rw [choose, if_neg hxy, if_neg (hbad x hx)]
    by_cases hy : Good k y
    · rw [if_neg (hbad y hy)]
      by_cases hlt : (k.pcb y).auxPriority < (k.pcb x).auxPriority
      · exact Or.inr ⟨y, if_pos hlt, hy, Or.inr rfl, fun _ ↦ hlt.le, fun _ ↦ le_rfl⟩
      · exact Or.inr ⟨x, if_neg hlt, hx, Or.inl rfl, fun _ ↦ le_rfl, fun _ ↦ not_lt.mp hlt⟩
    · exact Or.inr ⟨x, if_pos (not_good.mpr hy), hx, Or.inl rfl, fun _ ↦ le_rfl,
        fun h ↦ absurd h hy⟩
  · by_cases hy : Good k y
    · have hxy : ¬ ((x = 0 ∨ (k.pcb x).pstate ≠ 1) ∧ (y = 0 ∨ (k.pcb y).pstate ≠ 1)) :=
        fun h ↦ hbad y hy h.2
      rw [choose, if_neg hxy, if_pos (not_good.mpr hx)]
      exact Or.inr ⟨y, rfl, hy, Or.inr rfl, fun h ↦ absurd h hx, fun _ ↦ le_rfl⟩
    · exact Or.inl ⟨if_pos ⟨not_good.mpr hx, not_good.mpr hy⟩, hx, hy⟩

theorem adjustFirst_mem (k : Kernel) (x : ℕ) :
    adjustFirst k x = 0 ∨ adjustFirst k x = x ∨
      adjustFirst k x = k.currentProcess ∧ readyOf k k.currentProcess ∧
        (k.pcb k.currentProcess).pid ≠ 0 := by
  simp only [adjustFirst, readyOf, decide_eq_true_eq]
  by_cases hc : (k.pcb x).pstate ≠ 1 ∧ (k.pcb k.currentProcess).pstate = 1 ∧
      (k.pcb k.currentProcess).pid ≠ 0
  · rw [if_pos hc]
    split
    · exact Or.inl rfl
    · exact Or.inr (Or.inr ⟨rfl, hc.2⟩)
  · rw [if_neg hc]
    split
    · exact Or.inl rfl
    · exact Or.inr (Or.inl rfl)

theorem adjustFirst_ready (hx : readyOf k x) (hheld : ¬ Held k x) : adjustFirst k x = x := by
  have hpstate : (k.pcb x).pstate = 1 := by simpa [readyOf] using hx
  have hheld : ¬ (k.fgTaken ≠ 0 ∧ (k.pcb x).pid = 1) := fun h ↦ hheld h.symm
  have hown : ¬ ((k.pcb x).pstate ≠ 1 ∧ (k.pcb k.currentProcess).pstate = 1 ∧
      (k.pcb k.currentProcess).pid ≠ 0) := fun h ↦ h.1 hpstate
  simp only [adjustFirst, if_neg hown, if_neg hheld]

theorem adjustFirst_current (hx : readyOf k x = false) (hc : readyOf k k.currentProcess)
    (hpid : (k.pcb k.currentProcess).pid ≠ 0) (hheld : ¬ Held k k.currentProcess) :
    adjustFirst k x = k.currentProcess := by
  have hx : (k.pcb x).pstate ≠ 1 := by simpa [readyOf] using hx
  have hc : (k.pcb k.currentProcess).pstate = 1 := by simpa [readyOf] using hc
  have hheld : ¬ (k.fgTaken ≠ 0 ∧ (k.pcb k.currentProcess).pid = 1) := fun h ↦ hheld h.symm
  simp only [adjustFirst, if_pos (And.intro hx (And.intro hc hpid)), if_neg hheld]

theorem next_best (h : Path k.next a N 0) :
    N = [] ∧ N.foldl (nextStep k) a = 0 ∨
      Best (readyOf k) (auxOf k) N (N.foldl (nextStep k) a) := by
  cases N with
  | nil => exact Or.inl ⟨rfl, h⟩
  | cons y N =>
    obtain ⟨rfl, -⟩ := h
    rw [nextStep_eq]
    exact Or.inr (best_foldl a N)

def candidates (k : Kernel) (L : List ℕ) : List ℕ :=
  (before k L).filter fun y ↦ ¬ Held k y

theorem foldl_firstStep (h : ∀ y ∈ F, ¬ Held k y) (x : ℕ) :
    F.foldl (firstStep k) x = F.foldl (better' (readyOf k) (auxOf k)) x :=
  List.foldl_ext _ _ _ (fun z y hy ↦ firstStep_eq (h y hy) z)

/-- The second search finds the best of its candidates, provided that none of
them overtakes the ready ones without being ready. -/
theorem first_best {s : ℕ} {T : List ℕ} (h : Path k.next s (s :: T) 0)
    (hs : (k.pcb s).pid = 1) (hT : ∀ y ∈ T, (k.pcb y).pid ≠ 1)
    (hno : NoOvertaking (readyOf k) (auxOf k) (candidates k (s :: T))) :
    candidates k (s :: T) = [] ∧ before k (s :: T) = [] ∧
        (before k (s :: T)).foldl (firstStep k) s = s ∨
      candidates k (s :: T) = [] ∧ before k (s :: T) = [s] ∧
        (before k (s :: T)).foldl (firstStep k) s = k.next s ∨
      Best (readyOf k) (auxOf k) (candidates k (s :: T))
        ((before k (s :: T)).foldl (firstStep k) s) := by
  by_cases hc : (k.pcb s).pid = (k.pcb k.currentProcess).pid
  · have hbefore : before k (s :: T) = [] := by simp [before, hc]
    exact Or.inl ⟨by rw [candidates, hbefore]; rfl, hbefore, by rw [hbefore]; rfl⟩
  have hbefore : before k (s :: T) = s :: before k T := by simp [before, hc]
  have hfree : ∀ y ∈ before k T, ¬ Held k y := fun y hy hheld ↦
    hT y ((List.takeWhile_sublist _).mem hy) hheld.1
  have hall : (before k T).filter (fun y ↦ ¬ Held k y) = before k T :=
    List.filter_eq_self.mpr (fun y hy ↦ by simpa using hfree y hy)
  by_cases hheld : Held k s
  · have hcand : candidates k (s :: T) = before k T := by
      rw [candidates, hbefore, List.filter_cons_of_neg (by simpa using hheld), hall]
    have hstep : firstStep k s s = k.next s := by rw [firstStep_held hheld, if_pos hs]
    rw [hcand] at hno ⊢
    rw [hbefore, List.foldl_cons, hstep, foldl_firstStep hfree]
    cases hb : before k T with
    | nil => exact Or.inr (Or.inl ⟨rfl, rfl, rfl⟩)
    | cons y F =>
      rw [hb] at hno
      have hnext : k.next s = y := by
        cases T with
        | nil => cases hb
        | cons z T =>
          have hz : z = y := by
            by_cases hzc : (k.pcb z).pid = (k.pcb k.currentProcess).pid
            · simp [before, hzc] at hb
            · simp only [before, List.takeWhile_cons, hzc, ne_eq, not_false_eq_true, decide_true,
                if_true, List.cons.injEq] at hb
              exact hb.1
          exact hz ▸ h.2.1
      rw [hnext]
      exact Or.inr (Or.inr (best_foldl' y F hno))
  · have hcand : candidates k (s :: T) = s :: before k T := by
      rw [candidates, hbefore, List.filter_cons_of_pos (by simpa using hheld), hall]
    have hfree' : ∀ y ∈ s :: before k T, ¬ Held k y := by
      intro y hy
      rcases List.mem_cons.mp hy with rfl | hy
      · exact hheld
      · exact hfree y hy
    rw [hcand] at hno ⊢
    rw [hbefore, foldl_firstStep hfree']
    exact Or.inr (Or.inr (best_foldl' s _ hno))

/-- Where the current process is: in the list, with the processes `N` behind
it and none of a greater priority on loan before it, or gone and not ready, or
the dummy process. -/
inductive Current (k : Kernel) (L N : List ℕ) : Prop
  | listed {F : List ℕ} : L = F ++ k.currentProcess :: N → before k L = F →
      (∀ y ∈ F, auxOf k y ≤ auxOf k k.currentProcess) → (k.pcb k.currentProcess).pid ≠ 0 →
      Current k L N
  | gone : before k L = L →
      (readyOf k k.currentProcess → (k.pcb k.currentProcess).pid = 0) → Current k L N

structure Searchable (k : Kernel) (s : ℕ) (T N : List ℕ) : Prop where
  path : Path k.next s (s :: T) 0
  not_null : 0 ∉ s :: T
  shell : (k.pcb s).pid = 1
  others : ∀ y ∈ T, (k.pcb y).pid ≠ 1
  behind : Path k.next (k.next k.currentProcess) N 0
  behind_live : ∀ y ∈ N, readyOf k y → y ∈ s :: T
  current : Current k (s :: T) N

variable {s : ℕ} {T : List ℕ}

def nextResult (k : Kernel) (N : List ℕ) : ℕ := N.foldl (nextStep k) (k.next k.currentProcess)

def firstResult (k : Kernel) (L : List ℕ) : ℕ := (before k L).foldl (firstStep k) k.start

theorem Searchable.next_good (h : Searchable k s T N) {e : ℕ} (he : e ∈ N)
    (hr : readyOf k e) : Good k (nextResult k N) ∧ auxOf k (nextResult k N) ≤ auxOf k e := by
  rcases next_best h.behind with ⟨rfl, -⟩ | hbest
  · cases he
  · have hready := hbest.isReady ⟨e, he, hr⟩
    have hmem := h.behind_live _ hbest.mem hready
    exact ⟨⟨ne_of_mem_of_not_mem hmem h.not_null, hready⟩, hbest.le e he hr⟩

theorem Searchable.next_mem (h : Searchable k s T N) (hgood : Good k (nextResult k N)) :
    nextResult k N ∈ s :: T := by
  rcases next_best h.behind with ⟨-, hzero⟩ | hbest
  · exact absurd hzero hgood.1
  · exact h.behind_live _ hbest.mem hgood.2

theorem Searchable.candidate_mem {e : ℕ} (he : e ∈ candidates k (s :: T)) :
    e ∈ s :: T ∧ ¬ Held k e := by
  obtain ⟨hbefore, hheld⟩ := List.mem_filter.mp he
  exact ⟨(List.takeWhile_sublist _).mem hbefore, by simpa using hheld⟩

variable (hno : NoOvertaking (readyOf k) (auxOf k) (candidates k (s :: T)))

include hno

theorem Searchable.first_good (h : Searchable k s T N) (hstart : k.start = s) {e : ℕ}
    (he : e ∈ candidates k (s :: T)) (hr : readyOf k e) :
    Good k (adjustFirst k (firstResult k (s :: T))) ∧
      auxOf k (adjustFirst k (firstResult k (s :: T))) ≤ auxOf k e := by
  rw [firstResult, hstart]
  rcases first_best h.path h.shell h.others hno with ⟨hnil, -⟩ | ⟨hnil, -⟩ | hbest
  · rw [hnil] at he
    cases he
  · rw [hnil] at he
    cases he
  · have hready := hbest.isReady ⟨e, he, hr⟩
    obtain ⟨hmem, hheld⟩ := candidate_mem hbest.mem
    rw [adjustFirst_ready hready hheld]
    exact ⟨⟨ne_of_mem_of_not_mem hmem h.not_null, hready⟩, hbest.le e he hr⟩

theorem Searchable.first_mem (h : Searchable k s T N) (hstart : k.start = s)
    (hgood : Good k (adjustFirst k (firstResult k (s :: T)))) :
    adjustFirst k (firstResult k (s :: T)) ∈ s :: T := by
  rcases adjustFirst_mem k (firstResult k (s :: T)) with hzero | heq | ⟨heq, hready, hpid⟩
  · exact absurd hzero hgood.1
  · rw [heq] at hgood ⊢
    rw [firstResult, hstart] at hgood ⊢
    rcases first_best h.path h.shell h.others hno with ⟨-, -, hfirst⟩ | ⟨-, -, hfirst⟩ | hbest
    · rw [hfirst]
      exact List.mem_cons_self
    · rw [hfirst] at hgood ⊢
      exact (h.path.next_mem List.mem_cons_self).resolve_right hgood.1
    · exact (candidate_mem hbest.mem).1
  · rw [heq]
    cases h.current with
    | listed hL => rw [hL]; simp
    | gone _ hgone => exact absurd (hgone hready) hpid

theorem Searchable.current_good (h : Searchable k s T N) (hstart : k.start = s) {F : List ℕ}
    (hL : s :: T = F ++ k.currentProcess :: N) (hF : before k (s :: T) = F)
    (haux : ∀ y ∈ F, auxOf k y ≤ auxOf k k.currentProcess)
    (hpid : (k.pcb k.currentProcess).pid ≠ 0) (hr : readyOf k k.currentProcess)
    (hheld : ¬ Held k k.currentProcess) :
    Good k (adjustFirst k (firstResult k (s :: T))) ∧
      auxOf k (adjustFirst k (firstResult k (s :: T))) ≤ auxOf k k.currentProcess := by
  have hmem : k.currentProcess ∈ s :: T := by rw [hL]; simp
  have hcur : Good k k.currentProcess := ⟨ne_of_mem_of_not_mem hmem h.not_null, hr⟩
  by_cases hex : ∃ e ∈ candidates k (s :: T), readyOf k e
  · obtain ⟨e, he, hre⟩ := hex
    obtain ⟨hgood, hle⟩ := h.first_good hno hstart he hre
    have heF : e ∈ F := hF ▸ (List.mem_filter.mp he).1
    exact ⟨hgood, hle.trans (haux e heF)⟩
  · have hown : adjustFirst k (firstResult k (s :: T)) = k.currentProcess := by
      rw [firstResult, hstart]
      rcases first_best h.path h.shell h.others hno with
        ⟨-, hnil, hfirst⟩ | ⟨-, hone, hfirst⟩ | hbest
      · rw [hF] at hnil
        rw [hnil, List.nil_append, List.cons.injEq] at hL
        rw [hfirst, hL.1]
        exact adjustFirst_ready hr hheld
      · rw [hF] at hone
        rw [hone, List.singleton_append, List.cons.injEq] at hL
        have hnext : k.next s = k.currentProcess := by
          have hpath := h.path
          rw [hL.2] at hpath
          exact hpath.2.1
        rw [hfirst, hnext]
        exact adjustFirst_ready hr hheld
      · refine adjustFirst_current ?_ hr hpid hheld
        by_contra hready
        exact hex ⟨_, hbest.mem, by simpa using hready⟩
    rw [hown]
    exact ⟨hcur, le_rfl⟩

/-- When a process can run, the choice is one of the list with the least
priority on loan. -/
theorem Searchable.choose_least (h : Searchable k s T N) (hstart : k.start = s)
    (hex : ∃ e ∈ s :: T, readyOf k e ∧ ¬ Held k e) :
    ∃ a, choose k (nextResult k N) (adjustFirst k (firstResult k (s :: T))) = some a ∧
      a ∈ s :: T ∧ ∀ e ∈ s :: T, readyOf k e → ¬ Held k e → auxOf k a ≤ auxOf k e := by
  have hcover : ∀ e ∈ s :: T, readyOf k e → ¬ Held k e →
      Good k (nextResult k N) ∧ auxOf k (nextResult k N) ≤ auxOf k e ∨
        Good k (adjustFirst k (firstResult k (s :: T))) ∧
          auxOf k (adjustFirst k (firstResult k (s :: T))) ≤ auxOf k e := by
    intro e he hr hheld
    cases h.current with
    | @listed F hL hF haux hpid =>
      rw [hL] at he
      rcases List.mem_append.mp he with heF | he
      · have hcand : e ∈ candidates k (s :: T) :=
          List.mem_filter.mpr ⟨hF.symm ▸ heF, by simpa using hheld⟩
        exact Or.inr (h.first_good hno hstart hcand hr)
      rcases List.mem_cons.mp he with rfl | heN
      · exact Or.inr (h.current_good hno hstart hL hF haux hpid hr hheld)
      · exact Or.inl (h.next_good heN hr)
    | gone hF =>
      have hcand : e ∈ candidates k (s :: T) :=
        List.mem_filter.mpr ⟨hF.symm ▸ he, by simpa using hheld⟩
      exact Or.inr (h.first_good hno hstart hcand hr)
  rcases choose_spec k (nextResult k N) (adjustFirst k (firstResult k (s :: T))) with
    ⟨-, hx, hy⟩ | ⟨a, hchoose, hgood, hmem, hx, hy⟩
  · obtain ⟨e, he, hr, hheld⟩ := hex
    rcases hcover e he hr hheld with hgood | hgood
    · exact absurd hgood.1 hx
    · exact absurd hgood.1 hy
  · refine ⟨a, hchoose, ?_, fun e he hr hheld ↦ ?_⟩
    · rcases hmem with rfl | rfl
      · exact h.next_mem hgood
      · exact h.first_mem hno hstart hgood
    · rcases hcover e he hr hheld with ⟨hg, hle⟩ | ⟨hg, hle⟩
      · exact (hx hg).trans hle
      · exact (hy hg).trans hle

end Choice

section Result

def saveSp (k : Kernel) (sp : ℕ) : Kernel :=
  k.setPcb k.currentProcess { k.pcb k.currentProcess with sp := sp }

/-- The choice that `switchProcess` makes after the aging, with the list `L`
and the nodes `N` behind the current process. -/
def chosen (k : Kernel) (L N : List ℕ) : Option ℕ :=
  choose k (nextResult k N) (adjustFirst k (firstResult k L))

theorem saveSp_pcb (k : Kernel) (sp y : ℕ) : (saveSp k sp).pcb y =
    if y = k.currentProcess then { k.pcb y with sp := sp } else k.pcb y := by
  rw [saveSp, pcb_setPcb, update_apply]
  split
  · rename_i h
    rw [h]
  · rfl

theorem AfterAging.saved (h : AfterAging k k₁ L) (sp y : ℕ) :
    ∃ aux sp', (saveSp k₁ sp).pcb y = { k.pcb y with auxPriority := aux, sp := sp' } ∧
      (aux = (k.pcb y).auxPriority ∨
        1 < (k.pcb y).auxPriority ∧ aux = (k.pcb y).auxPriority - 1) := by
  rw [saveSp_pcb, h.pcb]
  by_cases hage : k.priorityQuantum = 0 ∧ y ∈ L ∧ Ages k y
  · rw [if_pos hage]
    split
    · exact ⟨_, _, rfl, Or.inr ⟨hage.2.2.1, rfl⟩⟩
    · exact ⟨_, _, rfl, Or.inr ⟨hage.2.2.1, rfl⟩⟩
  · rw [if_neg hage]
    split
    · exact ⟨_, _, rfl, Or.inl rfl⟩
    · exact ⟨_, _, rfl, Or.inl rfl⟩

theorem AfterAging.saved_pid (h : AfterAging k k₁ L) (sp y : ℕ) :
    ((saveSp k₁ sp).pcb y).pid = (k.pcb y).pid := by
  obtain ⟨aux, sp', hpcb, -⟩ := h.saved sp y
  rw [hpcb]

theorem AfterAging.saved_pstate (h : AfterAging k k₁ L) (sp y : ℕ) :
    ((saveSp k₁ sp).pcb y).pstate = (k.pcb y).pstate := by
  obtain ⟨aux, sp', hpcb, -⟩ := h.saved sp y
  rw [hpcb]

theorem saveSp_next (k : Kernel) (sp : ℕ) : (saveSp k sp).next = k.next := next_setPcb _ _ _

theorem AfterAging.saved_next (h : AfterAging k k₁ L) (sp : ℕ) : (saveSp k₁ sp).next = k.next :=
  (saveSp_next _ _).trans h.next

theorem AfterAging.saved_current (h : AfterAging k k₁ L) (sp : ℕ) :
    (saveSp k₁ sp).currentProcess = k.currentProcess := by
  change k₁.currentProcess = _
  rw [h.fields]

theorem AfterAging.saved_listed (h : AfterAging k k₁ L) (hl : Listed k L) (sp : ℕ) :
    Listed (saveSp k₁ sp) L := by
  have hstart : (saveSp k₁ sp).start = k.start := by
    change k₁.start = _
    rw [h.fields]
  refine ⟨?_, hl.not_null, hl.nodup⟩
  rw [h.saved_next, hstart]
  exact hl.path

theorem switchProcess_spec (h : Listed k L)
    (hN : Path k.next (k.next k.currentProcess) N 0) (hN0 : 0 ∉ N) (hfirst : k.firstProcess = 0)
    (hquantum : k.quantum = 0) (sp : ℕ) :
    ∃ k₁, (∀ n, L.length < n → aging n { k with quantum := 0 } = some k₁) ∧
      AfterAging { k with quantum := 0 } k₁ L ∧
      ∀ n, L.length + N.length < n → switchProcess n k sp =
        some (select (saveSp k₁ sp) (chosen (saveSp k₁ sp) L N)) := by
  have hlisted : Listed { k with quantum := 0 } L := ⟨h.path, h.not_null, h.nodup⟩
  obtain ⟨k₁, haging, haged⟩ := aging_spec hlisted
  refine ⟨k₁, haging, haged, fun n hn ↦ ?_⟩
  have hcurrent : k₁.currentProcess = k.currentProcess := by rw [haged.fields]
  have hstart : k₁.start = k.start := by rw [haged.fields]
  have hnext : (saveSp k₁ sp).next = k.next := (saveSp_next _ _).trans haged.next
  have hNpath : Path (saveSp k₁ sp).next ((saveSp k₁ sp).next k₁.currentProcess) N 0 := by
    rw [hnext, hcurrent]
    exact hN
  have hLpath : Path (saveSp k₁ sp).next k₁.start L 0 := by
    rw [hnext, hstart]
    exact h.path
  have hnext_loop := nextLoop_spec (n := n) (x := (saveSp k₁ sp).next k₁.currentProcess) hNpath hN0
    (by omega)
  have hfirst_loop := firstLoop_spec (n := n) (x := k₁.start) hLpath h.not_null (by omega)
  rw [switchProcess, if_neg (by simpa using hfirst), if_neg (by omega)]
  change (aging n { k with quantum := 0 }).bind _ = _
  rw [haging n (by omega), Option.bind_some]
  change (nextLoop (saveSp k₁ sp) n ((saveSp k₁ sp).next k₁.currentProcess)
    ((saveSp k₁ sp).next k₁.currentProcess)).bind _ = _
  rw [hnext_loop, Option.bind_some]
  change (firstLoop (saveSp k₁ sp) n k₁.start k₁.start).map _ = _
  rw [hfirst_loop]
  rfl

theorem foldl_firstStep_mem (h : Listed k L) (hF : ∀ y ∈ F, y ∈ L)
    (hpids : (F.map fun y ↦ (k.pcb y).pid).Nodup)
    (hx : x ∈ L ∨ x = 0 ∧ ∀ y ∈ F, (k.pcb y).pid ≠ 1) :
    F.foldl (firstStep k) x ∈ L ∨ F.foldl (firstStep k) x = 0 := by
  induction F generalizing x with
  | nil => exact hx.imp id And.left
  | cons y F ih =>
    rw [List.map_cons, List.nodup_cons] at hpids
    refine ih (fun z hz ↦ hF z (List.mem_cons_of_mem _ hz)) hpids.2 ?_
    have hy := hF y List.mem_cons_self
    by_cases hheld : Held k y
    · have hrest : ∀ z ∈ F, (k.pcb z).pid ≠ 1 := fun z hz heq ↦
        hpids.1 (List.mem_map.mpr ⟨z, hz, heq.trans hheld.1.symm⟩)
      rcases hx with hx | ⟨-, hx⟩
      · rw [firstStep_held hheld]
        split
        · exact (h.path.next_mem hx).imp id (fun h0 ↦ ⟨h0, hrest⟩)
        · exact Or.inl hx
      · exact absurd hheld.1 (hx y List.mem_cons_self)
    · rw [firstStep_eq hheld]
      rcases better'_mem (readyOf k) (auxOf k) x y with heq | heq
      · rw [heq]
        exact hx.imp id (fun hx ↦ ⟨hx.1, fun z hz ↦ hx.2 z (List.mem_cons_of_mem _ hz)⟩)
      · rw [heq]
        exact Or.inl hy

theorem firstResult_mem (h : Listed k L) (hpids : (L.map fun y ↦ (k.pcb y).pid).Nodup) :
    firstResult k L ∈ L ∨ firstResult k L = 0 := by
  have hsub : (before k L).Sublist L := List.takeWhile_sublist _
  cases L with
  | nil => exact Or.inr h.path
  | cons s T =>
    refine foldl_firstStep_mem h (fun y hy ↦ hsub.mem hy) (hpids.sublist (hsub.map _)) (Or.inl ?_)
    rw [h.path.1]
    exact List.mem_cons_self

theorem chosen_mem (h : Listed k L) (hpids : (L.map fun y ↦ (k.pcb y).pid).Nodup)
    (hN : Path k.next (k.next k.currentProcess) N 0) (hlive : ∀ y ∈ N, readyOf k y → y ∈ L)
    (hcurrent : readyOf k k.currentProcess → (k.pcb k.currentProcess).pid ≠ 0 →
      k.currentProcess ∈ L) (ha : chosen k L N = some a) : a ∈ L := by
  rcases choose_spec k (nextResult k N) (adjustFirst k (firstResult k L)) with
    ⟨hnone, -⟩ | ⟨b, hb, hgood, hmem, -⟩
  · rw [chosen, hnone] at ha
    cases ha
  · rw [chosen, hb, Option.some_inj] at ha
    subst ha
    rcases hmem with rfl | rfl
    · rcases next_best hN with ⟨-, hzero⟩ | hbest
      · exact absurd hzero hgood.1
      · exact hlive _ hbest.mem hgood.2
    · rcases adjustFirst_mem k (firstResult k L) with hzero | heq | ⟨heq, hready, hpid⟩
      · exact absurd hzero hgood.1
      · rw [heq] at hgood ⊢
        exact (firstResult_mem h hpids).resolve_right hgood.1
      · rw [heq]
        exact hcurrent hready hpid

theorem AfterAging.saved_fields (h : AfterAging k k₁ L) (sp : ℕ) : saveSp k₁ sp =
    { k with node := (saveSp k₁ sp).node, priorityQuantum := k₁.priorityQuantum } :=
  congrArg (fun k' : Kernel ↦ { k' with node := (saveSp k₁ sp).node }) h.fields

variable {b : Option ℕ}

theorem select_next : (select k b).1.next = k.next := by
  cases b with
  | none => rfl
  | some a => exact next_setPcb _ _ _

theorem select_current : (select k b).1.currentProcess = b.getD k.dummy := by
  cases b <;> rfl

theorem select_fields : (select k b).1 = { k with
    node := (select k b).1.node, currentProcess := (select k b).1.currentProcess } := by
  cases b <;> rfl

theorem select_pcb (y : ℕ) : (select k b).1.pcb y =
    if b = some y then { k.pcb y with auxPriority := (k.pcb y).priority } else k.pcb y := by
  cases b with
  | none => simp [select, Kernel.pcb]
  | some a =>
    change (k.setPcb a _).pcb y = _
    rw [pcb_setPcb, update_apply]
    by_cases hy : y = a
    · simp [hy]
    · rw [if_neg hy, if_neg (fun h ↦ hy (Option.some.inj h).symm)]

end Result

end ShellOS.Sched.SwitchSpec
