import ShellOS.Sched.Selection

namespace ShellOS.Sched.NullReads

open Library.Fuel Library.FirstMin Library.Links Library.Runs Scheduler ProcessList SwitchSpec
open SchedulerRun ListOrder Function

section Reads

/-- The nodes that the aging loop follows a pointer to. -/
def ageReads : ℕ → Kernel → ℕ → List ℕ
  | 0, _, _ => []
  | fuel + 1, k, auxNodeIter =>
    if auxNodeIter = 0 then []
    else
      let p := k.pcb auxNodeIter
      let k' :=
        if p.auxPriority > 1 ∧ p.pid ≠ (k.pcb k.currentProcess).pid ∧ p.pstate = 1 then
          k.setPcb auxNodeIter { p with auxPriority := p.auxPriority - 1 }
        else k
      auxNodeIter :: (if p.auxPriority > 1 then [k.currentProcess] else []) ++
        ageReads fuel k' (k'.next auxNodeIter)

def nextReads (k : Kernel) : ℕ → ℕ → ℕ → List ℕ
  | 0, _, _ => []
  | fuel + 1, nextProcess, auxNextProcess =>
    if auxNextProcess = 0 then []
    else nextProcess :: auxNextProcess ::
      nextReads k fuel (nextStep k nextProcess auxNextProcess) (k.next auxNextProcess)

def firstReads (k : Kernel) : ℕ → ℕ → ℕ → List ℕ
  | 0, _, _ => []
  | fuel + 1, first, auxFirst =>
    if auxFirst = 0 then []
    else auxFirst :: k.currentProcess ::
      if (k.pcb auxFirst).pid = (k.pcb k.currentProcess).pid then []
      else first :: firstReads k fuel (firstStep k first auxFirst) (k.next auxFirst)

/-- The two tests of the second search's result. -/
def adjustReads (k : Kernel) (first : ℕ) : List ℕ :=
  let first' :=
    if (k.pcb first).pstate ≠ 1 ∧ (k.pcb k.currentProcess).pstate = 1 ∧
        (k.pcb k.currentProcess).pid ≠ 0 then k.currentProcess
    else first
  first :: (if (k.pcb first).pstate ≠ 1 then [k.currentProcess] else []) ++
    if k.fgTaken ≠ 0 then [first'] else []

/-- The comparison of the two results, each tested for `NULL` first, and the
node that is selected. -/
def chooseReads (k : Kernel) (nextProcess first : ℕ) : List ℕ :=
  (if nextProcess = 0 then [] else [nextProcess]) ++ (if first = 0 then [] else [first]) ++
    [(choose k nextProcess first).getD k.dummy]

def searchReads (fuel : ℕ) (k : Kernel) : List ℕ :=
  k.currentProcess :: nextReads k fuel (k.next k.currentProcess) (k.next k.currentProcess) ++
    (nextLoop k fuel (k.next k.currentProcess) (k.next k.currentProcess)).elim [] fun nextProcess ↦
      firstReads k fuel k.start k.start ++
        (firstLoop k fuel k.start k.start).elim [] fun first ↦
          adjustReads k first ++ chooseReads k nextProcess (adjustFirst k first)

/-- The nodes that a call of `switchProcess` follows a pointer to, as far as
the fuel goes. -/
def switchReads (fuel : ℕ) (k : Kernel) (sp : ℕ) : List ℕ :=
  if k.firstProcess ≠ 0 then [k.start]
  else if k.quantum > 0 then []
  else
    (if k.priorityQuantum = 0 then ageReads fuel k k.start else []) ++
      (aging fuel { k with quantum := quantumTicks - 1 }).elim [] fun k ↦
        searchReads fuel (saveSp k sp)

def isBefore (k : Kernel) (pid : ℕ) (headPID : ℕ) : Bool := (k.pcb (k.next headPID)).pid = pid

def isPlace (k : Kernel) (newPriority : ℕ) (headPID : ℕ) : Bool :=
  k.next headPID = 0 || newPriority < (k.pcb (k.next headPID)).priority

def moveReads (fuel : ℕ) (k : Kernel) (pid newPriority : ℕ) : List ℕ :=
  ((trail (isBefore k pid) k.next fuel k.start).flatMap fun headPID ↦
    [headPID, k.next headPID]) ++
    (seek (isBefore k pid) k.next fuel k.start).elim [] fun headPID ↦
      let process := k.next headPID
      let k := k.setNext headPID (k.next process)
      [headPID, process] ++
        ((trail (isPlace k newPriority) k.next fuel k.start).flatMap fun headPID ↦
          headPID :: if k.next headPID = 0 then [] else [k.next headPID]) ++
        (seek (isPlace k newPriority) k.next fuel k.start).elim [] fun headPID ↦
          [headPID, process]

def getPCBReads (k : Kernel) (pid fuel : ℕ) : List ℕ :=
  (trail (fun node ↦ node = 0 || (k.pcb node).pid = pid) k.next fuel k.start).filter (· ≠ 0)

/-- The nodes that a call of `changeProcessPriority` follows a pointer to, as
far as the fuel goes. -/
def changeReads (fuel : ℕ) (k : Kernel) (pid newPriority : ℕ) : List ℕ :=
  if pid ≤ 1 then []
  else if newPriority ≤ 1 ∨ newPriority > 10 then []
  else
    getPCBReads k pid fuel ++
      (getPCB k pid fuel k.start).elim [] fun pidPCB ↦
        if pidPCB = 0 then []
        else pidPCB :: moveReads fuel (setPriority k pidPCB newPriority) pid newPriority

end Reads

/-- In a call that passes its checks the search for the predecessor stops at
the process that the pid names. -/
def FindsNamed (k : Kernel) (pid newPriority : ℕ) : Prop :=
  1 < pid → 1 < newPriority → newPriority ≤ 10 →
    ∀ n pidPCB, getPCB k pid n k.start = some pidPCB → pidPCB ≠ 0 →
      ∃ m headPID, seek (isBefore (setPriority k pidPCB newPriority) pid) k.next m k.start =
        some headPID ∧ k.next headPID = pidPCB

/-- No pointer that is followed is `NULL`, and the search for the predecessor
ends where it should. -/
def NullSafe (k : Kernel) : Act → Prop
  | .switchProcess sp => ∀ n, 0 ∉ switchReads n k sp
  | .changeProcessPriority pid newPriority =>
    (∀ n, 0 ∉ changeReads n k pid newPriority) ∧ FindsNamed k pid newPriority
  | _ => True

/-- Some listed process is not a shell that is held back, or is the one that
runs, and the head of the list is not moved. -/
def HeadStays (k : Kernel) : Act → Prop
  | .switchProcess _ => ∀ L, Listed k L →
    if k.firstProcess ≠ 0 then L ≠ []
    else ∃ y ∈ L, ¬ Held k y ∨ (k.pcb y).pid = (k.pcb k.currentProcess).pid
  | .changeProcessPriority pid newPriority =>
    1 < pid → 1 < newPriority → newPriority ≤ 10 → k.start ≠ 0 → (k.pcb k.start).pid ≠ pid
  | _ => True

def CleanFirst (k : Kernel) : Act → Prop
  | .create c => k.start = 0 → k.next c.newNode = 0
  | _ => True

structure Chained (k : Kernel) (L : List ℕ) : Prop where
  listed : Listed k L
  dummy_ne_null : k.dummy ≠ 0
  quantum : k.quantum = 0
  current : k.firstProcess = 0 → k.currentProcess ≠ 0

variable {k k' k₁ : Kernel} {L L' F P M : List ℕ} {a x pid v n m sp : ℕ} {act : Act}

section Switch

theorem ageReads_ne_null (hcurrent : k.currentProcess ≠ 0) : 0 ∉ ageReads n k a := by
  induction n generalizing k a with
  | zero => exact List.not_mem_nil
  | succ n ih =>
    rw [ageReads]
    split
    · exact List.not_mem_nil
    · rename_i ha
      have hrest : ∀ p b, 0 ∉ ageReads n (k.setPcb a p) b := fun p b ↦ ih hcurrent
      simp only [List.cons_append, List.mem_cons, List.mem_append, not_or]
      refine ⟨Ne.symm ha, ?_, ?_⟩
      · split
        · simpa using hcurrent.symm
        · exact List.not_mem_nil
      · split
        · exact hrest _ _
        · exact ih hcurrent

theorem nextReads_ne_null (hx : a ≠ 0 → x ≠ 0) : 0 ∉ nextReads k n x a := by
  induction n generalizing x a with
  | zero => exact List.not_mem_nil
  | succ n ih =>
    rw [nextReads]
    split
    · exact List.not_mem_nil
    · rename_i ha
      rw [List.mem_cons, List.mem_cons, not_or, not_or]
      refine ⟨(hx ha).symm, Ne.symm ha, ih (fun _ ↦ ?_)⟩
      rw [nextStep]
      split_ifs <;> first | exact ha | exact hx ha

theorem firstStep_behind (hP : Path k.next x P a) {y : ℕ} (hy : y ∈ P ∨ y = a) :
    firstStep k y a = k.next a ∧ y = a ∧ Held k a ∨ firstStep k y a ∈ P ++ [a] := by
  have hmem : ∀ z, z ∈ P ∨ z = a → z ∈ P ++ [a] := by simp
  by_cases hheld : Held k a
  · rw [firstStep_held hheld]
    split
    · rcases hy with hy | rfl
      · exact Or.inr (hmem _ (hP.next_mem hy))
      · exact Or.inl ⟨rfl, rfl, hheld⟩
    · exact Or.inr (hmem y hy)
  · right
    rw [firstStep_eq hheld]
    rcases better'_mem (readyOf k) (auxOf k) y a with heq | heq
    · rw [heq]
      exact hmem y hy
    · rw [heq]
      exact hmem a (Or.inr rfl)

theorem firstStep_mem (hP : Path k.next x P a) {y : ℕ} (hy : y ∈ P ∨ y = a) :
    firstStep k y a ∈ P ++ [a] ∨ firstStep k y a = k.next a :=
  (firstStep_behind hP hy).symm.imp id And.left

theorem firstReads_ne_null (hcurrent : k.currentProcess ≠ 0) (hP : Path k.next x P a)
    (hP0 : 0 ∉ P) {y : ℕ} (hy : y ∈ P ∨ y = a) : 0 ∉ firstReads k n y a := by
  induction n generalizing P a y with
  | zero => exact List.not_mem_nil
  | succ n ih =>
    rw [firstReads]
    split
    · exact List.not_mem_nil
    · rename_i ha
      have hy0 : y ≠ 0 := by
        rcases hy with hy | rfl
        · exact ne_of_mem_of_not_mem hy hP0
        · exact ha
      have hP' : Path k.next x (P ++ [a]) (k.next a) := path_snoc.mpr ⟨hP, rfl⟩
      rw [List.mem_cons, List.mem_cons, not_or, not_or]
      refine ⟨Ne.symm ha, hcurrent.symm, ?_⟩
      split
      · exact List.not_mem_nil
      · rw [List.mem_cons, not_or]
        exact ⟨hy0.symm, ih hP' (by simpa using ⟨hP0, Ne.symm ha⟩) (firstStep_mem hP hy)⟩

/-- The second search ends at `NULL` if and only if it meets only shells that
are held back, and not the process that runs. -/
theorem firstLoop_null (hP : Path k.next x P a) (hM : Path k.next a M 0) (h0 : 0 ∉ P ++ M)
    (hnd : (P ++ M).Nodup) {y r : ℕ} (hy : y ∈ P ∨ y = a) (hr : firstLoop k n y a = some r) :
    r = 0 ↔ y = a ∧ ∀ z ∈ M, Held k z ∧ (k.pcb z).pid ≠ (k.pcb k.currentProcess).pid := by
  induction n generalizing P M a y with
  | zero => cases hr
  | succ n ih =>
    rw [List.mem_append, not_or] at h0
    rw [firstLoop] at hr
    cases M with
    | nil =>
      obtain rfl : a = 0 := hM
      rw [if_pos (Or.inl rfl), Option.some_inj] at hr
      subst hr
      simp
    | cons b M =>
      obtain ⟨rfl, hM⟩ := hM
      have ha : a ≠ 0 := (List.ne_of_not_mem_cons h0.2).symm
      have hy0 : y ≠ 0 := by
        rcases hy with hy | rfl
        · exact ne_of_mem_of_not_mem hy h0.1
        · exact ha
      by_cases hpid : (k.pcb a).pid = (k.pcb k.currentProcess).pid
      · rw [if_pos (Or.inr hpid), Option.some_inj] at hr
        subst hr
        exact iff_of_false hy0 (fun h ↦ (h.2 a List.mem_cons_self).2 hpid)
      · rw [if_neg (not_or.mpr ⟨ha, hpid⟩)] at hr
        have hP' : Path k.next x (P ++ [a]) (k.next a) := path_snoc.mpr ⟨hP, rfl⟩
        rw [List.append_cons] at hnd
        have h0' : 0 ∉ P ++ [a] ++ M := by
          rw [← List.append_cons, List.mem_append, not_or]
          exact h0
        rw [ih hP' hM h0' hnd (firstStep_mem hP hy) hr, List.forall_mem_cons, ← and_assoc,
          ← and_assoc]
        refine and_congr_left (fun _ ↦ ⟨fun hstep ↦ ?_, fun h ↦ ?_⟩)
        · rcases firstStep_behind hP hy with hgo | hmem
          · exact ⟨⟨hgo.2.1, hgo.2.2⟩, hpid⟩
          · -- what follows `a` is not among the nodes met so far
            rw [hstep] at hmem
            cases M with
            | nil =>
              have hzero : k.next a = 0 := hM
              exact absurd (hzero ▸ hmem) (by simpa using ⟨h0.1, Ne.symm ha⟩)
            | cons c M =>
              obtain ⟨hc, -⟩ := hM
              have hdisj := (List.nodup_append.mp hnd).2.2 _ hmem c List.mem_cons_self
              exact absurd hc hdisj
        · obtain ⟨⟨rfl, hheld⟩, -⟩ := h
          rw [firstStep_held hheld, if_pos hheld.1]

theorem switchProcess_inv {r : Kernel × ℕ} (hfirst : k.firstProcess = 0) (hquantum : k.quantum = 0)
    (hs : switchProcess n k sp = some r) :
    ∃ k₁ y z, aging n { k with quantum := 0 } = some k₁ ∧
      nextLoop (saveSp k₁ sp) n ((saveSp k₁ sp).next (saveSp k₁ sp).currentProcess)
        ((saveSp k₁ sp).next (saveSp k₁ sp).currentProcess) = some y ∧
      firstLoop (saveSp k₁ sp) n (saveSp k₁ sp).start (saveSp k₁ sp).start = some z ∧
      r = select (saveSp k₁ sp) (choose (saveSp k₁ sp) y (adjustFirst (saveSp k₁ sp) z)) := by
  rw [switchProcess, if_neg (not_not.mpr hfirst), if_neg (by omega)] at hs
  obtain ⟨k₁, hage, hs⟩ := Option.bind_eq_some_iff.mp hs
  obtain ⟨y, hnext, hs⟩ := Option.bind_eq_some_iff.mp hs
  obtain ⟨z, hloop, hs⟩ := Option.map_eq_some_iff.mp hs
  exact ⟨k₁, y, z, hage, hnext, hloop, hs.symm⟩

theorem Chained.aged (h : Chained k L) (hage : aging n { k with quantum := 0 } = some k₁) :
    AfterAging { k with quantum := 0 } k₁ L := by
  have hl : Listed { k with quantum := 0 } L := ⟨h.listed.path, h.listed.not_null, h.listed.nodup⟩
  obtain ⟨k₂, haging, haged⟩ := aging_spec hl
  rwa [eq_of_enough (fun n m h ↦ aging_mono h) hage haging]

theorem saved_chained (h : Chained k L) (haged : AfterAging { k with quantum := 0 } k₁ L)
    (sp : ℕ) : Listed (saveSp k₁ sp) L ∧ (saveSp k₁ sp).currentProcess = k.currentProcess ∧
      (saveSp k₁ sp).dummy = k.dummy := by
  have hl : Listed { k with quantum := 0 } L := ⟨h.listed.path, h.listed.not_null, h.listed.nodup⟩
  refine ⟨haged.saved_listed hl sp, haged.saved_current sp, ?_⟩
  rw [haged.saved_fields sp]

theorem firstLoop_listed (h : Chained k L) (haged : AfterAging { k with quantum := 0 } k₁ L)
    {y : ℕ} (hr : firstLoop (saveSp k₁ sp) m (saveSp k₁ sp).start (saveSp k₁ sp).start = some y) :
    y ≠ 0 ↔ ∃ z ∈ L, ¬ Held k z ∨ (k.pcb z).pid = (k.pcb k.currentProcess).pid := by
  have hl := (saved_chained h haged sp).1
  have hnull := firstLoop_null (P := []) rfl hl.path hl.not_null hl.nodup (Or.inr rfl) hr
  have hcurrent : (saveSp k₁ sp).currentProcess = k.currentProcess := haged.saved_current sp
  have hheld : ∀ z, Held (saveSp k₁ sp) z ↔ Held k z := Selection.saved_held haged sp
  have hpid : ∀ z, ((saveSp k₁ sp).pcb z).pid = (k.pcb z).pid := haged.saved_pid sp
  rw [ne_eq, hnull, hcurrent]
  simp only [hheld, hpid, true_and, not_forall, not_and_or, ne_eq, not_not, exists_prop]

theorem tail_reads_ne_null (hcurrent : k.currentProcess ≠ 0) (hdummy : k.dummy ≠ 0) (hx : x ≠ 0)
    (y : ℕ) : 0 ∉ adjustReads k x ++ chooseReads k y (adjustFirst k x) := by
  have hadjust : 0 ∉ adjustReads k x := by
    rw [adjustReads]
    split_ifs <;> simp [hcurrent.symm, hx.symm]
  have hchoose : (choose k y (adjustFirst k x)).getD k.dummy ≠ 0 := by
    rcases choose_spec k y (adjustFirst k x) with ⟨hnone, -⟩ | ⟨a, ha, hgood, -⟩
    · rw [hnone]
      exact hdummy
    · rw [ha]
      exact hgood.1
  rw [List.mem_append, not_or, chooseReads]
  refine ⟨hadjust, ?_⟩
  split_ifs <;> simp_all [eq_comm]

theorem headStays_switch (h : Chained k L) : HeadStays k (.switchProcess sp) ↔
    if k.firstProcess ≠ 0 then L ≠ []
    else ∃ y ∈ L, ¬ Held k y ∨ (k.pcb y).pid = (k.pcb k.currentProcess).pid := by
  constructor
  · intro hstays
    exact hstays L h.listed
  · intro hcond L' hL'
    obtain rfl := h.listed.unique hL'
    exact hcond

theorem search_safe (h : Chained k L) (hfirst : k.firstProcess = 0)
    (haged : AfterAging { k with quantum := 0 } k₁ L)
    (hstays : ∃ y ∈ L, ¬ Held k y ∨ (k.pcb y).pid = (k.pcb k.currentProcess).pid) :
    0 ∉ searchReads n (saveSp k₁ sp) := by
  obtain ⟨-, hcur, hdummy⟩ := saved_chained h haged sp
  have hcurrent : (saveSp k₁ sp).currentProcess ≠ 0 := hcur ▸ h.current hfirst
  have hdummy0 : (saveSp k₁ sp).dummy ≠ 0 := hdummy ▸ h.dummy_ne_null
  rw [searchReads, List.cons_append, List.mem_cons, List.mem_append, not_or, not_or]
  refine ⟨hcurrent.symm, nextReads_ne_null id, ?_⟩
  cases nextLoop (saveSp k₁ sp) n _ _ with
  | none => exact List.not_mem_nil
  | some y =>
    rw [Option.elim_some, List.mem_append, not_or]
    refine ⟨firstReads_ne_null hcurrent (P := []) rfl List.not_mem_nil (Or.inr rfl), ?_⟩
    cases hz : firstLoop (saveSp k₁ sp) n (saveSp k₁ sp).start (saveSp k₁ sp).start with
    | none => exact List.not_mem_nil
    | some z =>
      exact tail_reads_ne_null hcurrent hdummy0 ((firstLoop_listed h haged hz).mpr hstays) y

theorem switch_safe (h : Chained k L) (hstays : HeadStays k (.switchProcess sp)) :
    NullSafe k (.switchProcess sp) := by
  intro n
  rw [headStays_switch h] at hstays
  rw [switchReads]
  by_cases hfirst : k.firstProcess = 0
  · have hquantum := h.quantum
    rw [if_neg (not_not.mpr hfirst)] at hstays ⊢
    rw [if_neg (by omega), List.mem_append, not_or]
    constructor
    · split
      · exact ageReads_ne_null (h.current hfirst)
      · exact List.not_mem_nil
    change 0 ∉ (aging n { k with quantum := 0 }).elim [] _
    cases hk₁ : aging n { k with quantum := 0 } with
    | none => exact List.not_mem_nil
    | some k₁ => exact search_safe h hfirst (h.aged hk₁) hstays
  · rw [if_pos hfirst] at hstays ⊢
    have hstart : k.start ∈ L := h.listed.path.start_mem hstays
    simpa using (ne_of_mem_of_not_mem hstart h.listed.not_null).symm

theorem switch_stays {r : Kernel × ℕ} (h : Chained k L) (hs : switchProcess n k sp = some r)
    (hsafe : NullSafe k (.switchProcess sp)) : HeadStays k (.switchProcess sp) := by
  rw [headStays_switch h]
  have hreads : 0 ∉ switchReads n k sp := hsafe n
  rw [switchReads] at hreads
  by_cases hfirst : k.firstProcess = 0
  · have hquantum := h.quantum
    rw [if_neg (not_not.mpr hfirst)] at hreads ⊢
    rw [if_neg (by omega), List.mem_append, not_or] at hreads
    obtain ⟨k₁, y, z, hage, hnext, hloop, -⟩ := switchProcess_inv hfirst hquantum hs
    have haged := h.aged hage
    have hsearch : 0 ∉ (aging n { k with quantum := 0 }).elim [] fun k ↦
      searchReads n (saveSp k sp) := hreads.2
    rw [hage, Option.elim_some, searchReads, hnext, Option.elim_some, hloop, Option.elim_some]
      at hsearch
    refine (firstLoop_listed h haged hloop).mp (fun hz ↦ hsearch ?_)
    apply List.mem_append_right
    apply List.mem_append_right
    apply List.mem_append_left
    rw [adjustReads, hz]
    exact List.mem_append_left _ List.mem_cons_self
  · rw [if_pos hfirst] at hreads ⊢
    rintro rfl
    have hstart : k.start = 0 := h.listed.path
    exact hreads (by simp [hstart])

end Switch

section Change

variable {F₁ F₂ : List ℕ}

theorem first_named (k : Kernel) (L : List ℕ) (pid : ℕ) : (∀ y ∈ L, (k.pcb y).pid ≠ pid) ∨
    ∃ F x F', L = F ++ x :: F' ∧ (∀ y ∈ F, (k.pcb y).pid ≠ pid) ∧ (k.pcb x).pid = pid := by
  induction L with
  | nil => exact Or.inl (by simp)
  | cons a L ih =>
    by_cases ha : (k.pcb a).pid = pid
    · exact Or.inr ⟨[], a, L, rfl, by simp, ha⟩
    rcases ih with hall | ⟨F, x, F', rfl, hF, hx⟩
    · exact Or.inl (List.forall_mem_cons.mpr ⟨ha, hall⟩)
    · exact Or.inr ⟨a :: F, x, F', rfl, List.forall_mem_cons.mpr ⟨ha, hF⟩, hx⟩

theorem place_safe {T : List ℕ} (h : Path k.next a (a :: T) 0) (hnull : 0 ∉ a :: T)
    (hnd : (a :: T).Nodup) (hx : x ∉ a :: T) (hx0 : 0 ≠ x) (v n : ℕ) :
    0 ∉ ((trail (isPlace k v) k.next n a).flatMap fun headPID ↦
        headPID :: if k.next headPID = 0 then [] else [k.next headPID]) ++
      (seek (isPlace k v) k.next n a).elim [] fun headPID ↦ [headPID, x] := by
  obtain ⟨q, hq, hseek, -⟩ := relink_spec h (List.not_mem_of_not_mem_cons hnull) hnd hx v
  have htrail : ∀ y ∈ trail (isPlace k v) k.next n a, y ∈ a :: T :=
    h.trail_mem (fun y _ hy ↦ by simp [isPlace, hy]) n
  rw [List.mem_append, not_or]
  constructor
  · simp only [List.mem_flatMap, not_exists, not_and]
    intro y hy hmem
    rcases List.mem_cons.mp hmem with h0 | h0
    · exact ne_of_mem_of_not_mem (htrail y hy) hnull h0.symm
    · split at h0
      · cases h0
      · rename_i hnext
        exact hnext (List.mem_singleton.mp h0).symm
  · cases hsome : seek (isPlace k v) k.next n a with
    | none => exact List.not_mem_nil
    | some q' =>
      obtain rfl := eq_of_enough (fun n m h ↦ extends_seek _ h) hsome hseek
      have hq0 : 0 ≠ q' := (ne_of_mem_of_not_mem hq hnull).symm
      simpa using ⟨hq0, hx0⟩

theorem move_safe (h : Listed k (a :: F₁ ++ x :: F₂)) (hF : ∀ y ∈ F₁, (k.pcb y).pid ≠ pid)
    (hx : (k.pcb x).pid = pid) (v n : ℕ) : 0 ∉ moveReads n k pid v := by
  have hstart : k.start = a := h.path.1
  have hpath : Path k.next a (a :: F₁ ++ x :: F₂) 0 := ⟨rfl, h.path.2⟩
  have hmem0 : ∀ y ∈ a :: F₁ ++ x :: F₂, 0 ≠ y := fun y hy ↦
    (ne_of_mem_of_not_mem hy h.not_null).symm
  obtain ⟨q, hq, hseek, hqx, hpath₁⟩ := unlink_pid hpath h.nodup hF hx
  obtain ⟨c, hfirst, rfl, -⟩ := path_append.mp hpath
  have htrail : ∀ y ∈ trail (isBefore k pid) k.next n a, y ∈ a :: F₁ :=
    hfirst.trail_mem (fun y _ hy ↦ by simp [isBefore, hy, hx]) n
  rw [moveReads, hstart, List.mem_append, not_or]
  constructor
  · simp only [List.mem_flatMap, not_exists, not_and]
    intro y hy hmem
    have hyF := htrail y hy
    have hnext : k.next y ∈ a :: F₁ ++ c :: F₂ := by
      rcases hfirst.next_mem hyF with hm | hm
      · exact List.mem_append_left _ hm
      · simp [hm]
    rcases List.mem_pair.mp hmem with h0 | h0
    · exact hmem0 y (List.mem_append_left _ hyF) h0
    · exact hmem0 _ hnext h0
  cases hsome : seek (isBefore k pid) k.next n a with
  | none => exact List.not_mem_nil
  | some q' =>
    obtain rfl := eq_of_enough (fun n m h ↦ extends_seek _ h) hsome hseek
    have hq0 := hmem0 q' (List.mem_append_left _ hq)
    have hc0 := hmem0 c (by simp)
    obtain ⟨hc₂, hnd₂⟩ := List.nodup_cons.mp (List.nodup_middle.mp h.nodup)
    have hnull : 0 ∉ a :: F₁ ++ F₂ := by
      intro hmem
      rcases List.mem_append.mp hmem with hm | hm
      · exact h.not_null (List.mem_append_left _ hm)
      · exact h.not_null (List.mem_append_right _ (List.mem_cons_of_mem _ hm))
    have hplace := place_safe (k := k.setNext q' (k.next c)) hpath₁ hnull hnd₂ hc₂ hc0 v n
    simp only [Option.elim_some, hqx]
    change 0 ∉ [q', c] ++ (trail (isPlace _ v) _ n k.start).flatMap _ ++
      (seek (isPlace _ v) _ n k.start).elim [] _
    rw [hstart, List.append_assoc, List.mem_append, not_or]
    exact ⟨by simpa using ⟨hq0, hc0⟩, hplace⟩

theorem getPCBReads_ne_null : 0 ∉ getPCBReads k pid n := by
  simp [getPCBReads]

theorem setPriority_pid (k : Kernel) (x v y : ℕ) :
    ((setPriority k x v).pcb y).pid = (k.pcb y).pid := by
  by_cases hy : y = x <;> simp [setPriority, hy]

theorem setPriority_listed (h : Listed k L) (x v : ℕ) : Listed (setPriority k x v) L := by
  refine ⟨?_, h.not_null, h.nodup⟩
  rw [setPriority, next_setPcb]
  exact h.path

theorem before_found (h : Listed k (a :: F₁ ++ x :: F₂)) (hF : ∀ y ∈ F₁, (k.pcb y).pid ≠ pid)
    (hx : (k.pcb x).pid = pid) (z v : ℕ) : ∃ q, (∀ n, F₁.length < n →
      seek (isBefore (setPriority k z v) pid) k.next n k.start = some q) ∧ k.next q = x := by
  have hstart : k.start = a := h.path.1
  have hnext : (setPriority k z v).next = k.next := next_setPcb _ _ _
  have hpath : Path (setPriority k z v).next a (a :: F₁ ++ x :: F₂) 0 := hnext ▸ ⟨rfl, h.path.2⟩
  have hF' : ∀ y ∈ F₁, ((setPriority k z v).pcb y).pid ≠ pid := by
    intro y hy
    rw [setPriority_pid]
    exact hF y hy
  obtain ⟨q, -, hseek, hqx, -⟩ :=
    unlink_pid hpath h.nodup hF' ((setPriority_pid k z v x).trans hx)
  have hseek : ∀ n, F₁.length < n → seek (isBefore (setPriority k z v) pid)
      (setPriority k z v).next n a = some q := hseek
  rw [hnext] at hseek hqx
  exact ⟨q, hstart ▸ hseek, hqx⟩

theorem getPCB_cases (h : Listed k L)
    (hhead : k.start ≠ 0 → (k.pcb k.start).pid ≠ pid) :
    ∃ p, (∀ n, L.length < n → getPCB k pid n k.start = some p) ∧
      (p = 0 ∨ ∃ a F₁ F₂, L = a :: F₁ ++ p :: F₂ ∧ (∀ y ∈ F₁, (k.pcb y).pid ≠ pid) ∧
        (k.pcb p).pid = pid) := by
  rcases first_named k L pid with hall | ⟨F, x, F₂, rfl, hF, hx⟩
  · obtain ⟨p, hget, hp⟩ := getPCB_spec h pid
    exact ⟨p, hget, Or.inl (hp.elim And.left (fun hp ↦ absurd hp.2 (hall p hp.1)))⟩
  · refine ⟨x, fun n hn ↦ getPCB_first h hF hx hn, Or.inr ?_⟩
    cases F with
    | nil =>
      have hstart : k.start = x := h.path.1
      have hx0 : x ≠ 0 := ne_of_mem_of_not_mem List.mem_cons_self h.not_null
      rw [hstart] at hhead
      exact absurd hx (hhead hx0)
    | cons a F₁ => exact ⟨a, F₁, F₂, rfl, fun y hy ↦ hF y (List.mem_cons_of_mem _ hy), hx⟩

theorem change_safe (h : Chained k L) (hstays : HeadStays k (.changeProcessPriority pid v)) :
    NullSafe k (.changeProcessPriority pid v) := by
  by_cases hvalid : 1 < pid ∧ 1 < v ∧ v ≤ 10
  · obtain ⟨hpid, hlo, hhi⟩ := hvalid
    obtain ⟨p, hget, hp⟩ := getPCB_cases h.listed (hstays hpid hlo hhi)
    have hsame : ∀ n p', getPCB k pid n k.start = some p' → p' = p := fun n p' hp' ↦
      eq_of_enough (fun n m h ↦ extends_seek _ h) hp' hget
    constructor
    · intro n
      have hv : ¬ (v ≤ 1 ∨ v > 10) := by omega
      rw [changeReads, if_neg (by omega), if_neg hv, List.mem_append, not_or]
      refine ⟨getPCBReads_ne_null, ?_⟩
      cases hp' : getPCB k pid n k.start with
      | none => exact List.not_mem_nil
      | some p' =>
        obtain rfl := hsame n p' hp'
        rw [Option.elim_some]
        split
        · exact List.not_mem_nil
        · rename_i hp0
          obtain ⟨a, F₁, F₂, rfl, hF, hx⟩ := hp.resolve_left hp0
          rw [List.mem_cons, not_or]
          refine ⟨Ne.symm hp0, move_safe (setPriority_listed h.listed p' v) (fun y hy ↦ ?_) ?_ v n⟩
          · rw [setPriority_pid]
            exact hF y hy
          · rw [setPriority_pid, hx]
    · intro _ _ _ n p' hp' hp0
      obtain rfl := hsame n p' hp'
      obtain ⟨a, F₁, F₂, rfl, hF, hx⟩ := hp.resolve_left hp0
      obtain ⟨q, hseek, hqx⟩ := before_found h.listed hF hx p' v
      exact ⟨F₁.length + 1, q, hseek _ (Nat.lt_succ_self _), hqx⟩
  · constructor
    · intro n
      have hreads : changeReads n k pid v = [] := by
        rw [changeReads]
        split_ifs with hpid hv
        · rfl
        · rfl
        · omega
      rw [hreads]
      exact List.not_mem_nil
    · exact fun hpid hlo hhi ↦ absurd ⟨hpid, hlo, hhi⟩ hvalid

/-- When the pid is that of the head, the search goes past the end of the list
or stops before another process with the pid. -/
theorem change_stays (h : Chained k L) (hsafe : NullSafe k (.changeProcessPriority pid v)) :
    HeadStays k (.changeProcessPriority pid v) := by
  intro hpid hlo hhi hstart hhead
  obtain ⟨hreads, hfinds⟩ := hsafe
  have hv : ¬ (v ≤ 1 ∨ v > 10) := by omega
  cases L with
  | nil => exact hstart h.listed.path
  | cons a T =>
    have ha : k.start = a := h.listed.path.1
    rw [ha] at hhead hstart
    have hnext : (setPriority k a v).next = k.next := next_setPcb _ _ _
    have hpath : Path k.next a (a :: T) 0 := ⟨rfl, h.listed.path.2⟩
    have hnone : ∀ y ∈ ([] : List ℕ), (k.pcb y).pid ≠ pid := by simp
    have hget : ∀ n, (a :: T).length < n → getPCB k pid n k.start = some a := fun n hn ↦
      getPCB_first h.listed hnone hhead hn
    rcases first_named k T pid with hall | ⟨F₁, x, F₂, rfl, hF, hx⟩
    · have hgo : ∀ y ∈ a :: T, k.next y ∈ T → isBefore (setPriority k a v) pid y = false := by
        intro y _ hy
        rw [isBefore, hnext, setPriority_pid]
        simpa using hall _ hy
      obtain ⟨y, hy, hy0⟩ := hpath.trail_last hgo (n := T.length + 2) (by omega)
      refine hreads (T.length + 2) ?_
      rw [changeReads, if_neg (by omega), if_neg hv, hget _ (by simp), Option.elim_some,
        if_neg hstart]
      apply List.mem_append_right
      apply List.mem_cons_of_mem
      apply List.mem_append_left
      rw [List.mem_flatMap, hnext]
      have hsame : (setPriority k a v).start = a := ha
      rw [hsame]
      exact ⟨y, hy, by simp [hy0]⟩
    · obtain ⟨m, q, hq, hqa⟩ := hfinds hpid hlo hhi _ a (hget _ (Nat.lt_succ_self _)) hstart
      have hlisted : Listed k (a :: F₁ ++ x :: F₂) := h.listed
      obtain ⟨q', hseek, hqx⟩ := before_found hlisted hF hx a v
      obtain rfl := eq_of_enough (fun n m h ↦ extends_seek _ h) hq hseek
      have hxa : x = a := hqx.symm.trans hqa
      exact (List.nodup_cons.mp h.listed.nodup).1 (hxa ▸ by simp)

end Change

section Keep

theorem Chained.same (h : Chained k L) (hl : Listed k' L') (hf : SameFields k k') :
    Chained k' L' := by
  refine ⟨hl, ?_, hf.quantum.trans h.quantum, fun hfirst ↦ ?_⟩
  · rw [hf.dummy]
    exact h.dummy_ne_null
  · rw [hf.currentProcess]
    exact h.current (hf.firstProcess.symm.trans hfirst)

theorem deleteProcess_listed {r : Kernel × ℕ} (h : Listed k L)
    (hcall : deleteProcess pid n k k.start = some r) :
    ∃ L', Listed { r.1 with start := r.2 } L' ∧ SameFields k { r.1 with start := r.2 } := by
  have hmono : ∀ n m, n ≤ m →
      Extends (deleteProcess pid n k k.start) (deleteProcess pid m k k.start) :=
    fun n m hnm ↦ deleteProcess_mono hnm _ _
  rcases first_named k L pid with hall | ⟨F, x, F', rfl, hF, hx⟩
  · obtain rfl := eq_of_enough hmono hcall (fun m hm ↦
      deleteProcess_absent h.path h.not_null hall hm)
    exact ⟨L, h, rfl⟩
  · obtain ⟨k', b, hdel, hpath, -, -, hfields⟩ :=
      deleteProcess_found h.path h.not_null h.nodup hF hx
    obtain rfl := eq_of_enough hmono hcall hdel
    have hsub : (F ++ F').Sublist (F ++ x :: F') := (List.sublist_cons_self x F').append_left F
    exact ⟨F ++ F', ⟨hpath, fun h0 ↦ h.not_null (hsub.mem h0), h.nodup.sublist hsub⟩,
      hfields.trans rfl⟩

theorem switch_chained {r : Kernel × ℕ} (h : Chained k L)
    (hstays : HeadStays k (.switchProcess sp)) (hs : switchProcess n k sp = some r) :
    Chained r.1 L := by
  rw [headStays_switch h] at hstays
  by_cases hfirst : k.firstProcess = 0
  · obtain ⟨k₁, y, z, hage, -, -, rfl⟩ := switchProcess_inv hfirst h.quantum hs
    have haged := h.aged hage
    obtain ⟨hlisted, -, hdummy⟩ := saved_chained h haged sp
    have hquantum : (saveSp k₁ sp).quantum = 0 := by rw [haged.saved_fields sp]
    have hchosen : (choose (saveSp k₁ sp) y (adjustFirst (saveSp k₁ sp) z)).getD k.dummy ≠ 0 := by
      rcases choose_spec (saveSp k₁ sp) y (adjustFirst (saveSp k₁ sp) z) with
        ⟨hnone, -⟩ | ⟨a, ha, hgood, -⟩
      · rw [hnone]
        exact h.dummy_ne_null
      · rw [ha]
        exact hgood.1
    rw [← hdummy] at hchosen
    refine ⟨⟨?_, hlisted.not_null, hlisted.nodup⟩, ?_, ?_, fun _ ↦ ?_⟩
    · rw [select_next, select_fields]
      exact hlisted.path
    · rw [select_fields]
      exact hdummy ▸ h.dummy_ne_null
    · rw [select_fields]
      exact hquantum
    · rw [select_current]
      exact hchosen
  · rw [if_pos hfirst] at hstays
    rw [switchProcess, if_pos hfirst, Option.some_inj] at hs
    subst hs
    exact ⟨⟨h.listed.path, h.listed.not_null, h.listed.nodup⟩, h.dummy_ne_null, h.quantum,
      fun _ ↦ ne_of_mem_of_not_mem (h.listed.path.start_mem hstays) h.listed.not_null⟩

theorem change_chained (h : Chained k L) (hstays : HeadStays k (.changeProcessPriority pid v))
    (hs : changeProcessPriority n k pid v = some k') : ∃ L', Chained k' L' := by
  have hmono : ∀ n m, n ≤ m →
      Extends (changeProcessPriority n k pid v) (changeProcessPriority m k pid v) :=
    fun n m hnm ↦ changeProcessPriority_mono hnm v
  by_cases hno : pid ≤ 1 ∨ v ≤ 1 ∨ 10 < v ∨ ∀ y ∈ L, (k.pcb y).pid ≠ pid
  · obtain rfl := eq_of_enough hmono hs (fun m hm ↦ changeProcessPriority_refused h.listed v hno hm)
    exact ⟨L, h⟩
  simp only [not_or, not_le, not_lt] at hno
  obtain ⟨hpid, hlo, hhi, hsome⟩ := hno
  obtain ⟨F, x, F₂, rfl, hF, hx⟩ := (first_named k L pid).resolve_left hsome
  cases F with
  | nil =>
    have hstart : k.start = x := h.listed.path.1
    have hx0 : x ≠ 0 := ne_of_mem_of_not_mem List.mem_cons_self h.listed.not_null
    have hne := hstays hpid hlo hhi
    rw [hstart] at hne
    exact absurd hx (hne hx0)
  | cons a F₁ =>
    obtain ⟨k₁, hchange, hreordered⟩ := changeProcessPriority_first h.listed hF hx hpid hlo hhi
    obtain rfl := eq_of_enough hmono hs hchange
    exact ⟨_, h.same hreordered.listed hreordered.fields⟩

theorem setState_chained (h : Chained k L) (a v : ℕ) : Chained (setState k a v) L := by
  refine h.same ⟨?_, h.listed.not_null, h.listed.nodup⟩ (.setPcb _ _ _)
  rw [setState, next_setPcb]
  exact h.listed.path

theorem step_chained (h : Chained k L) (hclean : CleanFirst k act) (hstays : HeadStays k act)
    (hs : Step k act k') : ∃ L', Chained k' L' := by
  cases hs with
  | @create c n r h0 hdummy hnew hcall =>
    have hfirst : L = [] → k.next c.newNode = 0 := by
      rintro rfl
      exact hclean h.listed.path
    obtain ⟨r', hcreate, hcreated⟩ := createProcess_spec h.listed (hnew L h.listed) h0 hfirst
    obtain rfl := eq_of_enough (fun n m hnm ↦ createProcess_mono hnm) hcall hcreate
    have hcounted : Chained (counted k c) L := ⟨⟨h.listed.path, h.listed.not_null, h.listed.nodup⟩,
      h.dummy_ne_null, h.quantum, h.current⟩
    exact ⟨_, hcounted.same hcreated.listed hcreated.fields⟩
  | @killPid _ pid n hcall =>
    by_cases hpid : pid > 1
    · rw [Scheduler.killPid, if_pos hpid] at hcall
      obtain ⟨r, hdel, rfl⟩ := Option.map_eq_some_iff.mp hcall
      obtain ⟨L', hl, hf⟩ := deleteProcess_listed h.listed hdel
      exact ⟨L', h.same hl hf⟩
    · rw [Scheduler.killPid, if_neg hpid, Option.some_inj] at hcall
      exact ⟨L, hcall ▸ h⟩
  | exit _ _ hcall =>
    rw [exitCurrentProcess_eq] at hcall
    obtain ⟨r, hdel, rfl⟩ := Option.map_eq_some_iff.mp hcall
    have hexit : Chained (exitFlag k) L := by
      rw [exitFlag]
      split
      · exact ⟨⟨h.listed.path, h.listed.not_null, h.listed.nodup⟩, h.dummy_ne_null, h.quantum,
          h.current⟩
      · exact h
    obtain ⟨L', hl, hf⟩ := deleteProcess_listed hexit.listed hdel
    exact ⟨L', hexit.same hl hf⟩
  | changeProcessPriority hcall => exact change_chained h hstays hcall
  | @changeProcessState _ pid n hcall =>
    rw [changeProcessState] at hcall
    split at hcall
    · exact ⟨L, Option.some.inj hcall ▸ h⟩
    · obtain ⟨p, -, rfl⟩ := Option.map_eq_some_iff.mp hcall
      refine ⟨L, ?_⟩
      split_ifs
      · exact h
      · exact setState_chained h p 0
      · exact setState_chained h p 1
      · exact h
  | block => exact ⟨L, setState_chained h _ 0⟩
  | wake => exact ⟨L, setState_chained h _ 1⟩
  | switchProcess hcall => exact ⟨L, switch_chained h hstays hcall⟩

theorem started_chained {b : Boot} (h : Started b k) : Chained k [b.newNode] :=
  ⟨h.linked.listed, h.linked.dummy_ne_null, h.linked.quantum,
    fun hfirst ↦ absurd hfirst h.firstProcess⟩

end Keep

theorem nullSafe_of_headStays (h : Chained k L) (hstays : HeadStays k act) : NullSafe k act := by
  cases act with
  | switchProcess sp => exact switch_safe h hstays
  | changeProcessPriority pid v => exact change_safe h hstays
  | _ => trivial

theorem nullSafe_iff (h : Chained k L) (hs : Step k act k') :
    NullSafe k act ↔ HeadStays k act := by
  refine ⟨fun hsafe ↦ ?_, nullSafe_of_headStays h⟩
  cases hs with
  | switchProcess hcall => exact switch_stays h hcall hsafe
  | changeProcessPriority => exact change_stays h hsafe
  | _ => trivial

/-- The calls of a run from boot follow `NULL` exactly where the list has no
process that the second search may keep, or its head is moved. -/
theorem null_free {b : Boot} {k₀ : Kernel} {tr : List (Kernel × Act)} (hmain : main n b = some k₀)
    (hrun : Run Step k₀ tr k) (hclean : ∀ e ∈ tr, CleanFirst e.1 e.2) :
    ((∀ e ∈ tr, NullSafe e.1 e.2) ↔ ∀ e ∈ tr, HeadStays e.1 e.2) ∧
      ((∀ e ∈ tr, HeadStays e.1 e.2) → ∀ act, HeadStays k act → NullSafe k act) := by
  have hstart : ∃ L, Chained k₀ L := ⟨_, started_chained (main_started hmain)⟩
  have hrun := hrun.restrict hclean
  have hkeep : ∀ a i b, (∃ L, Chained a L) → HeadStays a i → CleanFirst a i ∧ Step a i b →
      ∃ L, Chained b L := by
    rintro a i b ⟨L, hL⟩ hstays ⟨hclean, hs⟩
    exact step_chained hL hclean hstays hs
  refine ⟨hrun.steps_iff hkeep ?_ hstart, fun hstays act hact ↦ ?_⟩
  · rintro a i b ⟨L, hL⟩ ⟨-, hs⟩
    exact nullSafe_iff hL hs
  · obtain ⟨L, hL⟩ := hrun.invariant_of hkeep hstays hstart
    exact nullSafe_of_headStays hL hact

section Perform

def Steady (k : Kernel) : Act → Prop
  | .switchProcess _ => k.start ≠ 0 ∧ ¬ Held k k.start
  | .create _ => k.start ≠ 0
  | .changeProcessPriority pid _ => (k.pcb k.start).pid ≠ pid
  | .killPid _ | .exit | .changeProcessState _ | .block | .wake _ => True

instance (k : Kernel) : DecidablePred (Steady k)
  | .switchProcess _ => inferInstanceAs (Decidable (k.start ≠ 0 ∧ ¬ Held k k.start))
  | .create _ => inferInstanceAs (Decidable (k.start ≠ 0))
  | .changeProcessPriority pid _ => inferInstanceAs (Decidable ((k.pcb k.start).pid ≠ pid))
  | .killPid _ | .exit | .changeProcessState _ | .block | .wake _ => inferInstanceAs (Decidable True)

theorem Steady.clean (h : Steady k act) : CleanFirst k act := by
  cases act with
  | create c => exact fun hstart ↦ absurd hstart h
  | _ => exact trivial

theorem Steady.headStays (h : Steady k act) : HeadStays k act := by
  cases act with
  | switchProcess sp =>
    intro L hL
    obtain ⟨hstart, hheld⟩ := h
    have hmem : k.start ∈ L := by
      cases L with
      | nil => exact absurd hL.path hstart
      | cons a L => exact hL.path.1 ▸ List.mem_cons_self
    split
    · exact List.ne_nil_of_mem hmem
    · exact ⟨k.start, hmem, Or.inl hheld⟩
  | changeProcessPriority pid v => exact fun _ _ _ _ ↦ h
  | _ => exact trivial

end Perform

def behindShell : List Act := moveAndKill ++ [.switchProcess 0x7200]

theorem null_free_behind_shell : ∃ tr k, Run Step booted tr k ∧ tr.map Prod.snd = behindShell ∧
    ∀ e ∈ tr, NullSafe e.1 e.2 := by
  have hsome : (behindShell.foldlM (fun k act ↦ if Steady k act then perform 8 k act else none)
      booted).isSome := by decide +kernel
  obtain ⟨k, hk⟩ := Option.isSome_iff_exists.mp hsome
  obtain ⟨tr, hrun, hacts, hsteady⟩ := run_of_checked hk
  have hrun := hrun.mono fun _ _ _ h ↦ step_perform h
  exact ⟨tr, k, hrun, hacts, (null_free main_smallBoot hrun fun e he ↦ (hsteady e he).clean).1.mpr
    fun e he ↦ (hsteady e he).headStays⟩

def shellExits : List Act := [.switchProcess 7, .exit]

theorem shellExits_isSome : (shellExits.foldlM (perform 8) booted).isSome := by decide +kernel

def shellGone : Kernel := (shellExits.foldlM (perform 8) booted).get shellExits_isSome

theorem shellGone_run : ∃ tr, Run Step booted tr shellGone ∧
    ∀ e ∈ tr, CleanFirst e.1 e.2 := by
  obtain ⟨tr, hrun, hacts⟩ := run_of_foldlM (Option.some_get shellExits_isSome).symm
  refine ⟨tr, hrun.mono (fun _ _ _ h ↦ step_perform h), fun e he ↦ ?_⟩
  have hall : ∀ act ∈ shellExits, ∀ k, CleanFirst k act := by simp [shellExits, CleanFirst]
  exact hall e.2 (hacts ▸ List.mem_map_of_mem he) e.1

/-- With the shell gone the list is empty, and the next call reads the state of
the process that it has not found. -/
theorem empty_list_read : ¬ ∀ n b k₀ tr k, main n b = some k₀ → Run Step k₀ tr k →
    (∀ e ∈ tr, CleanFirst e.1 e.2) → ∀ act, NullSafe k act := by
  intro hall
  obtain ⟨tr, hrun, hclean⟩ := shellGone_run
  have hread : 0 ∈ switchReads 8 shellGone 7 := by decide +kernel
  exact hall 1 smallBoot booted tr shellGone main_smallBoot hrun hclean (.switchProcess 7) 8 hread

end ShellOS.Sched.NullReads
