import Mathlib.Data.List.Rotate
import ShellOS.Sched.Selection

namespace ShellOS.Sched.RoundRobin

open Library.FirstMin Library.Fuel Library.Links Scheduler ProcessList SwitchSpec Selection
open SchedulerRun Function

/-- The shell cannot run, and behind it all processes are ready and of one
priority. -/
structure Peers (k : Kernel) (s : ℕ) (xs : List ℕ) (p : ℕ) : Prop where
  listed : Listed k (s :: xs)
  first : k.firstProcess = 0
  quantum : k.quantum = 0
  shell : (k.pcb s).pid = 1
  not_runnable : (k.pcb s).pstate ≠ 1 ∨ k.fgTaken ≠ 0
  pids : (xs.map fun y ↦ (k.pcb y).pid).Nodup
  above : ∀ y ∈ xs, 1 < (k.pcb y).pid
  ready : ∀ y ∈ xs, (k.pcb y).pstate = 1
  priority : ∀ y ∈ xs, (k.pcb y).priority = p

/-- From the process that runs on, in cyclic order, no priority on loan is
below one before it. -/
structure Turn (k : Kernel) (xs F N : List ℕ) (p : ℕ) : Prop where
  split : xs = F ++ k.currentProcess :: N
  sorted : (N ++ F).Pairwise fun y z ↦ auxOf k y ≤ auxOf k z
  le : ∀ y ∈ N ++ F, auxOf k y ≤ p
  current : auxOf k k.currentProcess = p

variable {k k' k₁ : Kernel} {xs F N : List ℕ} {s p sp n : ℕ}

theorem Peers.all_pids (h : Peers k s xs p) :
    ((s :: xs).map fun y ↦ (k.pcb y).pid).Nodup := by
  rw [List.map_cons, List.nodup_cons]
  refine ⟨fun hmem ↦ ?_, h.pids⟩
  obtain ⟨y, hy, hpid⟩ := List.mem_map.mp hmem
  have hlt := h.above y hy
  rw [hpid, h.shell] at hlt
  exact Nat.lt_irrefl 1 hlt

section Choice

variable (h : Peers k s xs p) (ht : Turn k xs F N p) (haged : AfterAging k k₁ (s :: xs)) {y : ℕ}

include h haged

theorem Peers.ready_saved (hy : y ∈ xs) (sp : ℕ) : readyOf (saveSp k₁ sp) y := by
  rw [saved_ready haged, readyOf, decide_eq_true_eq]
  exact h.ready y hy

theorem Peers.free_saved (hy : y ∈ xs) (sp : ℕ) : ¬ Held (saveSp k₁ sp) y := by
  rw [saved_held haged]
  exact fun hheld ↦ Nat.ne_of_gt (h.above y hy) hheld.1

include ht

theorem Turn.aged (sp : ℕ) :
    ((N ++ F).Pairwise fun y z ↦ auxOf (saveSp k₁ sp) y ≤ auxOf (saveSp k₁ sp) z) ∧
      (∀ y ∈ N ++ F, auxOf (saveSp k₁ sp) y ≤ p) ∧
      auxOf (saveSp k₁ sp) k.currentProcess = p := by
  have hmem : ∀ y ∈ N ++ F, y ∈ xs := by
    intro y hy
    rw [ht.split]
    rcases List.mem_append.mp hy with hy | hy
    · exact List.mem_append_right _ (List.mem_cons_of_mem _ hy)
    · exact List.mem_append_left _ hy
  have hother : ∀ y ∈ N ++ F, (k.pcb y).pid ≠ (k.pcb k.currentProcess).pid := by
    have hpids := h.pids
    rw [ht.split, List.map_append, List.map_cons, List.nodup_middle, List.nodup_cons] at hpids
    intro y hy heq
    apply hpids.1
    rw [← List.map_append, List.mem_map]
    rcases List.mem_append.mp hy with hy | hy
    · exact ⟨y, List.mem_append_right _ hy, heq⟩
    · exact ⟨y, List.mem_append_left _ hy, heq⟩
  have haux : ∀ y ∈ N ++ F, auxOf (saveSp k₁ sp) y =
      if k.priorityQuantum = 0 ∧ 1 < auxOf k y then auxOf k y - 1 else auxOf k y := by
    intro y hy
    have hages : Ages k y ↔ 1 < auxOf k y :=
      ⟨fun hage ↦ hage.1, fun hlt ↦ ⟨hlt, hother y hy, h.ready y (hmem y hy)⟩⟩
    rw [saved_aux, aged_aux haged (List.mem_cons_of_mem _ (hmem y hy)), agedAux]
    simp only [hages]
    rfl
  refine ⟨ht.sorted.imp_of_mem (fun hy hz hle ↦ ?_), fun y hy ↦ ?_, ?_⟩
  · rw [haux _ hy, haux _ hz]
    split_ifs <;> omega
  · have hle := ht.le y hy
    rw [haux y hy]
    split <;> omega
  · rw [saved_aux, current_aux haged]
    exact ht.current

theorem Turn.next_eq {q : ℕ} {N' : List ℕ} (hN : N = q :: N') (sp : ℕ) :
    nextResult (saveSp k₁ sp) N = q := by
  subst hN
  obtain ⟨hsorted, -, -⟩ := ht.aged h haged sp
  have hsorted := (List.pairwise_append.mp hsorted).1
  have hnext : (saveSp k₁ sp).next (saveSp k₁ sp).currentProcess = q := by
    rw [haged.saved_next, haged.saved_current]
    have hpath := h.listed.path
    rw [ht.split, ← List.cons_append] at hpath
    obtain ⟨b, -, hb, hq, -⟩ := path_append.mp hpath
    exact hb ▸ hq
  have hready := h.ready_saved haged (by rw [ht.split]; simp : q ∈ xs) sp
  rw [nextResult, hnext, nextStep_eq]
  refine foldl_better_first hready (fun a ha ↦ ?_)
  rcases List.mem_cons.mp ha with rfl | ha
  · exact le_rfl
  · exact (List.pairwise_cons.mp hsorted).1 a ha

theorem Turn.first_stays {q : ℕ} {R : List ℕ} (hF : F ++ [k.currentProcess] = q :: R) (sp : ℕ) :
    F.foldl (firstStep (saveSp k₁ sp)) q = q := by
  have hFxs : ∀ y ∈ F ++ [k.currentProcess], y ∈ xs := by
    intro y hy
    rw [ht.split, List.append_cons]
    exact List.mem_append_left _ hy
  have hqxs : q ∈ xs := hFxs q (by rw [hF]; exact List.mem_cons_self)
  obtain ⟨hsorted, -, -⟩ := ht.aged h haged sp
  rw [foldl_firstStep (fun y hy ↦ h.free_saved haged (hFxs y (List.mem_append_left _ hy)) sp)]
  refine foldl_better'_first (h.ready_saved haged hqxs sp) (fun a ha ↦ ?_)
  cases F with
  | nil => cases ha
  | cons f F =>
    obtain rfl := (List.cons.inj hF).1
    rcases List.mem_cons.mp ha with rfl | ha
    · exact le_rfl
    · exact (List.pairwise_cons.mp (List.pairwise_append.mp hsorted).2.1).1 a ha

theorem Turn.first_eq {q : ℕ} {R : List ℕ} (hF : F ++ [k.currentProcess] = q :: R) (sp : ℕ) :
    adjustFirst (saveSp k₁ sp) (firstResult (saveSp k₁ sp) (s :: xs)) = q := by
  have hqxs : q ∈ xs := by
    rw [ht.split, List.append_cons, hF]
    simp
  have hready := h.ready_saved haged hqxs sp
  have hfree := h.free_saved haged hqxs sp
  have hstay := ht.first_stays h haged hF sp
  have hbefore : before (saveSp k₁ sp) (s :: xs) = s :: F := by
    have hsplit : s :: xs = (s :: F) ++ k.currentProcess :: N := congrArg (s :: ·) ht.split
    rw [saved_before haged]
    exact before_current hsplit h.all_pids
  have hstart : (saveSp k₁ sp).start = s := (haged.saved_listed h.listed sp).path.1
  rw [firstResult, hbefore, hstart, List.foldl_cons]
  by_cases hheld : Held (saveSp k₁ sp) s
  · have hnext : (saveSp k₁ sp).next s = q := by
      have hpath := h.listed.path.2
      rw [ht.split, List.append_cons, hF] at hpath
      rw [haged.saved_next]
      exact hpath.1
    have hshell : ((saveSp k₁ sp).pcb s).pid = 1 := (haged.saved_pid sp s).trans h.shell
    rw [firstStep_held hheld, if_pos hshell, hnext, hstay]
    exact adjustFirst_ready hready hfree
  · have hblocked : readyOf (saveSp k₁ sp) s = false := by
      rw [saved_ready haged, readyOf, decide_eq_false_iff_not]
      refine h.not_runnable.resolve_right (fun hfg ↦ hheld ?_)
      exact (saved_held haged sp s).mpr ⟨h.shell, hfg⟩
    have hself : firstStep (saveSp k₁ sp) s s = s := by
      rw [firstStep_eq hheld]
      simp [better', hblocked]
    rw [hself]
    cases F with
    | nil =>
      obtain rfl := (List.cons.inj hF).1
      have hcurrent := haged.saved_current sp
      rw [List.foldl_nil, ← hcurrent]
      refine adjustFirst_current hblocked ?_ ?_ ?_
      · rw [hcurrent]
        exact hready
      · rw [hcurrent, haged.saved_pid]
        exact Nat.ne_of_gt (Nat.zero_lt_of_lt (h.above _ hqxs))
      · rw [hcurrent]
        exact hfree
    | cons f F =>
      obtain rfl := (List.cons.inj hF).1
      have htake : firstStep (saveSp k₁ sp) s f = f := by
        rw [firstStep_eq hfree]
        simp [better', hblocked]
      have hself : firstStep (saveSp k₁ sp) f f = f := by
        rw [firstStep_eq hfree]
        simp [better', hready]
      rw [List.foldl_cons, hself] at hstay
      rw [List.foldl_cons, htake, hstay]
      exact adjustFirst_ready hready hfree

theorem Turn.chosen_eq {q : ℕ} {R : List ℕ} (hQ : N ++ F ++ [k.currentProcess] = q :: R)
    (sp : ℕ) : chosen (saveSp k₁ sp) (s :: xs) N = some q := by
  obtain ⟨hsorted, hle, hcurrent⟩ := ht.aged h haged sp
  have hgood : ∀ y ∈ xs, ¬ (y = 0 ∨ ((saveSp k₁ sp).pcb y).pstate ≠ 1) := by
    intro y hy hbad
    rw [haged.saved_pstate] at hbad
    rcases hbad with rfl | hbad
    · exact h.listed.not_null (List.mem_cons_of_mem _ hy)
    · exact hbad (h.ready y hy)
  obtain ⟨f, R', hf⟩ : ∃ f R', F ++ [k.currentProcess] = f :: R' :=
    List.exists_cons_of_ne_nil (by simp)
  have hfirst := ht.first_eq h haged hf sp
  have hfxs : f ∈ xs := by
    rw [ht.split, List.append_cons, hf]
    simp
  cases N with
  | nil =>
    obtain rfl := (List.cons.inj (hf.symm.trans hQ)).1
    have hnext : nextResult (saveSp k₁ sp) [] = 0 := by
      have hpath := h.listed.path
      rw [ht.split, ← List.cons_append] at hpath
      obtain ⟨b, -, hb, hend⟩ := path_append.mp hpath
      rw [nextResult, List.foldl_nil, haged.saved_next, haged.saved_current]
      exact hb ▸ hend
    rw [chosen, hnext, hfirst, choose, if_neg (fun hbad ↦ hgood f hfxs hbad.2), if_pos (Or.inl rfl)]
  | cons m N =>
    obtain rfl := (List.cons.inj hQ).1
    have hmxs : m ∈ xs := by
      rw [ht.split]
      simp
    have hmf : auxOf (saveSp k₁ sp) m ≤ auxOf (saveSp k₁ sp) f := by
      cases F with
      | nil =>
        obtain rfl := (List.cons.inj hf).1
        rw [hcurrent]
        exact hle m List.mem_cons_self
      | cons g F =>
        obtain rfl := (List.cons.inj hf).1
        exact (List.pairwise_cons.mp hsorted).1 g (by simp)
    rw [chosen, ht.next_eq h haged rfl sp, hfirst, choose, if_neg (fun hbad ↦ hgood m hmxs hbad.1),
      if_neg (hgood m hmxs), if_neg (hgood f hfxs)]
    exact if_neg (Nat.not_lt.mpr hmf)

end Choice

theorem Peers.switched (h : Peers k s xs p) (hs : Switched k k' (s :: xs)) : Peers k' s xs p := by
  have hpcb : ∀ y, (k'.pcb y).pid = (k.pcb y).pid ∧ (k'.pcb y).pstate = (k.pcb y).pstate ∧
      (k'.pcb y).priority = (k.pcb y).priority := by
    intro y
    obtain ⟨aux, sp, hpcb, -⟩ := hs.pcb y
    rw [hpcb]
    exact ⟨rfl, rfl, rfl⟩
  refine ⟨⟨?_, h.listed.not_null, h.listed.nodup⟩, hs.firstProcess, hs.quantum, ?_, ?_, ?_,
    fun y hy ↦ ?_, fun y hy ↦ ?_, fun y hy ↦ ?_⟩
  · rw [hs.next, hs.start]
    exact h.listed.path
  · rw [(hpcb s).1]
    exact h.shell
  · rw [(hpcb s).2.1, hs.fgTaken]
    exact h.not_runnable
  · rw [List.map_congr_left (fun y _ ↦ (hpcb y).1)]
    exact h.pids
  · rw [(hpcb y).1]
    exact h.above y hy
  · rw [(hpcb y).2.1]
    exact h.ready y hy
  · rw [(hpcb y).2.2]
    exact h.priority y hy

theorem Turn.perm (ht : Turn k xs F N p) : (N ++ F ++ [k.currentProcess]).Perm xs := by
  rw [ht.split, List.append_assoc]
  refine List.perm_append_comm.trans ?_
  rw [List.append_assoc, List.singleton_append]

theorem Turn.next_split (ht : Turn k xs F N p) {q : ℕ} {R : List ℕ}
    (hQ : N ++ F ++ [k.currentProcess] = q :: R) : ∃ F' N', xs = F' ++ q :: N' ∧ N' ++ F' = R := by
  cases N with
  | cons m N =>
    obtain ⟨rfl, hR⟩ := List.cons.inj hQ
    refine ⟨F ++ [k.currentProcess], N, ?_, ?_⟩
    · rw [ht.split, List.append_assoc, List.singleton_append]
    · exact (List.append_assoc N F _).symm.trans hR
  | nil =>
    cases F with
    | cons f F =>
      obtain ⟨rfl, hR⟩ := List.cons.inj hQ
      exact ⟨[], F ++ [k.currentProcess], ht.split, by rw [List.append_nil]; exact hR⟩
    | nil =>
      obtain ⟨rfl, hR⟩ := List.cons.inj hQ
      exact ⟨[], [], ht.split, hR⟩

theorem Turn.selected (h : Peers k s xs p) (ht : Turn k xs F N p)
    (haged : AfterAging k k₁ (s :: xs)) {q : ℕ} {R : List ℕ}
    (hQ : N ++ F ++ [k.currentProcess] = q :: R) (sp : ℕ) :
    ∃ F' N', Turn (select (saveSp k₁ sp) (some q)).1 xs F' N' p ∧ N' ++ F' = R := by
  obtain ⟨hsorted, hle, hcurrent⟩ := ht.aged h haged sp
  obtain ⟨F', N', hsplit, hR⟩ := ht.next_split hQ
  have hall : (q :: R).Pairwise fun y z ↦ auxOf (saveSp k₁ sp) y ≤ auxOf (saveSp k₁ sp) z := by
    rw [← hQ, List.pairwise_append]
    refine ⟨hsorted, List.pairwise_singleton _ _, fun y hy z hz ↦ ?_⟩
    rw [List.mem_singleton.mp hz, hcurrent]
    exact hle y hy
  have hallle : ∀ y ∈ q :: R, auxOf (saveSp k₁ sp) y ≤ p := by
    rw [← hQ]
    intro y hy
    rcases List.mem_append.mp hy with hy | hy
    · exact hle y hy
    · rw [List.mem_singleton.mp hy, hcurrent]
  have hnd : (q :: R).Nodup := by
    rw [← hQ, ht.perm.nodup_iff]
    exact (List.nodup_cons.mp h.listed.nodup).2
  have haux : ∀ y ∈ R, auxOf (select (saveSp k₁ sp) (some q)).1 y = auxOf (saveSp k₁ sp) y := by
    intro y hy
    rw [auxOf, select_pcb, if_neg]
    · rfl
    · rintro hyq
      exact (List.nodup_cons.mp hnd).1 (Option.some.inj hyq ▸ hy)
  refine ⟨F', N', ⟨hsplit, ?_, fun y hy ↦ ?_, ?_⟩, hR⟩
  · rw [hR]
    refine (List.pairwise_cons.mp hall).2.imp_of_mem (fun hy hz hle ↦ ?_)
    rw [haux _ hy, haux _ hz]
    exact hle
  · rw [hR] at hy
    rw [haux y hy]
    exact hallle y (List.mem_cons_of_mem _ hy)
  · have hqxs : q ∈ xs := hsplit ▸ List.mem_append_right _ List.mem_cons_self
    obtain ⟨aux, sp', hpcb, -⟩ := haged.saved sp q
    change auxOf (select (saveSp k₁ sp) (some q)).1 q = p
    rw [auxOf, select_pcb, if_pos rfl, hpcb]
    exact h.priority q hqxs

theorem turn_step (h : Peers k s xs p) (ht : Turn k xs F N p) {q : ℕ} {R : List ℕ}
    (hQ : N ++ F ++ [k.currentProcess] = q :: R) (sp : ℕ) :
    ∃ r, (∀ n, 2 * xs.length + 1 < n → switchProcess n k sp = some r) ∧
      r.1.currentProcess = q ∧ Peers r.1 s xs p ∧
      ∃ F' N', Turn r.1 xs F' N' p ∧ N' ++ F' = R := by
  have hpath := h.listed.path
  rw [ht.split, ← List.cons_append] at hpath
  obtain ⟨b, -, -, hN⟩ := path_append.mp hpath
  have hN0 : 0 ∉ N := fun h0 ↦ h.listed.not_null (by rw [ht.split]; simp [h0])
  obtain ⟨k₁, -, haged, hswitch⟩ := switchProcess_spec h.listed hN hN0 h.first h.quantum sp
  have hk : { k with quantum := 0 } = k := by rw [← h.quantum]
  rw [hk] at haged
  have hqL : q ∈ s :: xs := by
    refine List.mem_cons_of_mem s (ht.perm.mem_iff.mp ?_)
    rw [hQ]
    exact List.mem_cons_self
  have hswitched : Switched k (select (saveSp k₁ sp) (some q)).1 (s :: xs) :=
    AfterAging.switched haged h.first h.quantum (fun a ha ↦ Option.some.inj ha ▸ hqL)
  refine ⟨select (saveSp k₁ sp) (some q), fun n hn ↦ ?_, select_current,
    h.switched hswitched, ht.selected h haged hQ sp⟩
  rw [← ht.chosen_eq h haged hQ sp]
  apply hswitch
  have hlen : xs.length = F.length + (N.length + 1) := by
    rw [ht.split, List.length_append, List.length_cons]
  rw [List.length_cons]
  omega

/-- Calls of `switchProcess` with the given stack pointers, one after the
other. The result is the kernel and the processes they select. -/
def switches (n : ℕ) : Kernel → List ℕ → Option (Kernel × List ℕ)
  | k, [] => some (k, [])
  | k, sp :: sps =>
    (switchProcess n k sp).bind fun r ↦
      (switches n r.1 sps).map fun q ↦ (q.1, r.1.currentProcess :: q.2)

theorem turn_run (h : Peers k s xs p) (ht : Turn k xs F N p) (sps : List ℕ) :
    ∃ k' picked, (∀ n, 2 * xs.length + 1 < n → switches n k sps = some (k', picked)) ∧
      picked.length = sps.length ∧ ∀ i, i < sps.length → picked[i]? =
        (N ++ F ++ [k.currentProcess])[i % (N ++ F ++ [k.currentProcess]).length]? := by
  induction sps generalizing k F N with
  | nil => exact ⟨k, [], fun n _ ↦ rfl, rfl, fun i hi ↦ absurd hi (Nat.not_lt_zero i)⟩
  | cons sp sps ih =>
    obtain ⟨q, R, hQ⟩ : ∃ q R, N ++ F ++ [k.currentProcess] = q :: R :=
      List.exists_cons_of_ne_nil (by simp)
    obtain ⟨r, hswitch, hcurrent, hpeers, F', N', hturn, hR⟩ := turn_step h ht hQ sp
    obtain ⟨k', picked, hrest, hlen, hpicked⟩ := ih hpeers hturn
    refine ⟨k', q :: picked, fun n hn ↦ ?_, congrArg (· + 1) hlen, fun i hi ↦ ?_⟩
    · rw [switches, hswitch n hn, Option.bind_some, hrest n hn, Option.map_some, hcurrent]
    rw [hQ]
    cases i with
    | zero => rw [Nat.zero_mod]; rfl
    | succ i =>
      have hrotate : N' ++ F' ++ [r.1.currentProcess] = (q :: R).rotate 1 := by
        rw [hR, hcurrent, List.rotate_cons_succ, List.rotate_zero]
      have hpos : 0 < (q :: R).length := Nat.succ_pos _
      rw [List.getElem?_cons_succ, hpicked i (Nat.lt_of_succ_lt_succ hi), hrotate,
        List.length_rotate, List.getElem?_rotate (Nat.mod_lt i hpos), Nat.mod_add_mod]

theorem equal_turn {c : ℕ} (haux : ∀ y ∈ xs, (k.pcb y).auxPriority = p)
    (hc : xs[c]? = some k.currentProcess) :
    Turn k xs (xs.take c) (xs.drop (c + 1)) p ∧
      xs.drop (c + 1) ++ xs.take c ++ [k.currentProcess] = xs.rotate (c + 1) := by
  obtain ⟨hlt, hget⟩ := List.getElem?_eq_some_iff.mp hc
  have hmem : ∀ y ∈ xs.drop (c + 1) ++ xs.take c, auxOf k y = p := by
    intro y hy
    rcases List.mem_append.mp hy with hy | hy
    · exact haux y (List.mem_of_mem_drop hy)
    · exact haux y (List.mem_of_mem_take hy)
  refine ⟨⟨?_, ?_, fun y hy ↦ (hmem y hy).le, haux _ (hget ▸ List.getElem_mem hlt)⟩, ?_⟩
  · rw [← hget, ← List.drop_eq_getElem_cons hlt, List.take_append_drop]
  · refine List.pairwise_of_forall_mem_list (fun y hy z hz ↦ ?_)
    rw [hmem y hy, hmem z hz]
  · rw [List.rotate_eq_drop_append_take hlt, List.take_add_one, hc, List.append_assoc]
    rfl

/-- Calls of `switchProcess` select the processes behind a shell that cannot
run one after the other, in the order of the list, and each of them once in
every round. -/
theorem round_robin {c : ℕ} (h : Peers k s xs p) (haux : ∀ y ∈ xs, (k.pcb y).auxPriority = p)
    (hc : xs[c]? = some k.currentProcess) (sps : List ℕ) :
    ∃ k' picked, (∀ n, 2 * xs.length + 1 < n → switches n k sps = some (k', picked)) ∧
      picked.length = sps.length ∧
      (∀ i, i < sps.length → picked[i]? = xs[(c + 1 + i) % xs.length]?) ∧
      ∀ j, j + xs.length ≤ sps.length → ((picked.drop j).take xs.length).Perm xs := by
  obtain ⟨ht, hrotate⟩ := equal_turn haux hc
  obtain ⟨k', picked, hrun, hlen, hpicked⟩ := turn_run h ht sps
  have hpos : 0 < xs.length := Nat.zero_lt_of_lt (List.getElem?_eq_some_iff.mp hc).1
  have hcyclic : ∀ i, i < sps.length → picked[i]? = xs[(c + 1 + i) % xs.length]? := by
    intro i hi
    rw [hpicked i hi, hrotate, List.length_rotate, List.getElem?_rotate (Nat.mod_lt i hpos),
      Nat.mod_add_mod, Nat.add_comm]
  refine ⟨k', picked, hrun, hlen, hcyclic, fun j hj ↦ ?_⟩
  have hround : (picked.drop j).take xs.length = xs.rotate (c + 1 + j) := by
    refine List.ext_getElem? (fun i ↦ ?_)
    by_cases hi : i < xs.length
    · rw [List.getElem?_take_of_lt hi, List.getElem?_drop, hcyclic (j + i) (by omega),
        List.getElem?_rotate hi]
      congr 2
      omega
    · rw [List.getElem?_take_eq_none (Nat.not_lt.mp hi), List.getElem?_eq_none]
      rw [List.length_rotate]
      exact Nat.not_lt.mp hi
  rw [hround]
  exact List.rotate_perm xs _

def twoWorkers : List Act :=
  [.create (worker 3), .create (worker 4), .switchProcess 7, .block, .switchProcess 7]

theorem twoWorkers_isSome : (twoWorkers.foldlM (perform 8) booted).isSome := by decide +kernel

def working : Kernel := (twoWorkers.foldlM (perform 8) booted).get twoWorkers_isSome

theorem working_peers : Peers working 2 [3, 4] 3 ∧
    (∀ y ∈ [3, 4], (working.pcb y).auxPriority = 3) ∧ [3, 4][0]? = some working.currentProcess := by
  have hpath : working.start = 2 ∧ working.next 2 = 3 ∧ working.next 3 = 4 ∧
      working.next 4 = 0 := by decide +kernel
  refine ⟨⟨⟨hpath, by decide, by decide⟩, ?_, ?_, ?_, Or.inl ?_, ?_, ?_, ?_, ?_⟩, ?_, ?_⟩ <;>
    decide +kernel

theorem round_robin_two : ∃ k' picked, switches 6 working [7, 7, 7] = some (k', picked) ∧
    ∀ i, i < 3 → picked[i]? = [3, 4][(0 + 1 + i) % 2]? := by
  obtain ⟨hpeers, haux, hcurrent⟩ := working_peers
  obtain ⟨k', picked, hrun, -, hpicked, -⟩ := round_robin hpeers haux hcurrent [7, 7, 7]
  exact ⟨k', picked, hrun 6 (by decide), hpicked⟩

end ShellOS.Sched.RoundRobin
