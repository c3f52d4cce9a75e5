import ShellOS.Time.Timer

namespace ShellOS.Time.TimerSpec

open Library.Fuel Library.Links Function Timer

def remaining (k : Kernel) (Q : List ℕ) : List ℕ := Q.filter (fun a ↦ !due k a)

/-- What a tick is for: the entries that are due leave the queue and their
processes become ready, and the other entries stay as they are. -/
structure Handled (k k' : Kernel) (Q : List ℕ) : Prop where
  entries : SameEntries (tick k) k'
  queue : Queue k' (remaining (tick k) Q)
  pstate : k'.pstate = wokenBy (tick k) Q

/-- The head is not due and the handler never meets the pid of the entry it
stands on, or the head is due and dropping the whole queue is no loss. -/
def Orderly (k : Kernel) (Q : List ℕ) : Prop :=
  match Q with
  | [] => True
  | a :: rest =>
    if due (tick k) a then
      ∀ b ∈ rest, due (tick k) b = true ∧
        ((k.node b).process = (k.node a).process ∨ k.pstate (k.node b).process = 1)
    else ¬ Clash (tick k) Q

variable {k k' : Kernel} {Q rest kept : List ℕ} {a b prev : ℕ}

theorem wokenBy_nil : wokenBy k [] = k.pstate := by
  funext p
  simp [wokenBy]

theorem wokenBy_due (hb : due k b = true) (hk : SameEntries k k')
    (hp : k'.pstate = update k.pstate (k.node b).process 1) :
    wokenBy k' rest = wokenBy k (b :: rest) := by
  funext p
  have hproc : (fun a ↦ (k'.node a).process) = fun a ↦ (k.node a).process := funext hk.process
  simp only [wokenBy, hk.due_eq, hproc, hp, List.filter_cons_of_pos hb, List.map_cons,
    List.mem_cons]
  by_cases hpb : p = (k.node b).process
  · simp [hpb]
  · rw [update_of_ne hpb]
    simp only [hpb, false_or]

theorem wokenBy_not_due (hb : due k b = false) : wokenBy k (b :: rest) = wokenBy k rest := by
  funext p
  rw [wokenBy, List.filter_cons_of_neg (by simp [hb]), wokenBy]

theorem remaining_congr (hk : SameEntries k k') : remaining k' Q = remaining k Q := by
  rw [remaining, hk.due_eq, remaining]

theorem remaining_due (hb : due k b = true) : remaining k (b :: rest) = remaining k rest := by
  rw [remaining, List.filter_cons_of_neg (by simp [hb]), remaining]

theorem remaining_not_due (hb : due k b = false) :
    remaining k (b :: rest) = b :: remaining k rest := by
  rw [remaining, List.filter_cons_of_pos (by simp [hb]), remaining]

theorem handlerLoop_spec (hpath : Path k.next k.start (kept ++ prev :: rest) 0)
    (hnull : 0 ∉ rest) (hnd : (kept ++ prev :: rest).Nodup) (hprev : due k prev = false) :
    ∃ k', (∀ n, rest.length < n → handlerLoop n k (k.next prev) prev = some k') ∧
      SameEntries k k' ∧
      (¬ Clash k (prev :: rest) ∧
          Path k'.next k'.start (kept ++ prev :: remaining k rest) 0 ∧
          k'.pstate = wokenBy k rest ∨
        Clash k (prev :: rest) ∧ k'.start = 0) := by
  induction rest generalizing k kept prev with
  | nil =>
    obtain ⟨c, -, -, hnext⟩ := path_append.mp hpath
    refine ⟨k, fun n hn ↦ ?_, .refl k, Or.inl ⟨clash_singleton, hpath, wokenBy_nil.symm⟩⟩
    obtain ⟨n, rfl⟩ : ∃ i, n = i + 1 := ⟨n - 1, by omega⟩
    exact if_pos hnext
  | cons b rest ih =>
    obtain ⟨c, -, -, hnext, -⟩ := path_append.mp hpath
    have hb0 : b ≠ 0 := fun h ↦ hnull (h ▸ List.mem_cons_self)
    have hnull' : 0 ∉ rest := fun h ↦ hnull (List.mem_cons_of_mem _ h)
    cases hb : due k b with
    | false =>
      have hpath' : Path k.next k.start ((kept ++ [prev]) ++ b :: rest) 0 := by simpa using hpath
      obtain ⟨k', hloop, hk, hres⟩ := ih hpath' hnull' (by simpa using hnd) hb
      refine ⟨k', fun n hn ↦ ?_, hk, ?_⟩
      · obtain ⟨n, rfl⟩ : ∃ i, n = i + 1 := ⟨n - 1, by omega⟩
        rw [handlerLoop, hnext, if_neg hb0, hb, if_neg Bool.false_ne_true]
        exact hloop n (by simpa using hn)
      · rw [clash_not_due hb, remaining_not_due hb, wokenBy_not_due hb]
        simpa using hres
    | true =>
      by_cases hpid : k.pid (k.node b).process = k.pid (k.node prev).process
      · refine ⟨{ k.setState (k.node b).process 1 with start := 0 }, fun n hn ↦ ?_,
          ⟨fun _ ↦ rfl, fun _ ↦ rfl, fun _ ↦ rfl, rfl, rfl⟩,
          Or.inr ⟨(clash_due hprev hb).mpr (Or.inl hpid), rfl⟩⟩
        obtain ⟨n, rfl⟩ : ∃ i, n = i + 1 := ⟨n - 1, by omega⟩
        rw [handlerLoop, hnext, if_neg hb0, if_pos hb]
        exact if_pos hpid
      · let k₁ := (k.setState (k.node b).process 1).setNext prev (k.next b)
        have hk₁ : SameEntries k k₁ := (SameEntries.setState k _ 1).trans (.setNext _ prev _)
        have hnext₁ : k₁.next = update k.next prev (k.next b) := next_setNext _ prev _
        have hnotin : ∀ x ∈ kept ++ rest, x ≠ prev := by
          rintro x hx rfl
          apply (List.nodup_middle.mp hnd).notMem
          rcases List.mem_append.mp hx with hx | hx <;> simp [hx]
        have hpath₁ : Path k₁.next k₁.start (kept ++ prev :: rest) 0 := by
          rw [hnext₁]
          exact hpath.remove (update_self ..) (fun x hx ↦ update_of_ne (hnotin x hx) _ _)
        have hnd₁ : (kept ++ prev :: rest).Nodup :=
          hnd.sublist (by simp)
        have hprev₁ : due k₁ prev = false := by rw [hk₁.due_eq, hprev]
        obtain ⟨k', hloop, hk, hres⟩ := ih hpath₁ hnull' hnd₁ hprev₁
        refine ⟨k', fun n hn ↦ ?_, hk₁.trans hk, ?_⟩
        · obtain ⟨n, rfl⟩ : ∃ i, n = i + 1 := ⟨n - 1, by omega⟩
          rw [handlerLoop, hnext, if_neg hb0, if_pos hb]
          refine (if_neg hpid).trans ?_
          exact hloop n (by simpa using hn)
        · rw [hk₁.clash_iff, remaining_congr hk₁, wokenBy_due hb hk₁ rfl] at hres
          rw [clash_due hprev hb, or_iff_right hpid, remaining_due hb]
          exact hres

theorem handled_dropped_iff (hk : SameEntries (tick k) k') (hstart : k'.start = 0)
    (hp : k'.pstate = update k.pstate (k.node a).process 1) :
    Handled k k' (a :: rest) ↔ due (tick k) a = true ∧ ∀ b ∈ rest, due (tick k) b = true ∧
      ((k.node b).process = (k.node a).process ∨ k.pstate (k.node b).process = 1) := by
  have hempty : Queue k' [] := queue_nil hstart
  constructor
  · intro h
    have hrem : remaining (tick k) (a :: rest) = [] := h.queue.unique hempty
    have hdue : ∀ b ∈ a :: rest, due (tick k) b = true := by
      simpa [remaining, List.filter_eq_nil_iff] using hrem
    refine ⟨hdue a List.mem_cons_self, fun b hb ↦ ⟨hdue b (List.mem_cons_of_mem _ hb), ?_⟩⟩
    have hready := congrFun h.pstate (k.node b).process
    have hwoken : wokenBy (tick k) (a :: rest) (k.node b).process = 1 := by
      refine if_pos (List.mem_map_of_mem (f := fun x ↦ (k.node x).process) ?_)
      rw [List.mem_filter]
      exact ⟨List.mem_cons_of_mem _ hb, hdue b (List.mem_cons_of_mem _ hb)⟩
    rw [hwoken, hp] at hready
    by_cases hproc : (k.node b).process = (k.node a).process
    · exact Or.inl hproc
    · rw [update_of_ne hproc] at hready
      exact Or.inr hready
  · rintro ⟨ha, hrest⟩
    have hdue : ∀ b ∈ a :: rest, due (tick k) b = true := by
      intro b hb
      rcases List.mem_cons.mp hb with rfl | hb
      · exact ha
      · exact (hrest b hb).1
    have hrem : remaining (tick k) (a :: rest) = [] := by
      simpa [remaining, List.filter_eq_nil_iff] using hdue
    refine ⟨hk, hrem ▸ hempty, ?_⟩
    funext q
    have hfilter : (a :: rest).filter (due (tick k)) = a :: rest := List.filter_eq_self.mpr hdue
    rw [hp, wokenBy, hfilter]
    by_cases hqa : q = (k.node a).process
    · rw [hqa, update_self, if_pos]
      exact List.mem_cons_self
    · rw [update_of_ne hqa]
      split
      · rename_i hq
        obtain ⟨b, hb, rfl⟩ := List.mem_map.mp hq
        rcases List.mem_cons.mp hb with rfl | hb
        · exact absurd rfl hqa
        · exact ((hrest b hb).2.resolve_left hqa)
      · rfl

theorem timerHandler_spec (h : Queue k Q) :
    ∃ k', (∀ n, Q.length < n → timerHandler n k = some k') ∧ SameEntries (tick k) k' ∧
      (∃ Q', Queue k' Q') ∧ (Handled k k' Q ↔ Orderly k Q) := by
  cases Q with
  | nil =>
    have hstart : k.start = 0 := h.path
    have hempty : Queue (tick k) [] := queue_nil hstart
    refine ⟨tick k, fun n hn ↦ ?_, .refl _, ⟨[], hempty⟩, ⟨fun _ ↦ trivial, fun _ ↦ ?_⟩⟩
    · obtain ⟨n, rfl⟩ : ∃ i, n = i + 1 := ⟨n - 1, by omega⟩
      exact if_pos hstart
    · exact ⟨.refl _, hempty, wokenBy_nil.symm⟩
  | cons a rest =>
    obtain ⟨hstart, hrest⟩ := h.path
    have ha0 : a ≠ 0 := fun h' ↦ h.not_null (h' ▸ List.mem_cons_self)
    cases ha : due (tick k) a with
    | true =>
      have hk : SameEntries (tick k) { (tick k).setState (k.node a).process 1 with start := 0 } :=
        ⟨fun _ ↦ rfl, fun _ ↦ rfl, fun _ ↦ rfl, rfl, rfl⟩
      refine ⟨_, fun n hn ↦ ?_, hk, ⟨[], queue_nil rfl⟩, ?_⟩
      · obtain ⟨n, rfl⟩ : ∃ i, n = i + 1 := ⟨n - 1, by omega⟩
        rw [timerHandler, hstart, handlerLoop, if_neg ha0, if_pos ha]
        exact if_pos rfl
      · rw [handled_dropped_iff hk rfl rfl]
        simp only [Orderly, ha, if_true, true_and]
    | false =>
      have hpath : Path (tick k).next (tick k).start ([] ++ a :: rest) 0 := h.path
      have hnull : 0 ∉ rest := fun h' ↦ h.not_null (List.mem_cons_of_mem _ h')
      obtain ⟨k', hloop, hk, hres⟩ := handlerLoop_spec hpath hnull h.nodup ha
      have hrem : remaining (tick k) (a :: rest) = a :: remaining (tick k) rest :=
        remaining_not_due ha
      refine ⟨k', fun n hn ↦ ?_, hk, ?_, ?_⟩
      · obtain ⟨n, rfl⟩ : ∃ i, n = i + 1 := ⟨n - 1, by omega⟩
        rw [timerHandler, hstart, handlerLoop, if_neg ha0, ha, if_neg Bool.false_ne_true]
        exact hloop n (by simpa using hn)
      · rcases hres with ⟨-, hp, -⟩ | ⟨-, hdrop⟩
        · exact ⟨_, h.shorter hp (List.Sublist.cons_cons a List.filter_sublist)⟩
        · exact ⟨[], queue_nil hdrop⟩
      · simp only [Orderly, ha, Bool.false_eq_true, if_false]
        rcases hres with ⟨hclash, hp, hstate⟩ | ⟨hclash, hdrop⟩
        · refine ⟨fun _ ↦ hclash, fun _ ↦ ⟨hk, ?_, ?_⟩⟩
          · rw [hrem]
            exact h.shorter hp (List.Sublist.cons_cons a List.filter_sublist)
          · rw [hstate, wokenBy_not_due ha]
        · refine ⟨fun hh ↦ ?_, fun hno ↦ absurd hclash hno⟩
          have hq := hh.queue.path
          rw [hrem, hdrop] at hq
          exact absurd hq.1.symm ha0

end ShellOS.Time.TimerSpec
