import ShellOS.Library.StableInsert
import ShellOS.Sched.Scheduler

namespace ShellOS.Sched.ProcessList

open Library.Fuel Library.Links Library.StableInsert Library.Words Scheduler Function

structure Listed (k : Kernel) (L : List ℕ) : Prop where
  path : Path k.next k.start L 0
  not_null : 0 ∉ L
  nodup : L.Nodup

variable {k k' : Kernel} {L L₁ L₂ T : List ℕ} {a b x pid n : ℕ} {c : Create}

theorem Listed.unique {L' : List ℕ} (h : Listed k L) (h' : Listed k L') : L = L' :=
  h.path.unique h'.path h.not_null h'.not_null

theorem Listed.next_cases (h : Listed k L) (ha : a ∈ L) :
    k.next a = 0 ∨ k.next a ∈ L ∧ k.next a ≠ a := by
  obtain ⟨F, N, rfl⟩ := List.append_of_mem ha
  obtain ⟨b, -, rfl, hN⟩ := path_append.mp h.path
  cases N with
  | nil => exact Or.inl hN
  | cons y N =>
    obtain ⟨hy, -⟩ := hN
    have haN := (List.nodup_cons.mp (List.nodup_append.mp h.nodup).2.1).1
    refine Or.inr ⟨?_, ?_⟩
    · rw [hy]
      simp
    · rw [hy]
      exact fun heq ↦ haN (heq ▸ List.mem_cons_self)

def priorityOf (k : Kernel) (a : ℕ) : ℕ := (k.pcb a).priority

section Delete

theorem deleteProcess_absent (h : Path k.next a L 0) (h0 : 0 ∉ L)
    (hpid : ∀ y ∈ L, (k.pcb y).pid ≠ pid) (hn : L.length < n) :
    deleteProcess pid n k a = some (k, a) := by
  induction L generalizing a n with
  | nil =>
    cases h
    obtain ⟨n, rfl⟩ : ∃ i, n = i + 1 := ⟨n - 1, by omega⟩
    rw [deleteProcess, if_pos rfl]
  | cons y L ih =>
    obtain ⟨rfl, h⟩ := h
    obtain ⟨n, rfl⟩ : ∃ i, n = i + 1 := ⟨n - 1, by omega⟩
    have hy := (List.ne_of_not_mem_cons h0).symm
    have hrest := ih h (List.not_mem_of_not_mem_cons h0)
      (fun z hz ↦ hpid z (List.mem_cons_of_mem _ hz)) (by simpa using hn)
    rw [deleteProcess, if_neg hy, if_neg (hpid _ List.mem_cons_self), hrest, Option.map_some,
      setNext_self]

theorem deleteProcess_found (h : Path k.next a (L₁ ++ x :: L₂) 0) (h0 : 0 ∉ L₁ ++ x :: L₂)
    (hnd : (L₁ ++ x :: L₂).Nodup) (hpid : ∀ y ∈ L₁, (k.pcb y).pid ≠ pid)
    (hx : (k.pcb x).pid = pid) :
    ∃ k' b, (∀ n, L₁.length < n → deleteProcess pid n k a = some (k', b)) ∧
      Path k'.next b (L₁ ++ L₂) 0 ∧ (∀ y, y ∉ L₁ → k'.next y = k.next y) ∧
      k'.pcb = update k.pcb x { k.pcb x with pstate := 2 } ∧ SameFields k k' := by
  induction L₁ generalizing a with
  | nil =>
    obtain ⟨rfl, h⟩ := h
    have ha : a ≠ 0 := (List.ne_of_not_mem_cons h0).symm
    refine ⟨k.setPcb a { k.pcb a with pstate := 2 }, k.next a, fun n hn ↦ ?_, by simpa using h,
      fun y _ ↦ by rw [next_setPcb], by rw [pcb_setPcb], .setPcb _ _ _⟩
    obtain ⟨n, rfl⟩ : ∃ i, n = i + 1 := ⟨n - 1, by omega⟩
    rw [deleteProcess, if_neg ha, if_pos hx]
  | cons y L₁ ih =>
    obtain ⟨rfl, h⟩ := h
    have ha : a ≠ 0 := (List.ne_of_not_mem_cons h0).symm
    obtain ⟨hmem, hnd⟩ := List.nodup_cons.mp hnd
    obtain ⟨k', b, hdel, hpath, hnext, hpcb, hfields⟩ := ih h (List.not_mem_of_not_mem_cons h0) hnd
      (fun z hz ↦ hpid z (List.mem_cons_of_mem _ hz))
    refine ⟨k'.setNext a b, a, fun n hn ↦ ?_, ⟨rfl, ?_⟩, fun z hz ↦ ?_, by rw [pcb_setNext, hpcb],
      hfields.trans (.setNext _ _ _)⟩
    · obtain ⟨n, rfl⟩ : ∃ i, n = i + 1 := ⟨n - 1, by omega⟩
      rw [deleteProcess, if_neg ha, if_neg (hpid _ List.mem_cons_self),
        hdel n (by simpa using hn), Option.map_some]
    · rw [next_setNext, update_self]
      refine hpath.congr (fun z hz ↦ update_of_ne ?_ _ _)
      rintro rfl
      apply hmem
      rcases List.mem_append.mp hz with hz | hz <;> simp [hz]
    · rw [next_setNext, update_of_ne (List.ne_of_not_mem_cons hz)]
      exact hnext z (List.not_mem_of_not_mem_cons hz)

structure Removed (k k' : Kernel) (L : List ℕ) (pid : ℕ) : Prop where
  listed : Listed k' (L.filter fun y ↦ (k.pcb y).pid ≠ pid)
  next : ∀ y, y ∉ L ∨ (k.pcb y).pid = pid → k'.next y = k.next y
  pcb : ∀ y, k'.pcb y =
    if y ∈ L ∧ (k.pcb y).pid = pid then { k.pcb y with pstate := 2 } else k.pcb y
  fields : SameFields k k'

theorem Removed.pid_eq (hr : Removed k k' L pid) (y : ℕ) : (k'.pcb y).pid = (k.pcb y).pid := by
  rw [hr.pcb]
  split <;> rfl

theorem mem_removed : x ∈ L.filter (fun y ↦ (k.pcb y).pid ≠ pid) ↔
    x ∈ L ∧ (k.pcb x).pid ≠ pid := by simp

theorem deleteProcess_spec (h : Listed k L) (hpids : (L.map fun y ↦ (k.pcb y).pid).Nodup)
    (pid : ℕ) :
    ∃ r, (∀ n, L.length < n → deleteProcess pid n k k.start = some r) ∧
      Removed k { r.1 with start := r.2 } L pid := by
  by_cases hpid : ∀ y ∈ L, (k.pcb y).pid ≠ pid
  · refine ⟨(k, k.start), fun n hn ↦ deleteProcess_absent h.path h.not_null hpid hn, ?_⟩
    have hall : L.filter (fun y ↦ (k.pcb y).pid ≠ pid) = L :=
      List.filter_eq_self.mpr (fun y hy ↦ by simpa using hpid y hy)
    refine ⟨hall.symm ▸ h, fun y _ ↦ rfl, fun y ↦ ?_, rfl⟩
    rw [if_neg (fun hy ↦ hpid y hy.1 hy.2)]
  · obtain ⟨x, hxL, hx⟩ : ∃ x ∈ L, (k.pcb x).pid = pid := by simpa using hpid
    obtain ⟨L₁, L₂, rfl⟩ := List.append_of_mem hxL
    rw [List.map_append, List.map_cons, List.nodup_middle, List.nodup_cons, List.mem_append,
      List.mem_map, List.mem_map, hx] at hpids
    have hne₁ : ∀ y ∈ L₁, (k.pcb y).pid ≠ pid := fun y hy heq ↦ hpids.1 (Or.inl ⟨y, hy, heq⟩)
    have hne₂ : ∀ y ∈ L₂, (k.pcb y).pid ≠ pid := fun y hy heq ↦ hpids.1 (Or.inr ⟨y, hy, heq⟩)
    obtain ⟨k', b, hdel, hpath, hnext, hpcb, hfields⟩ :=
      deleteProcess_found h.path h.not_null h.nodup hne₁ hx
    have hfilter : (L₁ ++ x :: L₂).filter (fun y ↦ (k.pcb y).pid ≠ pid) = L₁ ++ L₂ := by
      rw [List.filter_append, List.filter_cons_of_neg (by simpa using hx),
        List.filter_eq_self.mpr (fun y hy ↦ by simpa using hne₁ y hy),
        List.filter_eq_self.mpr (fun y hy ↦ by simpa using hne₂ y hy)]
    refine ⟨(k', b), fun n hn ↦ hdel n ?_, ?_⟩
    · rw [List.length_append, List.length_cons] at hn
      omega
    refine ⟨⟨hfilter.symm ▸ hpath, fun h0 ↦ h.not_null (List.mem_of_mem_filter h0),
      h.nodup.filter _⟩, fun y hy ↦ hnext y ?_, fun y ↦ ?_, hfields.trans rfl⟩
    · intro hy₁
      rcases hy with hy | hy
      · exact hy (List.mem_append_left _ hy₁)
      · exact hne₁ y hy₁ hy
    · change k'.pcb y = _
      rw [hpcb]
      by_cases hyx : y = x
      · rw [hyx, update_self, if_pos ⟨hxL, hx⟩]
      · rw [update_of_ne hyx, if_neg]
        rintro ⟨hy, hpid⟩
        rcases List.mem_append.mp hy with hy | hy
        · exact hne₁ y hy hpid
        · exact hne₂ y ((List.mem_cons.mp hy).resolve_left hyx) hpid

end Delete

section Load

def linkAfter (k : Kernel) (a x : ℕ) : Kernel := (k.setNext x (k.next a)).setNext a x

theorem linkAfter_path (h : Path k.next a (a :: T) 0) (hnd : (a :: T).Nodup) (hx : x ∉ a :: T) :
    Path (linkAfter k a x).next a (a :: x :: T) 0 ∧
      ∀ y, y ≠ a → y ≠ x → (linkAfter k a x).next y = k.next y := by
  have hxa : x ≠ a := List.ne_of_not_mem_cons hx
  have hnext : (linkAfter k a x).next = update (update k.next x (k.next a)) a x := by
    simp [linkAfter]
  have hother : ∀ y, y ≠ a → y ≠ x → (linkAfter k a x).next y = k.next y :=
    fun y hya hyx ↦ by rw [hnext, update_of_ne hya, update_of_ne hyx]
  refine ⟨⟨rfl, ?_, ?_⟩, hother⟩
  · rw [hnext, update_self]
  · rw [hnext, update_of_ne hxa, update_self, ← hnext]
    refine h.2.congr (fun y hy ↦ hother y ?_ ?_)
    · exact ne_of_mem_of_not_mem hy (List.nodup_cons.mp hnd).1
    · exact ne_of_mem_of_not_mem hy (List.not_mem_of_not_mem_cons hx)

structure Loaded (c : Create) (pid : ℕ) (k k' : Kernel) (a : ℕ) (T T' : List ℕ) : Prop where
  path : Path k'.next a (a :: T') 0
  next : ∀ y, y ∉ c.newNode :: a :: T → k'.next y = k.next y
  pcb : k'.pcb = update k.pcb c.newNode (newPcb c pid (k.pcb c.newNode))
  fields : SameFields k k'

theorem loadProcess_here (pid : ℕ) (h : Path k.next a (a :: T) 0) (ha : a ≠ 0) (hnd : (a :: T).Nodup)
    (hnew : c.newNode ∉ a :: T)
    (hstop : ¬ (k.next a ≠ 0 ∧ (k.pcb (k.next a)).priority ≤ c.priority)) :
    ∃ k', (∀ n, 0 < n → loadProcess c pid n k a = some (k', a)) ∧
      Loaded c pid k k' a T (c.newNode :: T) := by
  obtain ⟨hpath, hnext⟩ := linkAfter_path h hnd hnew
  refine ⟨writeProcess (linkAfter k a c.newNode) c pid, fun n hn ↦ ?_, ?_, fun y hy ↦ ?_, ?_, rfl⟩
  · obtain ⟨n, rfl⟩ : ∃ i, n = i + 1 := ⟨n - 1, by omega⟩
    rw [loadProcess, if_neg ha, if_neg hstop]
    rfl
  · rw [writeProcess, next_setPcb]
    exact hpath
  · rw [writeProcess, next_setPcb]
    exact hnext y (List.ne_of_not_mem_cons (List.not_mem_of_not_mem_cons hy))
      (List.ne_of_not_mem_cons hy)
  · simp [writeProcess, linkAfter]

/-- The new node goes behind the processes of no lower priority, though never
to the head. -/
theorem loadProcess_walk (pid : ℕ) (h : Path k.next a (a :: T) 0) (h0 : 0 ∉ a :: T)
    (hnd : (a :: T).Nodup) (hnew : c.newNode ∉ a :: T) :
    ∃ k', (∀ n, T.length < n → loadProcess c pid n k a = some (k', a)) ∧
      Loaded c pid k k' a T (insertBehind (priorityOf k) c.priority c.newNode T) := by
  have ha : a ≠ 0 := (List.ne_of_not_mem_cons h0).symm
  induction T generalizing a with
  | nil =>
    have hnext : k.next a = 0 := h.2
    obtain ⟨k', hload, hloaded⟩ := loadProcess_here pid h ha hnd hnew (fun hs ↦ hs.1 hnext)
    exact ⟨k', fun n hn ↦ hload n hn, hloaded⟩
  | cons t T ih =>
    have hnext : k.next a = t := h.2.1
    have ht : t ≠ 0 := (List.ne_of_not_mem_cons (List.not_mem_of_not_mem_cons h0)).symm
    by_cases hp : priorityOf k t ≤ c.priority
    · obtain ⟨hmem, hnd⟩ := List.nodup_cons.mp hnd
      obtain ⟨k', hload, hloaded⟩ := ih ⟨rfl, h.2.2⟩ (List.not_mem_of_not_mem_cons h0) hnd
        (List.not_mem_of_not_mem_cons hnew) ht
      refine ⟨k'.setNext a t, fun n hn ↦ ?_, ⟨rfl, ?_⟩, fun y hy ↦ ?_, ?_, ?_⟩
      · obtain ⟨n, rfl⟩ : ∃ i, n = i + 1 := ⟨n - 1, by omega⟩
        rw [loadProcess, if_neg ha, hnext, if_pos ⟨ht, hp⟩, hload n (by simpa using hn),
          Option.map_some]
      · have hins : insertBehind (priorityOf k) c.priority c.newNode (t :: T) =
            t :: insertBehind (priorityOf k) c.priority c.newNode T := by simp [insertBehind, hp]
        rw [next_setNext, update_self, hins]
        refine hloaded.path.congr (fun y hy ↦ update_of_ne ?_ _ _)
        rintro rfl
        rcases List.mem_cons.mp hy with rfl | hy
        · exact hmem List.mem_cons_self
        rcases mem_insertBehind.mp hy with rfl | hy
        · exact hnew List.mem_cons_self
        · exact hmem (List.mem_cons_of_mem _ hy)
      · simp only [List.mem_cons, not_or] at hy
        rw [next_setNext, update_of_ne hy.2.1]
        exact hloaded.next y (by simp [hy])
      · rw [pcb_setNext, hloaded.pcb]
      · exact hloaded.fields.trans (.setNext _ _ _)
    · have hins : insertBehind (priorityOf k) c.priority c.newNode (t :: T) =
          c.newNode :: t :: T := by simp [insertBehind, hp]
      obtain ⟨k', hload, hloaded⟩ := loadProcess_here pid h ha hnd hnew
        (fun hs ↦ hp (hnext ▸ hs.2))
      exact ⟨k', fun n hn ↦ hload n (by omega), hins.symm ▸ hloaded⟩

def withNew (k : Kernel) (c : Create) : List ℕ → List ℕ
  | [] => [c.newNode]
  | a :: T => a :: insertBehind (priorityOf k) c.priority c.newNode T

theorem mem_withNew : x ∈ withNew k c L ↔ x = c.newNode ∨ x ∈ L := by
  cases L with
  | nil => simp [withNew]
  | cons a T =>
    rw [withNew, List.mem_cons, mem_insertBehind, List.mem_cons]
    exact or_left_comm

theorem withNew_perm : (withNew k c L).Perm (c.newNode :: L) := by
  cases L with
  | nil => exact .refl _
  | cons a T => exact (insertBehind_perm.cons a).trans (.swap _ _ _)

def counted (k : Kernel) (c : Create) : Kernel :=
  { k with
    fgTaken := if c.priority = 1 ∧ k.pid > 1 then 1 else k.fgTaken
    pid := u32 (k.pid + 1) }

theorem createProcess_eq (n : ℕ) : createProcess n k c =
    (loadProcess c k.pid n (counted k c) k.start).map fun r ↦
      ({ r.1 with start := r.2 }, i32 (u32Sub r.1.pid 1)) := by
  by_cases hfg : c.priority = 1 ∧ k.pid > 1
  · simp only [createProcess, counted, if_pos hfg]
  · simp only [createProcess, counted, if_neg hfg]

structure Created (k k' : Kernel) (c : Create) (L : List ℕ) : Prop where
  listed : Listed k' (withNew k c L)
  next : ∀ y, y ∉ c.newNode :: L → k'.next y = k.next y
  pcb : k'.pcb = update k.pcb c.newNode (newPcb c k.pid (k.pcb c.newNode))
  fields : SameFields (counted k c) k'

/-- Memory for the first node of a list has to have no link in it. -/
theorem createProcess_spec (h : Listed k L) (hnew : c.newNode ∉ L) (hnull : c.newNode ≠ 0)
    (hfirst : L = [] → k.next c.newNode = 0) :
    ∃ r, (∀ n, L.length < n → createProcess n k c = some r) ∧ Created k r.1 c L := by
  have hmem : 0 ∉ withNew k c L := by
    rw [mem_withNew]
    rintro (h0 | h0)
    · exact hnull h0.symm
    · exact h.not_null h0
  have hnd : (withNew k c L).Nodup := withNew_perm.nodup_iff.mpr (List.nodup_cons.mpr ⟨hnew, h.nodup⟩)
  cases L with
  | nil =>
    have hstart : k.start = 0 := h.path
    have hnext : (writeProcess (counted k c) c k.pid).next = k.next := by
      rw [writeProcess, next_setPcb]
      rfl
    have hpcb : (writeProcess (counted k c) c k.pid).pcb =
        update k.pcb c.newNode (newPcb c k.pid (k.pcb c.newNode)) := by
      rw [writeProcess, pcb_setPcb]
      rfl
    refine ⟨({ writeProcess (counted k c) c k.pid with start := c.newNode },
        i32 (u32Sub (u32 (k.pid + 1)) 1)), fun n hn ↦ ?_, ⟨⟨rfl, ?_⟩, hmem, hnd⟩, fun y _ ↦ ?_,
      hpcb, rfl⟩
    · obtain ⟨n, rfl⟩ : ∃ i, n = i + 1 := ⟨n - 1, Nat.eq_add_of_sub_eq hn rfl⟩
      rw [createProcess_eq, hstart, loadProcess, if_pos rfl]
      rfl
    · exact (congrFun hnext c.newNode).trans (hfirst rfl)
    · exact congrFun hnext y
  | cons a T =>
    have hstart : k.start = a := h.path.1
    have hpath : Path (counted k c).next a (a :: T) 0 := ⟨rfl, h.path.2⟩
    obtain ⟨k', hload, hloaded⟩ := loadProcess_walk (c := c) k.pid hpath h.not_null
      h.nodup hnew
    refine ⟨({ k' with start := a }, i32 (u32Sub k'.pid 1)), fun n hn ↦ ?_,
      ⟨⟨rfl, hloaded.path.2⟩, hmem, hnd⟩, hloaded.next, hloaded.pcb, hloaded.fields.trans rfl⟩
    rw [createProcess_eq, hstart, hload n (Nat.lt_of_succ_lt hn), Option.map_some]

end Load

section Priority

theorem getPCB_spec (h : Listed k L) (pid : ℕ) :
    ∃ p, (∀ n, L.length < n → getPCB k pid n k.start = some p) ∧
      (p = 0 ∧ (∀ y ∈ L, (k.pcb y).pid ≠ pid) ∨ p ∈ L ∧ (k.pcb p).pid = pid) := by
  obtain ⟨p, hseek, hp⟩ := h.path.seek_spec
    (fun a ↦ a = 0 || (k.pcb a).pid = pid) (by simp)
  refine ⟨p, hseek, hp.imp (fun hp ↦ ⟨hp.1, fun y hy ↦ ?_⟩) (fun hp ↦ ⟨hp.1, ?_⟩)⟩
  · have hstop := hp.2 y hy
    simp only [Bool.or_eq_false_iff, decide_eq_false_iff_not] at hstop
    exact hstop.2
  · have hp0 : p ≠ 0 := ne_of_mem_of_not_mem hp.1 h.not_null
    simpa [hp0] using hp.2

def moved (k : Kernel) (x newPriority : ℕ) : List ℕ → List ℕ
  | [] => []
  | a :: T => a :: insertBehind (priorityOf k) newPriority x (T.erase x)

structure Reordered (k k' : Kernel) (L : List ℕ) (x newPriority : ℕ) : Prop where
  listed : Listed k' (moved k x newPriority L)
  next : ∀ y, y ∉ L → k'.next y = k.next y
  pcb : k'.pcb = update k.pcb x
    { k.pcb x with priority := newPriority, auxPriority := newPriority }
  fields : SameFields k k'

theorem moved_perm (hx : x ∈ L.tail) (v : ℕ) : (moved k x v L).Perm L := by
  cases L with
  | nil => cases hx
  | cons a T =>
    refine List.Perm.cons a (insertBehind_perm.trans ?_)
    exact (List.perm_cons_erase hx).symm

/-- The node before the first process with the pid that is not the head is
found, and the process is taken out behind it. -/
theorem unlink_pid {F₁ F₂ : List ℕ} (h : Path k.next a (a :: F₁ ++ x :: F₂) 0)
    (hnd : (a :: F₁ ++ x :: F₂).Nodup) (hF : ∀ y ∈ F₁, (k.pcb y).pid ≠ pid)
    (hx : (k.pcb x).pid = pid) :
    ∃ q ∈ a :: F₁, (∀ n, F₁.length < n →
        seek (fun headPID ↦ (k.pcb (k.next headPID)).pid = pid) k.next n a = some q) ∧
      k.next q = x ∧ Path (k.setNext q (k.next x)).next a (a :: F₁ ++ F₂) 0 := by
  obtain ⟨c, hfirst, hc, -⟩ := path_append.mp h
  rw [hc] at hfirst
  obtain ⟨hnd₁, -, hdisj⟩ := List.nodup_append.mp hnd
  have hxF : x ∉ a :: F₁ := fun hmem ↦ hdisj x hmem x List.mem_cons_self rfl
  have hstop : ∀ p ∈ a :: F₁, decide ((k.pcb (k.next p)).pid = pid) = decide (k.next p = x) := by
    intro p hp
    rw [decide_eq_decide]
    constructor
    · intro hpid
      refine (hfirst.next_mem hp).resolve_left (fun hmem ↦ ?_)
      have hne := hfirst.next_ne_start hnd₁ hxF hp
      exact hF _ ((List.mem_cons.mp hmem).resolve_left hne) hpid
    · rintro heq
      rw [heq, hx]
  obtain ⟨l₁, q, hq, hseek⟩ := h.seek_pred hnd hstop
  obtain ⟨hqx, hpath⟩ := h.unlink hnd hq
  refine ⟨q, by rw [hq]; simp, hseek, hqx, ?_⟩
  rw [next_setNext]
  exact hpath

theorem relink_spec (h : Path k.next a (a :: T) 0) (h0 : 0 ∉ T) (hnd : (a :: T).Nodup)
    (hx : x ∉ a :: T) (v : ℕ) :
    ∃ q ∈ a :: T, (∀ n, T.length < n → seek (fun headPID ↦ k.next headPID = 0 ||
        v < (k.pcb (k.next headPID)).priority) k.next n a = some q) ∧
      Path ((k.setNext q x).setNext x (k.next q)).next a
        (a :: insertBehind (priorityOf k) v x T) 0 := by
  obtain ⟨q, hq, hseek, hpath⟩ := link_behind (priorityOf k) v h hnd hx h0
  refine ⟨q, hq, fun n hn ↦ ?_, ?_⟩
  · rw [← hseek n hn]
    congr 1
    funext p
    have hlt : decide (v < priorityOf k (k.next p)) = !decide (priorityOf k (k.next p) ≤ v) := by
      rw [← decide_not, decide_eq_decide]
      exact Nat.not_le.symm
    simp only [ne_eq, decide_not, Bool.not_and, Bool.not_not, ← hlt]
    rfl
  · rw [next_setNext, next_setNext]
    exact hpath

theorem moveProcess_spec {F₁ F₂ : List ℕ} (h : Listed k (a :: F₁ ++ x :: F₂))
    (hF : ∀ y ∈ F₁, (k.pcb y).pid ≠ pid) (hx : (k.pcb x).pid = pid) (v : ℕ) :
    ∃ k', (∀ n, (F₁ ++ x :: F₂).length < n → moveProcess n k pid v = some k') ∧
      Listed k' (a :: insertBehind (priorityOf k) v x (F₁ ++ F₂)) ∧
      (∀ y, y ∉ a :: F₁ ++ x :: F₂ → k'.next y = k.next y) ∧ k'.pcb = k.pcb ∧ SameFields k k' := by
  have hstart : k.start = a := h.path.1
  have hpath : Path k.next a (a :: F₁ ++ x :: F₂) 0 := ⟨rfl, h.path.2⟩
  obtain ⟨q₁, hq₁, hseek₁, hqx, hpath₁⟩ := unlink_pid hpath h.nodup hF hx
  let k₁ := k.setNext q₁ (k.next x)
  obtain ⟨hx₂, hnd₂⟩ := List.nodup_cons.mp (List.nodup_middle.mp h.nodup)
  have hnull : 0 ∉ a :: F₁ ++ F₂ := fun h0 ↦ h.not_null (by
    rcases List.mem_append.mp h0 with h0 | h0
    · exact List.mem_append_left _ h0
    · exact List.mem_append_right _ (List.mem_cons_of_mem _ h0))
  obtain ⟨q₂, hq₂, hseek₂, hpath₂⟩ :=
    relink_spec (k := k₁) (T := F₁ ++ F₂) hpath₁ (List.not_mem_of_not_mem_cons hnull) hnd₂ hx₂ v
  have hprio : insertBehind (priorityOf k₁) v x (F₁ ++ F₂) =
      insertBehind (priorityOf k) v x (F₁ ++ F₂) :=
    insertBehind_congr (fun y _ ↦ by simp [priorityOf, k₁])
  rw [hprio] at hpath₂
  have hmem : ∀ y, y ∈ a :: insertBehind (priorityOf k) v x (F₁ ++ F₂) ↔
      y ∈ x :: (a :: F₁ ++ F₂) := by
    intro y
    rw [List.mem_cons, mem_insertBehind, List.mem_cons, List.cons_append, List.mem_cons]
    exact or_left_comm
  refine ⟨(k₁.setNext q₂ x).setNext x (k₁.next q₂), fun n hn ↦ ?_, ⟨?_, ?_, ?_⟩, fun y hy ↦ ?_,
    ?_, rfl⟩
  · have hn' : F₁.length < n ∧ (F₁ ++ F₂).length < n := by
      simp only [List.length_cons, List.length_append] at hn ⊢
      omega
    rw [moveProcess, hstart, hseek₁ n hn'.1, Option.bind_some]
    simp only [hqx]
    change (seek _ k₁.next n k.start).map _ = _
    rw [hstart, hseek₂ n hn'.2]
    rfl
  · exact hstart ▸ hpath₂
  · rw [hmem]
    intro h0
    rcases List.mem_cons.mp h0 with h0 | h0
    · exact h.not_null (h0 ▸ by simp)
    · exact hnull h0
  · have hperm : (a :: insertBehind (priorityOf k) v x (F₁ ++ F₂)).Perm (x :: (a :: F₁ ++ F₂)) :=
      (insertBehind_perm.cons a).trans (.swap _ _ _)
    exact hperm.nodup_iff.mpr (List.nodup_middle.mp h.nodup)
  · have hyx : y ≠ x := fun heq ↦ hy (heq ▸ by simp)
    have hy₁ : y ≠ q₁ := fun heq ↦ hy (List.mem_append_left _ (heq ▸ hq₁))
    have hy₂ : y ≠ q₂ := by
      rintro rfl
      apply hy
      have hq₂ : y ∈ a :: F₁ ++ F₂ := hq₂
      rcases List.mem_append.mp hq₂ with hq | hq
      · exact List.mem_append_left _ hq
      · exact List.mem_append_right _ (List.mem_cons_of_mem _ hq)
    simp [k₁, hyx, hy₁, hy₂]
  · simp [k₁]

theorem getPCB_first {F₁ F₂ : List ℕ} (h : Listed k (F₁ ++ x :: F₂))
    (hF : ∀ y ∈ F₁, (k.pcb y).pid ≠ pid) (hx : (k.pcb x).pid = pid)
    (hn : (F₁ ++ x :: F₂).length < n) : getPCB k pid n k.start = some x := by
  obtain ⟨c, hpath, hc, -⟩ := path_append.mp h.path
  rw [hc] at hpath
  refine seek_path hpath (fun y hy ↦ ?_) (by simp [hx]) ?_
  · have hy0 : y ≠ 0 := ne_of_mem_of_not_mem (List.mem_append_left _ hy) h.not_null
    simp [hy0, hF y hy]
  · rw [List.length_append] at hn
    omega

/-- The first process with the pid is moved, unless it is the head. -/
theorem changeProcessPriority_first {F₁ F₂ : List ℕ} {v : ℕ} (h : Listed k (a :: F₁ ++ x :: F₂))
    (hF : ∀ y ∈ a :: F₁, (k.pcb y).pid ≠ pid) (hxp : (k.pcb x).pid = pid) (hpid : 1 < pid)
    (hlo : 1 < v) (hhi : v ≤ 10) :
    ∃ k', (∀ n, (a :: F₁ ++ x :: F₂).length < n → changeProcessPriority n k pid v = some k') ∧
      Reordered k k' (a :: F₁ ++ x :: F₂) x v := by
  have hx0 : x ≠ 0 := ne_of_mem_of_not_mem (by simp) h.not_null
  have hpid₁ : ∀ y, ((setPriority k x v).pcb y).pid = (k.pcb y).pid := by
    intro y
    by_cases hy : y = x <;> simp [setPriority, hy]
  have hlist : Listed (setPriority k x v) (a :: F₁ ++ x :: F₂) := by
    refine ⟨?_, h.not_null, h.nodup⟩
    rw [setPriority, next_setPcb]
    exact h.path
  have hF₁ : ∀ y ∈ F₁, ((setPriority k x v).pcb y).pid ≠ pid := by
    intro y hy
    rw [hpid₁]
    exact hF y (List.mem_cons_of_mem _ hy)
  obtain ⟨k', hmove, hlisted, hnext, hpcb, hfields⟩ :=
    moveProcess_spec hlist hF₁ ((hpid₁ x).trans hxp) v
  obtain ⟨hx₂, hnd₂⟩ := List.nodup_cons.mp (List.nodup_middle.mp h.nodup)
  refine ⟨k', fun n hn ↦ ?_, ?_, fun y hy ↦ ?_, ?_, hfields⟩
  · have hvalid : ¬ (v ≤ 1 ∨ v > 10) := by omega
    rw [changeProcessPriority, if_neg (by omega), if_neg hvalid, getPCB_first h hF hxp hn,
      Option.bind_some, if_neg hx0]
    exact hmove n (Nat.lt_of_succ_lt hn)
  · have herase : (F₁ ++ x :: F₂).erase x = F₁ ++ F₂ := by
      have hxF : x ∉ F₁ := fun hmem ↦ hx₂ (by simp [hmem])
      rw [List.erase_append_right _ hxF, List.erase_cons_head]
    rw [List.cons_append, moved, herase, ← insertBehind_congr (fun y hy ↦ ?_)]
    · exact hlisted
    · have hyx : y ≠ x := ne_of_mem_of_not_mem (List.mem_cons_of_mem _ hy) hx₂
      simp [priorityOf, setPriority, hyx]
  · rw [hnext y hy, setPriority, next_setPcb]
  · rw [hpcb, setPriority, pcb_setPcb]

theorem changeProcessPriority_spec {v : ℕ} (h : Listed k L)
    (hpids : (L.map fun y ↦ (k.pcb y).pid).Nodup) (hpid : 1 < pid) (hlo : 1 < v) (hhi : v ≤ 10)
    (hx : x ∈ L.tail) (hxp : (k.pcb x).pid = pid) :
    ∃ k', (∀ n, L.length < n → changeProcessPriority n k pid v = some k') ∧
      Reordered k k' L x v := by
  cases L with
  | nil => cases hx
  | cons a T =>
    obtain ⟨F₁, F₂, rfl⟩ := List.append_of_mem hx
    have hF : ∀ y ∈ a :: F₁, (k.pcb y).pid ≠ pid := by
      intro y hy heq
      have hyx : y = x := by
        refine List.inj_on_of_nodup_map hpids ?_ (by simp) (heq.trans hxp.symm)
        exact List.mem_append_left (x :: F₂) hy
      have hnd : (a :: F₁ ++ x :: F₂).Nodup := h.nodup
      exact (List.nodup_append.mp hnd).2.2 y hy x List.mem_cons_self hyx
    exact changeProcessPriority_first h hF hxp hpid hlo hhi

theorem changeProcessPriority_refused (h : Listed k L) (v : ℕ)
    (hno : pid ≤ 1 ∨ v ≤ 1 ∨ 10 < v ∨ ∀ y ∈ L, (k.pcb y).pid ≠ pid) (hn : L.length < n) :
    changeProcessPriority n k pid v = some k := by
  by_cases hpid : pid ≤ 1
  · rw [changeProcessPriority, if_pos hpid]
  by_cases hv : v ≤ 1 ∨ v > 10
  · rw [changeProcessPriority, if_neg hpid, if_pos hv]
  obtain ⟨p, hget, hp⟩ := getPCB_spec h pid
  have hp0 : p = 0 := by
    rcases hp with ⟨hp, -⟩ | ⟨hp, hpp⟩
    · exact hp
    · rcases hno with hno | hno | hno | hno
      · exact absurd hno hpid
      · exact absurd (Or.inl hno) hv
      · exact absurd (Or.inr hno) hv
      · exact absurd hpp (hno p hp)
  rw [changeProcessPriority, if_neg hpid, if_neg hv, hget n hn, Option.bind_some, if_pos hp0]

end Priority

end ShellOS.Sched.ProcessList
