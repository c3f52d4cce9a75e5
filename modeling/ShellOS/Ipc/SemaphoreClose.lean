import ShellOS.Ipc.Semaphores
import ShellOS.Library.Runs

namespace ShellOS.Ipc.SemaphoreClose

open Library.Runs Library.Words Semaphores Function

/-- A pointer from `sem_open`, with the number of the semaphore it was given
for: an address is used again once its semaphore has been freed. -/
structure Handle where
  address : ℕ
  serial : ℕ
  deriving DecidableEq

inductive Worker
  | out
  | opened (h : Handle)
  | waiting (h : Handle)
  | critical (h : Handle)
  deriving DecidableEq

def Worker.handle : Worker → Option Handle
  | .out => none
  | .opened h | .waiting h | .critical h => some h

def Worker.isCritical : Worker → Prop
  | .critical _ => True
  | _ => False

/-- The workers by pcb address and the process that closes. `serial` numbers
the semaphores at the addresses, and `fault` records that one was used after
it had been freed. -/
structure System where
  kernel : Kernel
  worker : ℕ → Worker
  closer : Option Handle
  serial : ℕ → ℕ
  made : ℕ
  fault : Bool

def System.valid (s : System) (h : Handle) : Bool :=
  decide (h.address ∈ s.kernel.semaphores ∧ s.serial h.address = h.serial)

inductive Act
  | enter (process newSem : ℕ)
  | wait (process : ℕ)
  | resume (process : ℕ)
  | post (process : ℕ)
  | openCloser (newSem : ℕ)
  | close

variable (id : ℕ)

/-- `sem_open(id, 1)`, where `alloc` returns an address that is not in use. -/
def openSem (s : System) (newSem : ℕ) : Option (System × Option Handle) :=
  if newSem = 0 ∨ newSem ∈ s.kernel.semaphores then none
  else
    (semOpen s.kernel id 1 newSem).map fun r ↦
      let serial :=
        if newSem ∈ r.1.semaphores then update s.serial newSem (s.made + 1) else s.serial
      ({ s with kernel := r.1, serial := serial, made := s.made + 1 },
        if r.2 = 0 then none else some ⟨r.2, serial r.2⟩)

def afterOpen : Option Handle → Worker
  | none => .out
  | some h => .opened h

/-- Whatever `sem_wait` returns, the worker goes on to its critical section. -/
def afterWait (h : Handle) : Waited → Worker
  | .returned _ => .critical h
  | .blocked => .waiting h

def System.use (s : System) (process : ℕ) (h : Handle) (k : Kernel) (w : Worker) : System :=
  { s with
    kernel := k, worker := update s.worker process w, fault := s.fault || !s.valid h }

def exec (s : System) : Act → Option System
  | .enter process newSem =>
    match s.worker process with
    | .out => (openSem id s newSem).map fun r ↦
      { r.1 with worker := update r.1.worker process (afterOpen r.2) }
    | _ => none
  | .wait process =>
    match s.worker process with
    | .opened h => (semWait s.kernel process h.address).map fun r ↦
      s.use process h r.1 (afterWait h r.2)
    | _ => none
  | .resume process =>
    match s.worker process with
    | .waiting h =>
      if s.kernel.pstate process = 1 then
        let r := semWaitLoop s.kernel process h.address
        some (s.use process h r.1 (afterWait h r.2))
      else none
    | _ => none
  | .post process =>
    match s.worker process with
    | .critical h => (semPost s.kernel h.address).map fun r ↦ s.use process h r.1 (.opened h)
    | _ => none
  | .openCloser newSem =>
    match s.closer with
    | none => (openSem id s newSem).map fun r ↦ { r.1 with closer := r.2 }
    | some _ => none
  | .close =>
    match s.closer with
    | some h => (semClose s.kernel h.address).map fun r ↦
      { s with
        kernel := r.1
        closer := if r.2 = (0 : ℤ) then none else some h
        fault := s.fault || !s.valid h }
    | none => none

abbrev Step (s : System) (x : Act) (s' : System) : Prop := exec id s x = some s'

def boot (k : Kernel) : System := ⟨k, fun _ ↦ .out, none, fun _ ↦ 0, 0, false⟩

/-- At most one worker is in its critical section, and no freed semaphore has
been used. -/
def Safe (s : System) : Prop :=
  s.fault = false ∧
    ∀ p q, (s.worker p).isCritical → (s.worker q).isCritical → p = q

def QueueRoom (s : System) (h : Handle) : Prop :=
  ¬ ((s.kernel.sem h.address).value = 0 ∧ (s.kernel.sem h.address).waiting = processLimit)

/-- The semaphore is closed only while no worker has it open, unless the close
is refused, and nobody waits when the queue is full. -/
def Careful (s : System) : Act → Prop
  | .close => ∀ h, s.closer = some h → (s.kernel.sem h.address).waiting = 0 →
      ∀ p, s.worker p = .out
  | .wait process | .resume process => ∀ h, (s.worker process).handle = some h → QueueRoom s h
  | _ => True

structure TableOk (k : Kernel) : Prop where
  nodup : k.semaphores.Nodup
  ids : ∀ a ∈ k.semaphores, ∀ b ∈ k.semaphores, (k.sem a).id = (k.sem b).id → a = b
  not_null : 0 ∉ k.semaphores

structure Absent (s : System) : Prop where
  no_id : ∀ a ∈ s.kernel.semaphores, (s.kernel.sem a).id ≠ id
  out : ∀ p, s.worker p = .out
  closer : s.closer = none

/-- The semaphore is at `a`; all pointers are to it, and its unit is either in
the counter or with the one worker in its critical section. -/
structure Live (s : System) (a : ℕ) : Prop where
  mem : a ∈ s.kernel.semaphores
  id_eq : (s.kernel.sem a).id = id
  lock : (s.kernel.sem a).lock = 0
  handles : ∀ p h, (s.worker p).handle = some h → h = ⟨a, s.serial a⟩
  closer : ∀ h, s.closer = some h → h = ⟨a, s.serial a⟩
  unit : (s.kernel.sem a).value = 1 ∧ (∀ p, ¬ (s.worker p).isCritical) ∨
    (s.kernel.sem a).value = 0 ∧ ∃ p, ∀ q, (s.worker q).isCritical ↔ q = p

structure Invariant (s : System) : Prop where
  table : TableOk s.kernel
  no_fault : s.fault = false
  absent_or_live : Absent id s ∨ ∃ a, Live id s a

variable {id} {s s' : System} {x : Act} {a : ℕ}

theorem Invariant.safe (h : Invariant id s) : Safe s := by
  refine ⟨h.no_fault, fun p q hp hq ↦ ?_⟩
  rcases h.absent_or_live with habs | ⟨a, hlive⟩
  · rw [habs.out p] at hp
    cases hp
  · rcases hlive.unit with ⟨-, hnone⟩ | ⟨-, r, hr⟩
    · exact absurd hp (hnone p)
    · exact ((hr p).mp hp).trans ((hr q).mp hq).symm

theorem Live.use (h : Live id s a) (hinv : Invariant id s) {process : ℕ} {k : Kernel} {w : Worker}
    {hd : Handle} (hhd : hd = ⟨a, s.serial a⟩) (htable : k.semaphores = s.kernel.semaphores)
    (hids : ∀ b, (k.sem b).id = (s.kernel.sem b).id) (hlock : (k.sem a).lock = 0)
    (hw : w.handle = some hd)
    (hunit : (k.sem a).value = 1 ∧ (∀ p, ¬ (update s.worker process w p).isCritical) ∨
      (k.sem a).value = 0 ∧ ∃ p, ∀ q, (update s.worker process w q).isCritical ↔ q = p) :
    Invariant id (s.use process hd k w) := by
  have hvalid : s.valid hd = true := by
    rw [hhd]
    simpa [System.valid] using h.mem
  refine ⟨⟨?_, ?_, ?_⟩, ?_, Or.inr ⟨a, ?_, ?_, hlock, ?_, h.closer, hunit⟩⟩
  · simpa [System.use, htable] using hinv.table.nodup
  · simpa [System.use, htable, hids] using hinv.table.ids
  · simpa [System.use, htable] using hinv.table.not_null
  · simp [System.use, hinv.no_fault, hvalid]
  · simpa [System.use, htable] using h.mem
  · exact (hids a).trans h.id_eq
  · intro p h' hp
    by_cases hpp : p = process
    · subst hpp
      simp only [System.use, update_self, hw, Option.some.injEq] at hp
      rw [← hp]
      exact hhd
    · simp only [System.use, update_of_ne hpp] at hp
      exact h.handles p h' hp

theorem Live.unit_update (h : Live id s a) {process : ℕ} {w : Worker}
    (hout : ¬ (s.worker process).isCritical) (hw : ¬ w.isCritical) :
    (s.kernel.sem a).value = 1 ∧ (∀ p, ¬ (update s.worker process w p).isCritical) ∨
      (s.kernel.sem a).value = 0 ∧
        ∃ p, ∀ q, (update s.worker process w q).isCritical ↔ q = p := by
  have hsame : ∀ q, (update s.worker process w q).isCritical ↔ (s.worker q).isCritical := by
    intro q
    by_cases hq : q = process
    · simp [hq, hout, hw]
    · rw [update_of_ne hq]
  rcases h.unit with ⟨hone, hnone⟩ | ⟨hzero, p, hp⟩
  · exact Or.inl ⟨hone, fun q hq ↦ hnone q ((hsame q).mp hq)⟩
  · exact Or.inr ⟨hzero, p, fun q ↦ (hsame q).trans (hp q)⟩

theorem loop_live (h : Live id s a) (hinv : Invariant id s) {process : ℕ} {hd : Handle}
    (hhd : (s.worker process).handle = some hd) (hout : ¬ (s.worker process).isCritical)
    (hroom : QueueRoom s hd) {k : Kernel} (htable : k.semaphores = s.kernel.semaphores)
    (hsem : k.sem = update s.kernel.sem a { s.kernel.sem a with lock := (k.sem a).lock }) :
    Invariant id (s.use process hd (semWaitLoop k process a).1
      (afterWait hd (semWaitLoop k process a).2)) := by
  obtain rfl := h.handles process hd hhd
  have hka : k.sem a = { s.kernel.sem a with lock := (k.sem a).lock } := by
    conv_lhs => rw [hsem, update_self]
  have hvalue : (k.sem a).value = (s.kernel.sem a).value := by rw [hka]
  have hqueue : (k.sem a).waiting = (s.kernel.sem a).waiting := by rw [hka]; rfl
  have hid : ∀ b, (k.sem b).id = (s.kernel.sem b).id := by
    intro b
    by_cases hb : b = a
    · rw [hb, hka]
    · rw [hsem, update_of_ne hb]
  have hid' : ∀ (sem : Semaphore), sem.id = (k.sem a).id → ∀ b,
      (update k.sem a sem b).id = (s.kernel.sem b).id := by
    intro sem hsid b
    by_cases hb : b = a
    · rw [hb, update_self, hsid, hid]
    · rw [update_of_ne hb, hid]
  rcases semWaitLoop_cases k process a with ⟨hv, hcall⟩ | ⟨hv, hw, -⟩ | ⟨hv, -, hcall⟩
  · rw [hcall]
    rcases h.unit with ⟨hone, hnone⟩ | ⟨hzero, -⟩
    · refine h.use hinv rfl htable (hid' _ rfl) (by simp) rfl (Or.inr ⟨?_, process, fun q ↦ ?_⟩)
      · rw [← hvalue] at hone
        simp [hone, i32]
      · by_cases hq : q = process
        · simp [hq, afterWait, Worker.isCritical]
        · simpa [hq] using hnone q
    · exact absurd (hvalue.trans hzero) hv
  · exact absurd ⟨hvalue.symm.trans hv, hqueue.symm.trans hw⟩ hroom
  · rw [hcall]
    have hunit := h.unit_update hout (w := afterWait ⟨a, s.serial a⟩ .blocked) not_false
    rw [← hvalue] at hunit
    exact h.use hinv rfl htable (hid' _ rfl) (by simp) rfl (by simpa using hunit)

theorem post_live (h : Live id s a) (hinv : Invariant id s) {process : ℕ} {hd : Handle}
    (hhd : s.worker process = .critical hd) {k : Kernel} {i : ℤ}
    (hpost : semPost s.kernel hd.address = some (k, i)) :
    Invariant id (s.use process hd k (.opened hd)) := by
  obtain rfl := h.handles process hd (by rw [hhd]; rfl)
  have hcrit : (s.worker process).isCritical := by
    rw [hhd]
    trivial
  obtain ⟨hzero, p, hp⟩ := h.unit.resolve_left (fun hone ↦ hone.2 process hcrit)
  obtain rfl := (hp process).mp hcrit
  have hnone : ∀ q, ¬ (update s.worker process (.opened ⟨a, s.serial a⟩) q).isCritical := by
    intro q
    by_cases hq : q = process
    · simp [hq, Worker.isCritical]
    · simpa [hq] using hp q
  have hlock := h.lock
  simp only [semPost, hlock, hzero] at hpost
  cases hq : (s.kernel.sem a).queue with
  | nil =>
    rw [hq] at hpost
    cases hpost
    refine h.use hinv rfl rfl (fun b ↦ ?_) (by simp) rfl (Or.inl ⟨by simp [i32], hnone⟩)
    by_cases hb : b = a <;> simp [hb]
  | cons first queue =>
    rw [hq] at hpost
    cases hpost
    refine h.use hinv rfl rfl (fun b ↦ ?_) (by simp) rfl (Or.inl ⟨by simp [i32], hnone⟩)
    by_cases hb : b = a <;> simp [hb]

theorem TableOk.of_same {k k' : Kernel} (h : TableOk k) (htable : k'.semaphores = k.semaphores)
    (hsem : k'.sem = k.sem) : TableOk k' := by
  refine ⟨?_, ?_, ?_⟩
  · rw [htable]
    exact h.nodup
  · rw [htable, hsem]
    exact h.ids
  · rw [htable]
    exact h.not_null

theorem TableOk.snoc {k k' : Kernel} (h : TableOk k) {newSem : ℕ} {sem : Semaphore}
    (hnull : newSem ≠ 0) (hnew : newSem ∉ k.semaphores)
    (hid : ∀ b ∈ k.semaphores, (k.sem b).id ≠ sem.id)
    (htable : k'.semaphores = k.semaphores ++ [newSem])
    (hsem : k'.sem = update k.sem newSem sem) : TableOk k' := by
  have hold : ∀ b ∈ k.semaphores, update k.sem newSem sem b = k.sem b := fun b hb ↦
    update_of_ne (ne_of_mem_of_not_mem hb hnew) _ _
  refine ⟨?_, ?_, ?_⟩
  · rw [htable, List.nodup_append]
    refine ⟨h.nodup, by simp, fun b hb c hc ↦ ?_⟩
    rw [List.mem_singleton.mp hc]
    exact ne_of_mem_of_not_mem hb hnew
  · intro b hb c hc heq
    rw [htable, List.mem_append, List.mem_singleton] at hb hc
    rw [hsem] at heq
    rcases hb with hb | rfl
    · rcases hc with hc | rfl
      · rw [hold b hb, hold c hc] at heq
        exact h.ids b hb c hc heq
      · rw [hold b hb, update_self] at heq
        exact absurd heq (hid b hb)
    · rcases hc with hc | rfl
      · rw [hold c hc, update_self] at heq
        exact absurd heq.symm (hid c hc)
      · rfl
  · rw [htable]
    simp [h.not_null, Ne.symm hnull]

theorem openSem_cases {newSem : ℕ} {r : System × Option Handle}
    (hopen : openSem id s newSem = some r) :
    newSem ≠ 0 ∧ newSem ∉ s.kernel.semaphores ∧
      (r = ({ s with kernel := { s.kernel with mutexSem := 1 }, made := s.made + 1 }, none) ∨
        (∃ a ∈ s.kernel.semaphores, (s.kernel.sem a).id = id ∧
          r = ({ s with kernel := { s.kernel with mutexSem := 0 }, made := s.made + 1 },
            if a = 0 then none else some ⟨a, s.serial a⟩)) ∨
        (∀ b ∈ s.kernel.semaphores, (s.kernel.sem b).id ≠ id) ∧
          r = ({ s with
            kernel := { s.kernel.setSem newSem ⟨id, 1, [], 0⟩ with
              semaphores := s.kernel.semaphores ++ [newSem], mutexSem := 0 }
            serial := update s.serial newSem (s.made + 1)
            made := s.made + 1 }, some ⟨newSem, s.made + 1⟩)) := by
  unfold openSem at hopen
  split at hopen
  · cases hopen
  rename_i hfresh
  obtain ⟨hnull, hnew⟩ := not_or.mp hfresh
  refine ⟨hnull, hnew, ?_⟩
  obtain ⟨⟨k, p⟩, hcall, rfl⟩ := Option.map_eq_some_iff.mp hopen
  obtain ⟨-, ⟨-, rfl, rfl⟩ | ⟨-, ⟨hmem, hid, rfl⟩ | ⟨hno, rfl, rfl⟩⟩⟩ := semOpen_cases hcall
  · exact Or.inl (by simp only [if_neg hnew, if_true])
  · exact Or.inr (Or.inl ⟨p, hmem, hid, by simp only [if_neg hnew]⟩)
  · exact Or.inr (Or.inr ⟨hno, by simp [hnull]⟩)

theorem openSem_invariant (hinv : Invariant id s) {newSem : ℕ} {r : System × Option Handle}
    (hopen : openSem id s newSem = some r) :
    Invariant id r.1 ∧ r.1.worker = s.worker ∧ r.1.closer = s.closer ∧
      ∀ h, r.2 = some h → ∃ a, Live id r.1 a ∧ h = ⟨a, r.1.serial a⟩ := by
  obtain ⟨hnull, hnew, rfl | ⟨a, ha, hid, rfl⟩ | ⟨hno, rfl⟩⟩ := openSem_cases hopen
  · refine ⟨⟨hinv.table.of_same rfl rfl, hinv.no_fault, ?_⟩, rfl, rfl, by simp⟩
    rcases hinv.absent_or_live with habs | ⟨a, hlive⟩
    · exact Or.inl ⟨habs.no_id, habs.out, habs.closer⟩
    · exact Or.inr ⟨a, hlive.mem, hlive.id_eq, hlive.lock, hlive.handles, hlive.closer,
        hlive.unit⟩
  · have hlive : Live id s a := by
      rcases hinv.absent_or_live with habs | ⟨b, hlive⟩
      · exact absurd hid (habs.no_id a ha)
      · rwa [hinv.table.ids a ha b hlive.mem (hid.trans hlive.id_eq.symm)]
    have hlive' : Live id { s with
        kernel := { s.kernel with mutexSem := 0 }, made := s.made + 1 } a :=
      ⟨hlive.mem, hlive.id_eq, hlive.lock, hlive.handles, hlive.closer, hlive.unit⟩
    have hne : a ≠ 0 := fun h0 ↦ hinv.table.not_null (h0 ▸ ha)
    refine ⟨⟨hinv.table.of_same rfl rfl, hinv.no_fault, Or.inr ⟨a, hlive'⟩⟩, rfl, rfl,
      fun h hh ↦ ⟨a, hlive', ?_⟩⟩
    rw [if_neg hne] at hh
    exact (Option.some.inj hh).symm
  · have habs : Absent id s := by
      rcases hinv.absent_or_live with habs | ⟨b, hlive⟩
      · exact habs
      · exact absurd hlive.id_eq (hno b hlive.mem)
    have hlive : Live id { s with
        kernel := { s.kernel.setSem newSem ⟨id, 1, [], 0⟩ with
          semaphores := s.kernel.semaphores ++ [newSem], mutexSem := 0 }
        serial := update s.serial newSem (s.made + 1)
        made := s.made + 1 } newSem := by
      refine ⟨by simp, by simp, by simp, fun q h hq ↦ ?_, fun h hc ↦ ?_, Or.inl ⟨by simp, ?_⟩⟩
      · rw [show s.worker q = .out from habs.out q] at hq
        cases hq
      · rw [show s.closer = none from habs.closer] at hc
        cases hc
      · intro q hq
        rw [show s.worker q = .out from habs.out q] at hq
        cases hq
    refine ⟨⟨hinv.table.snoc hnull hnew hno rfl rfl, hinv.no_fault, Or.inr ⟨newSem, hlive⟩⟩,
      rfl, rfl, fun h hh ↦ ⟨newSem, hlive, ?_⟩⟩
    rw [← Option.some.inj hh]
    simp

theorem eraseP_eq_erase {l : List ℕ} {P : ℕ → Bool} (h : ∀ b ∈ l, P b = decide (b = a)) :
    l.eraseP P = l.erase a := by
  induction l with
  | nil => rfl
  | cons b l ih =>
    have hl := ih (fun c hc ↦ h c (List.mem_cons_of_mem _ hc))
    have hPb := h b List.mem_cons_self
    by_cases hb : b = a
    · subst hb
      simp [hPb]
    · simp [hPb, hb, hl]

theorem TableOk.erase_eq {k : Kernel} (h : TableOk k) (ha : a ∈ k.semaphores) :
    k.semaphores.eraseP (fun b ↦ (k.sem b).id = (k.sem a).id) = k.semaphores.erase a := by
  apply eraseP_eq_erase
  intro b hb
  rw [decide_eq_decide]
  exact ⟨fun heq ↦ h.ids b hb a ha heq, fun heq ↦ by rw [heq]⟩

theorem TableOk.close {k : Kernel} (h : TableOk k) (ha : a ∈ k.semaphores) (k' : Kernel)
    (htable : k'.semaphores = k.semaphores.eraseP (fun b ↦ (k.sem b).id = (k.sem a).id))
    (hsem : k'.sem = k.sem) :
    TableOk k' ∧ ∀ b ∈ k'.semaphores, (k'.sem b).id ≠ (k.sem a).id := by
  rw [h.erase_eq ha] at htable
  have hsub : ∀ b ∈ k'.semaphores, b ∈ k.semaphores := fun b hb ↦
    List.mem_of_mem_erase (htable ▸ hb)
  refine ⟨⟨?_, ?_, fun h0 ↦ h.not_null (hsub 0 h0)⟩, fun b hb heq ↦ ?_⟩
  · rw [htable]
    exact h.nodup.erase a
  · intro b hb c hc heq
    rw [hsem] at heq
    exact h.ids b (hsub b hb) c (hsub c hc) heq
  · rw [hsem] at heq
    have hba := h.ids b (hsub b hb) a ha heq
    rw [htable, hba] at hb
    exact (h.nodup.mem_erase_iff.mp hb).1 rfl

theorem close_invariant (hinv : Invariant id s) {hd : Handle} (hhd : s.closer = some hd)
    (hcareful : (s.kernel.sem hd.address).waiting = 0 → ∀ p, s.worker p = .out) {k : Kernel}
    {i : ℤ} (hclose : semClose s.kernel hd.address = some (k, i)) :
    Invariant id { s with
      kernel := k, closer := if i = 0 then none else some hd, fault := s.fault || !s.valid hd } := by
  obtain ⟨a, hlive⟩ : ∃ a, Live id s a := by
    rcases hinv.absent_or_live with habs | hlive
    · rw [habs.closer] at hhd
      cases hhd
    · exact hlive
  obtain rfl := hlive.closer hd hhd
  have hvalid : s.valid ⟨a, s.serial a⟩ = true := by simpa [System.valid] using hlive.mem
  have hfault : (s.fault || !s.valid ⟨a, s.serial a⟩) = false := by
    rw [hinv.no_fault, hvalid]
    rfl
  obtain ⟨-, rfl, rfl⟩ | ⟨hwaiting, -, ⟨-, rfl, rfl⟩ | ⟨hnone, -, -⟩⟩ := semClose_cases hclose
  · refine ⟨hinv.table, hfault, Or.inr ⟨a, hlive.mem, hlive.id_eq, hlive.lock, hlive.handles,
      fun h hc ↦ ?_, hlive.unit⟩⟩
    exact (Option.some.inj hc).symm
  · obtain ⟨htable, hno⟩ := hinv.table.close hlive.mem { s.kernel with
      semaphores := s.kernel.semaphores.eraseP
        (fun b ↦ (s.kernel.sem b).id = (s.kernel.sem a).id), mutexSem := 0 } rfl rfl
    refine ⟨htable, hfault, Or.inl ⟨fun b hb ↦ ?_, hcareful hwaiting, rfl⟩⟩
    rw [← hlive.id_eq]
    exact hno b hb
  · exact absurd rfl (hnone a hlive.mem)

theorem enter_invariant (hinv : Invariant id s) {process newSem : ℕ}
    (hout : s.worker process = .out) {r : System × Option Handle}
    (hopen : openSem id s newSem = some r) :
    Invariant id { r.1 with worker := update r.1.worker process (afterOpen r.2) } := by
  obtain ⟨hr, hworker, -, hhandle⟩ := openSem_invariant hinv hopen
  rw [← hworker] at hout
  cases hh : r.2 with
  | none =>
    have hsame : update r.1.worker process (afterOpen none) = r.1.worker := by
      rw [afterOpen, ← hout, update_eq_self]
    rw [hsame]
    exact hr
  | some hd =>
    obtain ⟨a, hlive, hhd⟩ := hhandle hd hh
    have hunit := hlive.unit_update (w := .opened hd) (by rw [hout]; exact not_false) not_false
    have huse := hlive.use hr hhd (k := r.1.kernel) rfl (fun _ ↦ rfl) hlive.lock rfl hunit
    have hvalid : r.1.valid hd = true := by
      rw [hhd]
      simpa [System.valid] using hlive.mem
    simpa [System.use, hvalid, afterOpen] using huse

theorem closer_invariant (hinv : Invariant id s) {newSem : ℕ} {r : System × Option Handle}
    (hopen : openSem id s newSem = some r) : Invariant id { r.1 with closer := r.2 } := by
  obtain ⟨hr, -, -, hhandle⟩ := openSem_invariant hinv hopen
  refine ⟨hr.table, hr.no_fault, ?_⟩
  cases hh : r.2 with
  | none =>
    rcases hr.absent_or_live with habs | ⟨a, hlive⟩
    · exact Or.inl ⟨habs.no_id, habs.out, rfl⟩
    · exact Or.inr ⟨a, hlive.mem, hlive.id_eq, hlive.lock, hlive.handles, nofun, hlive.unit⟩
  | some hd =>
    obtain ⟨a, hlive, hhd⟩ := hhandle hd hh
    refine Or.inr ⟨a, hlive.mem, hlive.id_eq, hlive.lock, hlive.handles, fun h hc ↦ ?_, hlive.unit⟩
    rw [← Option.some.inj hc]
    exact hhd

theorem Invariant.live_of_handle (hinv : Invariant id s) {process : ℕ} {hd : Handle}
    (hhd : (s.worker process).handle = some hd) :
    ∃ a, Live id s a ∧ hd = ⟨a, s.serial a⟩ := by
  rcases hinv.absent_or_live with habs | ⟨a, hlive⟩
  · rw [habs.out process] at hhd
    cases hhd
  · exact ⟨a, hlive, hlive.handles process hd hhd⟩

theorem step_invariant (hinv : Invariant id s) (hx : Careful s x) (hs : Step id s x s') :
    Invariant id s' := by
  cases x with
  | enter process newSem =>
    simp only [Step, exec] at hs
    split at hs
    · rename_i hout
      obtain ⟨r, hopen, rfl⟩ := Option.map_eq_some_iff.mp hs
      exact enter_invariant hinv hout hopen
    · cases hs
  | wait process =>
    simp only [Step, exec] at hs
    split at hs
    · rename_i hd hworker
      have hhandle : (s.worker process).handle = some hd := by rw [hworker]; rfl
      obtain ⟨a, hlive, rfl⟩ := hinv.live_of_handle hhandle
      obtain ⟨r, hcall, rfl⟩ := Option.map_eq_some_iff.mp hs
      simp only [semWait, hlive.lock] at hcall
      cases hcall
      exact loop_live hlive hinv hhandle (by rw [hworker]; exact not_false) (hx _ hhandle) rfl
        (by simp)
    · cases hs
  | resume process =>
    simp only [Step, exec] at hs
    split at hs
    · rename_i hd hworker
      split at hs
      · have hhandle : (s.worker process).handle = some hd := by rw [hworker]; rfl
        obtain ⟨a, hlive, rfl⟩ := hinv.live_of_handle hhandle
        cases hs
        exact loop_live hlive hinv hhandle (by rw [hworker]; exact not_false) (hx _ hhandle) rfl
          (by simp)
      · cases hs
    · cases hs
  | post process =>
    simp only [Step, exec] at hs
    split at hs
    · rename_i hd hworker
      have hhandle : (s.worker process).handle = some hd := by rw [hworker]; rfl
      obtain ⟨a, hlive, hhd⟩ := hinv.live_of_handle hhandle
      obtain ⟨⟨k, i⟩, hpost, rfl⟩ := Option.map_eq_some_iff.mp hs
      exact post_live hlive hinv hworker hpost
    · cases hs
  | openCloser newSem =>
    simp only [Step, exec] at hs
    split at hs
    · obtain ⟨r, hopen, rfl⟩ := Option.map_eq_some_iff.mp hs
      exact closer_invariant hinv hopen
    · cases hs
  | close =>
    simp only [Step, exec] at hs
    split at hs
    · rename_i hd hhd
      obtain ⟨⟨k, i⟩, hclose, rfl⟩ := Option.map_eq_some_iff.mp hs
      exact close_invariant hinv hhd (hx hd hhd) hclose
    · cases hs

/-- In every run in which the semaphore is closed only while no worker has it
open, and no worker waits when the queue is full, at most one worker is in its
critical section and no freed semaphore is used. -/
theorem close_safe {k : Kernel} {tr : List (System × Act)} (hk : TableOk k)
    (hid : ∀ b ∈ k.semaphores, (k.sem b).id ≠ id) (hrun : Run (Step id) (boot k) tr s)
    (hcareful : ∀ e ∈ tr, Careful e.1 e.2) : Always Safe tr s := by
  have hboot : Invariant id (boot k) := ⟨hk, rfl, Or.inl ⟨hid, fun _ ↦ rfl, rfl⟩⟩
  exact hrun.always_of (fun _ _ _ h hx hs ↦ step_invariant h hx hs) (fun _ h ↦ h.safe) hcareful
    hboot

theorem emptyKernel_ok : TableOk emptyKernel :=
  ⟨List.nodup_nil, by simp [emptyKernel], by simp [emptyKernel]⟩

section Perform

instance {h : Handle} : Decidable (QueueRoom s h) :=
  inferInstanceAs (Decidable (¬ ((s.kernel.sem h.address).value = 0 ∧
    (s.kernel.sem h.address).waiting = processLimit)))

def Held (s : System) : Act → Prop
  | .close => ∀ h ∈ s.closer, (s.kernel.sem h.address).waiting ≠ 0
  | .wait process | .resume process => ∀ h ∈ (s.worker process).handle, QueueRoom s h
  | .enter .. | .post _ | .openCloser _ => True

instance : DecidablePred (Held s)
  | .close => inferInstanceAs (Decidable (∀ h ∈ s.closer, (s.kernel.sem h.address).waiting ≠ 0))
  | .wait process | .resume process =>
    inferInstanceAs (Decidable (∀ h ∈ (s.worker process).handle, QueueRoom s h))
  | .enter .. | .post _ | .openCloser _ => inferInstanceAs (Decidable True)

theorem Held.careful {x : Act} (h : Held s x) : Careful s x := by
  cases x with
  | close => exact fun hd hcloser hzero ↦ absurd hzero (h hd hcloser)
  | wait process => exact fun hd hhandle ↦ h hd hhandle
  | resume process => exact fun hd hhandle ↦ h hd hhandle
  | enter process newSem => exact trivial
  | post process => exact trivial
  | openCloser newSem => exact trivial

end Perform

def refusedClose : List Act :=
  [.openCloser 0x3000, .enter 1 0x4000, .wait 1, .enter 2 0x4000, .wait 2, .close, .post 1,
    .resume 2, .post 2]

theorem close_safe_refused : ∃ tr s, Run (Step 50) (boot emptyKernel) tr s ∧
    tr.map Prod.snd = refusedClose ∧ s.closer = some ⟨0x3000, 1⟩ ∧ Always Safe tr s := by
  have hend : (refusedClose.foldlM (fun s x ↦ if Held s x then exec 50 s x else none)
      (boot emptyKernel)).map (fun s ↦ s.closer) = some (some ⟨0x3000, 1⟩) := by decide +kernel
  obtain ⟨s, hs, hcloser⟩ := Option.map_eq_some_iff.mp hend
  obtain ⟨tr, hrun, hacts, hheld⟩ := run_of_checked hs
  exact ⟨tr, s, hrun, hacts, hcloser, close_safe emptyKernel_ok (by simp [emptyKernel]) hrun
    fun e he ↦ (hheld e he).careful⟩

/-- The process that created the workers closes the semaphore while worker 1
is in its critical section. Worker 2 then makes a semaphore of its own. -/
def closedEarly : List Act :=
  [.openCloser 0x3000, .enter 1 0x4000, .wait 1, .close, .enter 2 0x3000, .wait 2]

theorem two_critical : ∃ tr s, Run (Step 50) (boot emptyKernel) tr s ∧
    (s.worker 1).isCritical ∧ (s.worker 2).isCritical := by
  have hend : (closedEarly.foldlM (exec 50) (boot emptyKernel)).map
      (fun s ↦ (s.worker 1, s.worker 2)) =
        some (.critical ⟨0x3000, 1⟩, .critical ⟨0x3000, 3⟩) := by decide +kernel
  obtain ⟨s, hs, heq⟩ := Option.map_eq_some_iff.mp hend
  obtain ⟨tr, hrun, -⟩ := run_of_foldlM hs
  obtain ⟨h1, h2⟩ := Prod.mk.inj heq
  refine ⟨tr, s, hrun, ?_, ?_⟩
  · rw [h1]
    trivial
  · rw [h2]
    trivial

end ShellOS.Ipc.SemaphoreClose
