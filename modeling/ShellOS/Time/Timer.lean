import ShellOS.Library.Fuel
import ShellOS.Library.Words

namespace ShellOS.Time.Timer

open Library.Fuel Library.Links Library.Words Function

structure TimerNode where
  process : ℕ
  seconds : ℕ
  initialTicks : ℕ
  next : ℕ

/-- The timer's nodes by address, the head of the queue, the tick counter, and
the `pstate` and `pid` of the process at each pcb address. Address 0 is `NULL`. -/
structure Kernel where
  node : ℕ → TimerNode
  start : ℕ
  ticks : ℕ
  pstate : ℕ → ℕ
  pid : ℕ → ℕ

namespace Kernel

variable (k : Kernel) (a v : ℕ)

def next : ℕ := (k.node a).next

def setNext : Kernel := { k with node := update k.node a { k.node a with next := v } }

def setState : Kernel := { k with pstate := update k.pstate a v }

/-- `ticks_elapsed()`, as the unsigned operand it is used as. -/
def ticksElapsed : ℕ := u32 k.ticks

end Kernel

def addToQueue (k : Kernel) (newNode current seconds : ℕ) : Kernel :=
  let node := update k.node newNode ⟨current, seconds, k.ticksElapsed, 0⟩
  let k := { k with node := node }
  if k.start = 0 then { k with start := newNode }
  else { k.setNext newNode k.start with start := newNode }

/-- `sleep` up to its call of `runScheduler`. -/
def sleep (k : Kernel) (newNode current seconds : ℕ) : Kernel :=
  (addToQueue k newNode current seconds).setState current 0

theorem sleep_eq (k : Kernel) (newNode current seconds : ℕ) :
    sleep k newNode current seconds =
      { k with
        node := update k.node newNode ⟨current, seconds, k.ticksElapsed, k.start⟩
        start := newNode
        pstate := update k.pstate current 0 } := by
  by_cases hstart : k.start = 0
  · simp only [sleep, addToQueue, hstart, if_true]
    rfl
  · simp only [sleep, addToQueue, hstart, if_false, Kernel.setNext, update_self, update_idem]
    rfl

def due (k : Kernel) (a : ℕ) : Bool :=
  decide ((k.node a).seconds ≤ u32Sub k.ticksElapsed (k.node a).initialTicks / 18)

def handlerLoop : ℕ → Kernel → ℕ → ℕ → Option Kernel
  | 0, _, _, _ => none
  | fuel + 1, k, iterator, prev =>
    if iterator = 0 then some k
    else if due k iterator then
      let k := k.setState (k.node iterator).process 1
      if k.pid (k.node iterator).process = k.pid (k.node prev).process then
        some { k with start := 0 }
      else
        let k := k.setNext prev (k.next iterator)
        handlerLoop fuel k (k.next prev) prev
    else handlerLoop fuel k (k.next iterator) iterator

def tick (k : Kernel) : Kernel := { k with ticks := (k.ticks + 1) % 2 ^ 64 }

def timerHandler (fuel : ℕ) (k : Kernel) : Option Kernel :=
  handlerLoop fuel (tick k) k.start k.start

theorem handlerLoop_mono {n m : ℕ} (k : Kernel) (iterator prev : ℕ) (h : n ≤ m) :
    Extends (handlerLoop n k iterator prev) (handlerLoop m k iterator prev) := by
  induction n generalizing m k iterator prev with
  | zero => exact extends_none _
  | succ n ih =>
    obtain ⟨m, rfl⟩ : ∃ i, m = i + 1 := ⟨m - 1, by omega⟩
    simp only [handlerLoop]
    apply Extends.ite (.refl _)
    refine Extends.ite ?_ (ih _ _ _ (by omega))
    exact Extends.ite (.refl _) (ih _ _ _ (by omega))

structure Queue (k : Kernel) (Q : List ℕ) : Prop where
  path : Path k.next k.start Q 0
  not_null : 0 ∉ Q
  nodup : Q.Nodup

structure SameEntries (k k' : Kernel) : Prop where
  process : ∀ a, (k'.node a).process = (k.node a).process
  seconds : ∀ a, (k'.node a).seconds = (k.node a).seconds
  initialTicks : ∀ a, (k'.node a).initialTicks = (k.node a).initialTicks
  ticks : k'.ticks = k.ticks
  pid : k'.pid = k.pid

/-- A due entry follows an entry that stays, with only due ones between them,
and their processes have the same pid. -/
def Clash (k : Kernel) (Q : List ℕ) : Prop :=
  ∃ l₁ a l₂ b l₃, Q = l₁ ++ a :: (l₂ ++ b :: l₃) ∧ due k a = false ∧ (∀ x ∈ l₂, due k x = true) ∧
    due k b = true ∧ k.pid (k.node b).process = k.pid (k.node a).process

def wokenBy (k : Kernel) (Q : List ℕ) (p : ℕ) : ℕ :=
  if p ∈ (Q.filter (due k)).map (fun a ↦ (k.node a).process) then 1 else k.pstate p

variable {k k' : Kernel} {Q rest kept : List ℕ} {a b prev : ℕ}

theorem queue_nil (h : k.start = 0) : Queue k [] := ⟨h, List.not_mem_nil, List.nodup_nil⟩

theorem Queue.unique {Q' : List ℕ} (h : Queue k Q) (h' : Queue k Q') : Q = Q' :=
  h.path.unique h'.path h.not_null h'.not_null

theorem Queue.shorter {Q' : List ℕ} (h : Queue k Q) (hp : Path k'.next k'.start Q' 0)
    (hsub : Q'.Sublist Q) : Queue k' Q' :=
  ⟨hp, fun h0 ↦ h.not_null (hsub.mem h0), h.nodup.sublist hsub⟩

theorem Queue.congr (h : Queue k Q) (hnode : k'.node = k.node) (hstart : k'.start = k.start) :
    Queue k' Q := by
  have hnext : k'.next = k.next := by
    funext a
    exact congrArg (fun node ↦ (node a).next) hnode
  refine ⟨?_, h.not_null, h.nodup⟩
  rw [hnext, hstart]
  exact h.path

namespace SameEntries

theorem refl (k : Kernel) : SameEntries k k :=
  ⟨fun _ ↦ rfl, fun _ ↦ rfl, fun _ ↦ rfl, rfl, rfl⟩

theorem trans {k'' : Kernel} (h : SameEntries k k') (h' : SameEntries k' k'') :
    SameEntries k k'' :=
  ⟨fun a ↦ (h'.process a).trans (h.process a), fun a ↦ (h'.seconds a).trans (h.seconds a),
    fun a ↦ (h'.initialTicks a).trans (h.initialTicks a), h'.ticks.trans h.ticks,
    h'.pid.trans h.pid⟩

theorem due_eq (h : SameEntries k k') : due k' = due k := by
  funext a
  unfold due Kernel.ticksElapsed
  rw [h.seconds, h.initialTicks, h.ticks]

theorem clash_iff (h : SameEntries k k') : Clash k' Q ↔ Clash k Q := by
  simp only [Clash, h.due_eq, h.pid, h.process]

theorem setState (k : Kernel) (p v : ℕ) : SameEntries k (k.setState p v) :=
  ⟨fun _ ↦ rfl, fun _ ↦ rfl, fun _ ↦ rfl, rfl, rfl⟩

theorem setNext (k : Kernel) (a v : ℕ) : SameEntries k (k.setNext a v) := by
  have hnode : ∀ b, (k.setNext a v).node b =
      { k.node b with next := if b = a then v else (k.node b).next } := by
    intro b
    by_cases hb : b = a
    · simp [Kernel.setNext, hb]
    · simp [Kernel.setNext, hb]
  exact ⟨fun b ↦ by rw [hnode], fun b ↦ by rw [hnode], fun b ↦ by rw [hnode], rfl, rfl⟩

end SameEntries

theorem next_setNext (k : Kernel) (a v : ℕ) : (k.setNext a v).next = update k.next a v := by
  funext b
  by_cases hb : b = a
  · simp [Kernel.setNext, Kernel.next, hb]
  · simp [Kernel.setNext, Kernel.next, hb]

theorem clash_due (hprev : due k prev = false) (hb : due k b = true) :
    Clash k (prev :: b :: rest) ↔
      k.pid (k.node b).process = k.pid (k.node prev).process ∨ Clash k (prev :: rest) := by
  constructor
  · rintro ⟨l₁, x, l₂, y, l₃, hQ, hx, hl, hy, hpid⟩
    rcases l₁ with - | ⟨z, - | ⟨w, l₁⟩⟩
    · simp only [List.nil_append, List.cons.injEq] at hQ
      obtain ⟨rfl, hQ⟩ := hQ
      cases l₂ with
      | nil =>
        simp only [List.nil_append, List.cons.injEq] at hQ
        exact Or.inl (hQ.1 ▸ hpid)
      | cons z l₂ =>
        simp only [List.cons_append, List.cons.injEq] at hQ
        exact Or.inr ⟨[], prev, l₂, y, l₃, by rw [hQ.2]; rfl, hx,
          fun w hw ↦ hl w (List.mem_cons_of_mem _ hw), hy, hpid⟩
    · simp only [List.cons_append, List.nil_append, List.cons.injEq] at hQ
      rw [← hQ.2.1, hb] at hx
      cases hx
    · simp only [List.cons_append, List.cons.injEq] at hQ
      exact Or.inr ⟨prev :: l₁, x, l₂, y, l₃, by rw [hQ.2.2]; rfl, hx, hl, hy, hpid⟩
  · rintro (hpid | ⟨l₁, x, l₂, y, l₃, hQ, hx, hl, hy, hpid⟩)
    · exact ⟨[], prev, [], b, rest, rfl, hprev, by simp, hb, hpid⟩
    · cases l₁ with
      | nil =>
        simp only [List.nil_append, List.cons.injEq] at hQ
        refine ⟨[], prev, b :: l₂, y, l₃, by rw [hQ.2]; rfl, hprev, fun w hw ↦ ?_, hy, hQ.1 ▸ hpid⟩
        rcases List.mem_cons.mp hw with rfl | hw
        · exact hb
        · exact hl w hw
      | cons z l₁ =>
        simp only [List.cons_append, List.cons.injEq] at hQ
        exact ⟨prev :: b :: l₁, x, l₂, y, l₃, by rw [hQ.2]; rfl, hx, hl, hy, hpid⟩

theorem clash_not_due (hb : due k b = false) :
    Clash k (prev :: b :: rest) ↔ Clash k (b :: rest) := by
  constructor
  · rintro ⟨l₁, x, l₂, y, l₃, hQ, hx, hl, hy, hpid⟩
    rcases l₁ with - | ⟨z, l₁⟩
    · simp only [List.nil_append, List.cons.injEq] at hQ
      rcases l₂ with - | ⟨z, l₂⟩
      · simp only [List.nil_append, List.cons.injEq] at hQ
        rw [← hQ.2.1, hb] at hy
        cases hy
      · simp only [List.cons_append, List.cons.injEq] at hQ
        have hz := hl z List.mem_cons_self
        rw [← hQ.2.1, hb] at hz
        cases hz
    · simp only [List.cons_append, List.cons.injEq] at hQ
      exact ⟨l₁, x, l₂, y, l₃, hQ.2, hx, hl, hy, hpid⟩
  · rintro ⟨l₁, x, l₂, y, l₃, hQ, hx, hl, hy, hpid⟩
    exact ⟨prev :: l₁, x, l₂, y, l₃, by rw [hQ]; rfl, hx, hl, hy, hpid⟩

theorem clash_singleton : ¬ Clash k [a] := by
  rintro ⟨l₁, x, l₂, y, l₃, hQ, -⟩
  have hlen := congrArg List.length hQ
  simp only [List.length_append, List.length_cons, List.length_nil] at hlen
  omega

end ShellOS.Time.Timer
