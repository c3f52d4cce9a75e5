import Mathlib.Data.List.Nodup
import ShellOS.Library.Ring
import ShellOS.Library.Runs
import ShellOS.Sched.Keyboard

namespace ShellOS.Sched.KeyboardRing

open Library.Ring Library.Runs Keyboard Function

/-- The kernel, and the processes that wait for a key, the first to come first. -/
structure System where
  kernel : Kernel
  waiting : List ℕ

inductive Act
  | waitForKeyboard (currentProcess : ℕ)
  | awakeKeyboardQueue

/-- A process waits at most once at a time, and until it is made ready. -/
inductive Step : System → Act → System → Prop
  | waitForKeyboard {s : System} {currentProcess : ℕ} :
      currentProcess ∉ s.waiting →
      Step s (.waitForKeyboard currentProcess)
        ⟨waitForKeyboard s.kernel currentProcess, s.waiting ++ [currentProcess]⟩
  | awakeKeyboardQueue {s : System} :
      Step s .awakeKeyboardQueue
        ⟨awakeKeyboardQueue s.kernel,
          s.waiting.filter fun process ↦ (awakeKeyboardQueue s.kernel).pstate process ≠ 1⟩

/-- The counter is right, and the next key makes ready just the process that
has waited longest. -/
def Fifo (s : System) : Prop :=
  s.kernel.size = s.waiting.length ∧
    ∀ first rest, s.waiting = first :: rest →
      (awakeKeyboardQueue s.kernel).pstate = update s.kernel.pstate first 1

def ringSize : ℕ := maxWaitingKeyboard + 1

def HasNode (s : System) : Act → Prop
  | .waitForKeyboard _ => s.waiting.length < ringSize
  | .awakeKeyboardQueue => True

/-- `addr` lists the nodes of a ring over and over. -/
structure Looped (addr : ℕ → ℕ) (k : Kernel) : Prop where
  next : ∀ i, (k.node (addr i)).next = addr (i + 1)
  distinct : ∀ i j, addr i = addr j ↔ i % ringSize = j % ringSize

structure Holds (addr : ℕ → ℕ) (pos : ℕ) (s : System) : Prop where
  looped : Looped addr s.kernel
  current : s.kernel.current = addr pos
  tail : s.kernel.tail = addr (pos + s.waiting.length)
  size : s.kernel.size = s.waiting.length
  fits : s.waiting.length ≤ ringSize
  nodes : window ringSize (fun i ↦ (s.kernel.node (addr i)).process) pos s.waiting.length = s.waiting
  blocked : ∀ process ∈ s.waiting, s.kernel.pstate process = 0
  once : s.waiting.Nodup

variable {s s' : System} {k : Kernel} {x : Act} {addr : ℕ → ℕ} {pos process : ℕ}

theorem ringSize_pos : 0 < ringSize := Nat.succ_pos _

theorem Looped.mod_eq (h : Looped addr k) (i : ℕ) : addr (i % ringSize) = addr i :=
  (h.distinct _ _).mpr (Nat.mod_mod _ _)

section Kept

theorem Holds.first (h : Holds addr pos s) {first : ℕ} {rest : List ℕ}
    (hw : s.waiting = first :: rest) : (s.kernel.node s.kernel.current).process = first ∧
      window ringSize (fun i ↦ (s.kernel.node (addr i)).process) (pos + 1) rest.length = rest := by
  have hnodes := h.nodes
  rw [hw, List.length_cons, window_pop, List.cons.injEq, h.looped.mod_eq] at hnodes
  rw [h.current]
  exact hnodes

theorem Holds.awake (h : Holds addr pos s) {first : ℕ} {rest : List ℕ}
    (hw : s.waiting = first :: rest) : awakeKeyboardQueue s.kernel =
      { s.kernel with
        size := rest.length, pstate := update s.kernel.pstate first 1, current := addr (pos + 1) } := by
  have hsize := h.size
  rw [hw, List.length_cons] at hsize
  rw [awakeKeyboardQueue, if_neg (by omega), (h.first hw).1, h.current, h.looped.next, hsize]
  rfl

theorem Holds.fifo (h : Holds addr pos s) : Fifo s := by
  refine ⟨h.size, fun first rest hw ↦ ?_⟩
  rw [h.awake hw]

theorem Holds.wait (h : Holds addr pos s) (hnew : process ∉ s.waiting)
    (hroom : s.waiting.length < ringSize) :
    Holds addr pos ⟨waitForKeyboard s.kernel process, s.waiting ++ [process]⟩ := by
  have hlooped : Looped addr (waitForKeyboard s.kernel process) := by
    refine ⟨fun i ↦ ?_, h.looped.distinct⟩
    by_cases hi : addr i = s.kernel.tail
    · simp [waitForKeyboard, hi, ← h.looped.next i]
    · simp [waitForKeyboard, hi, h.looped.next i]
  refine ⟨hlooped, h.current, ?_, ?_, ?_, ?_, fun q hq ↦ ?_, ?_⟩
  · change (s.kernel.node s.kernel.tail).next = _
    rw [h.tail, h.looped.next, List.length_append]
    rfl
  · change (s.kernel.size + 1) % 2 ^ 8 = (s.waiting ++ [process]).length
    rw [h.size, List.length_append, List.length_singleton]
    unfold ringSize maxWaitingKeyboard at hroom
    omega
  · rw [List.length_append]
    exact hroom
  · rw [List.length_append, List.length_singleton]
    let data : ℕ → ℕ := fun i ↦ (s.kernel.node (addr i)).process
    have hpush : window ringSize (update data ((pos + s.waiting.length) % ringSize) process) pos
        (s.waiting.length + 1) = window ringSize data pos s.waiting.length ++ [process] :=
      window_push process hroom
    rw [h.nodes] at hpush
    rw [← hpush]
    apply window_congr ringSize_pos
    intro i hi
    have htail : addr i = s.kernel.tail ↔ i = (pos + s.waiting.length) % ringSize := by
      rw [h.tail, h.looped.distinct, Nat.mod_eq_of_lt hi]
    by_cases hit : addr i = s.kernel.tail
    · simp [waitForKeyboard, hit, ← htail.mp hit]
    · have hne := fun heq ↦ hit (htail.mpr heq)
      simp [waitForKeyboard, data, hit, update_of_ne hne]
  · change update s.kernel.pstate process 0 q = 0
    by_cases hqp : q = process
    · rw [hqp, update_self]
    · rw [update_of_ne hqp]
      exact h.blocked q ((List.mem_append.mp hq).resolve_right (by simpa using hqp))
  · rw [List.nodup_append]
    refine ⟨h.once, List.nodup_singleton _, fun a ha b hb ↦ ?_⟩
    rw [List.mem_singleton.mp hb]
    exact ne_of_mem_of_not_mem ha hnew

theorem Holds.rest (h : Holds addr pos s) {first : ℕ} {rest : List ℕ}
    (hw : s.waiting = first :: rest) : (s.waiting.filter fun process ↦
      (awakeKeyboardQueue s.kernel).pstate process ≠ 1) = rest := by
  have honce := h.once
  rw [hw, List.nodup_cons] at honce
  have hkept : ∀ q ∈ rest, decide (update s.kernel.pstate first 1 q ≠ 1) = true := by
    intro q hq
    have hblocked := h.blocked q (hw ▸ List.mem_cons_of_mem _ hq)
    rw [update_of_ne (ne_of_mem_of_not_mem hq honce.1), hblocked]
    rfl
  rw [h.awake hw, hw, List.filter_cons_of_neg (by simp), List.filter_eq_self]
  exact hkept

theorem Holds.awoken (h : Holds addr pos s) {first : ℕ} {rest : List ℕ}
    (hw : s.waiting = first :: rest) :
    Holds addr (pos + 1) ⟨awakeKeyboardQueue s.kernel, s.waiting.filter fun process ↦
      (awakeKeyboardQueue s.kernel).pstate process ≠ 1⟩ := by
  have honce := h.once
  have hfits := h.fits
  have htail := h.tail
  rw [hw, List.nodup_cons] at honce
  rw [hw, List.length_cons] at hfits htail
  rw [h.rest hw, h.awake hw]
  refine ⟨⟨h.looped.next, h.looped.distinct⟩, rfl, ?_, rfl, Nat.le_of_succ_le hfits,
    (h.first hw).2, fun q hq ↦ ?_, honce.2⟩
  · change s.kernel.tail = addr (pos + 1 + rest.length)
    rw [htail, Nat.add_assoc, Nat.add_comm 1]
  · change update s.kernel.pstate first 1 q = 0
    rw [update_of_ne (ne_of_mem_of_not_mem hq honce.1)]
    exact h.blocked q (hw ▸ List.mem_cons_of_mem _ hq)

/-- When the ring is full the process takes the node of the first one, which
the next key does not make ready. -/
theorem Holds.overflow (h : Holds addr pos s) (hnew : process ∉ s.waiting)
    (hfull : s.waiting.length = ringSize) :
    ¬ Fifo ⟨waitForKeyboard s.kernel process, s.waiting ++ [process]⟩ := by
  intro hfifo
  cases hw : s.waiting with
  | nil =>
    rw [hw] at hfull
    exact absurd hfull (Nat.ne_of_lt ringSize_pos)
  | cons first rest =>
    have hfirst : first ∈ s.waiting := hw ▸ List.mem_cons_self
    have hne : first ≠ process := ne_of_mem_of_not_mem hfirst hnew
    have htail : s.kernel.tail = s.kernel.current := by
      rw [h.tail, h.current, hfull, h.looped.distinct, Nat.add_mod_right]
    have hsize : (waitForKeyboard s.kernel process).size ≠ 0 := by
      change (s.kernel.size + 1) % 2 ^ 8 ≠ 0
      rw [h.size, hfull]
      decide
    have hawake := hfifo.2 first (rest ++ [process]) (by rw [hw]; rfl)
    have hone := congrFun hawake first
    rw [update_self, awakeKeyboardQueue, if_neg hsize] at hone
    have hlast : ((waitForKeyboard s.kernel process).node
        (waitForKeyboard s.kernel process).current).process = process := by
      simp [waitForKeyboard, htail]
    rw [hlast] at hone
    change update (update s.kernel.pstate process 0) process 1 first = 1 at hone
    rw [update_of_ne hne, update_of_ne hne, h.blocked first hfirst] at hone
    exact Nat.zero_ne_one hone

end Kept

section Run

def Ready (s : System) : Prop := ∃ addr pos, Holds addr pos s

theorem step_ready (h : Ready s) (hroom : HasNode s x) (hs : Step s x s') : Ready s' := by
  obtain ⟨addr, pos, h⟩ := h
  cases hs with
  | waitForKeyboard hnew => exact ⟨addr, pos, h.wait hnew hroom⟩
  | awakeKeyboardQueue =>
    cases hw : s.waiting with
    | nil =>
      have hsize : s.kernel.size = 0 := by
        rw [h.size, hw]
        rfl
      have hnone : awakeKeyboardQueue s.kernel = s.kernel := by
        rw [awakeKeyboardQueue, if_pos hsize]
      rw [hnone, List.filter_nil, ← hw]
      exact ⟨addr, pos, h⟩
    | cons first rest =>
      rw [← hw]
      exact ⟨addr, pos + 1, h.awoken hw⟩

theorem step_fifo_iff (h : Ready s) (hs : Step s x s') : Fifo s' ↔ HasNode s x := by
  constructor
  · intro hfifo
    obtain ⟨addr, pos, h⟩ := h
    cases hs with
    | waitForKeyboard hnew =>
      refine lt_of_le_of_ne h.fits (fun hfull ↦ ?_)
      exact h.overflow hnew hfull hfifo
    | awakeKeyboardQueue => trivial
  · intro hroom
    obtain ⟨addr, pos, hready⟩ := step_ready h hroom hs
    exact hready.fifo

end Run

section Boot

variable {aux : ℕ} {newNodes : List ℕ}

theorem linkNodes_spec (node : ℕ → WaitingNode) (hnd : (aux :: newNodes).Nodup) :
    List.IsChain (fun a b ↦ ((linkNodes node aux newNodes).1 a).next = b) (aux :: newNodes) ∧
      (linkNodes node aux newNodes).2 = (aux :: newNodes).getLast (List.cons_ne_nil _ _) ∧
      ∀ a, a ∉ aux :: newNodes → (linkNodes node aux newNodes).1 a = node a := by
  induction newNodes generalizing node aux with
  | nil => exact ⟨List.IsChain.singleton _, rfl, fun a _ ↦ rfl⟩
  | cons b newNodes ih =>
    obtain ⟨haux, hnd⟩ := List.nodup_cons.mp hnd
    obtain ⟨hchain, hlast, hother⟩ :=
      ih (update (update node b ⟨0, 0⟩) aux { update node b ⟨0, 0⟩ aux with next := b }) hnd
    refine ⟨List.isChain_cons_cons.mpr ⟨?_, hchain⟩, ?_, fun a ha ↦ ?_⟩
    · change ((linkNodes _ b newNodes).1 aux).next = b
      rw [hother aux haux, update_self]
    · rw [List.getLast_cons_cons]
      exact hlast
    · change (linkNodes _ b newNodes).1 a = node a
      have hab := List.not_mem_of_not_mem_cons ha
      rw [hother a hab, update_of_ne (List.ne_of_not_mem_cons ha),
        update_of_ne (List.ne_of_not_mem_cons hab)]

theorem init_ready {current : ℕ} (node : ℕ → WaitingNode) (pstate : ℕ → ℕ)
    (hlen : newNodes.length = maxWaitingKeyboard) (hnd : (current :: newNodes).Nodup) :
    Ready ⟨initScheduler node pstate current newNodes, []⟩ := by
  have hsize : (current :: newNodes).length = ringSize := by
    rw [List.length_cons, hlen]
    rfl
  have hlt : ∀ i, i % ringSize < (current :: newNodes).length := by
    intro i
    rw [hsize]
    exact Nat.mod_lt _ ringSize_pos
  let addr : ℕ → ℕ := fun i ↦ (current :: newNodes).get ⟨i % ringSize, hlt i⟩
  let k := initScheduler node pstate current newNodes
  let r := linkNodes (update node current ⟨0, 0⟩) current newNodes
  have hnode : k.node = update r.1 r.2 { r.1 r.2 with next := current } := rfl
  obtain ⟨hchain, hlast, -⟩ := linkNodes_spec (update node current ⟨0, 0⟩) hnd
  have hdistinct : ∀ i j, addr i = addr j ↔ i % ringSize = j % ringSize := by
    intro i j
    exact hnd.getElem_inj_iff
  have hend : r.2 = addr maxWaitingKeyboard := by
    rw [hlast, List.getLast_eq_getElem]
    simp [addr, hlen, ringSize]
  have hnext : ∀ i, (k.node (addr i)).next = addr (i + 1) := by
    intro i
    have hmod := Nat.mod_lt i ringSize_pos
    rw [hnode]
    by_cases hi : addr i = addr maxWaitingKeyboard
    · have hwrap : addr (i + 1) = addr 0 := by
        rw [hdistinct] at hi ⊢
        unfold ringSize maxWaitingKeyboard at hi ⊢
        omega
      rw [hend, hi, update_self, hwrap]
      rfl
    · have hi' : i % ringSize + 1 < ringSize := by
        rw [hdistinct] at hi
        unfold ringSize maxWaitingKeyboard at hi ⊢
        omega
      have hstep : (i + 1) % ringSize = i % ringSize + 1 := by
        rw [← Nat.mod_add_mod, Nat.mod_eq_of_lt hi']
      have hlink := List.isChain_iff_getElem.mp hchain (i % ringSize) (by omega)
      rw [hend, update_of_ne hi]
      simpa [addr, hstep] using hlink
  exact ⟨addr, 0, ⟨hnext, hdistinct⟩, rfl, rfl, rfl, Nat.zero_le _, rfl, by simp, List.nodup_nil⟩

end Boot

/-- From boot the ring is a queue after every call of a run exactly when no
process comes to wait while eleven others do. -/
theorem keyboard_fifo {node : ℕ → WaitingNode} {pstate : ℕ → ℕ} {current : ℕ} {newNodes : List ℕ}
    {tr : List (System × Act)} (hlen : newNodes.length = maxWaitingKeyboard)
    (hnd : (current :: newNodes).Nodup)
    (hrun : Run Step ⟨initScheduler node pstate current newNodes, []⟩ tr s) :
    Always Fifo tr s ↔ ∀ e ∈ tr, HasNode e.1 e.2 := by
  obtain ⟨addr, pos, hholds⟩ := init_ready node pstate hlen hnd
  apply hrun.always_iff (I := Ready) _ _ ⟨addr, pos, hholds⟩ hholds.fifo
  · intro a x b h _ hs hfifo
    exact step_ready h ((step_fifo_iff h hs).mp hfifo) hs
  · intro a x b h _ hs
    exact step_fifo_iff h hs

def freshRing : Kernel :=
  initScheduler (fun _ ↦ ⟨0, 0⟩) (fun _ ↦ 1) 100 (List.range' 101 maxWaitingKeyboard)

section Perform

instance : DecidablePred (HasNode s)
  | .waitForKeyboard _ => inferInstanceAs (Decidable (s.waiting.length < ringSize))
  | .awakeKeyboardQueue => inferInstanceAs (Decidable True)

def perform (s : System) : Act → Option System
  | .waitForKeyboard currentProcess =>
    if currentProcess ∉ s.waiting then
      some ⟨waitForKeyboard s.kernel currentProcess, s.waiting ++ [currentProcess]⟩
    else none
  | .awakeKeyboardQueue => some ⟨awakeKeyboardQueue s.kernel,
      s.waiting.filter fun process ↦ (awakeKeyboardQueue s.kernel).pstate process ≠ 1⟩

theorem step_perform (h : perform s x = some s') : Step s x s' := by
  cases x with
  | waitForKeyboard process =>
    obtain ⟨hnew, h⟩ := Option.ite_none_right_eq_some.mp h
    cases h
    exact .waitForKeyboard hnew
  | awakeKeyboardQueue =>
    cases h
    exact .awakeKeyboardQueue

theorem run_of_perform {acts : List Act}
    (h : acts.foldlM (fun s x ↦ if HasNode s x then perform s x else none) s = some s') :
    ∃ tr, Run Step s tr s' ∧ tr.map Prod.snd = acts ∧ ∀ e ∈ tr, HasNode e.1 e.2 := by
  obtain ⟨tr, hrun, hacts, hroom⟩ := run_of_checked h
  exact ⟨tr, hrun.mono fun _ _ _ hs ↦ step_perform hs, hacts, hroom⟩

end Perform

def waitAgain : List Act :=
  [.waitForKeyboard 7, .waitForKeyboard 8, .awakeKeyboardQueue, .waitForKeyboard 9,
    .waitForKeyboard 7]

theorem keyboard_fifo_wait_again : ∃ tr s, Run Step ⟨freshRing, []⟩ tr s ∧
    tr.map Prod.snd = waitAgain ∧ s.waiting = [8, 9, 7] ∧ Always Fifo tr s := by
  have hend : (waitAgain.foldlM (fun s x ↦ if HasNode s x then perform s x else none)
      ⟨freshRing, []⟩).map (fun s ↦ s.waiting) = some [8, 9, 7] := by decide +kernel
  obtain ⟨s, hs, hwaiting⟩ := Option.map_eq_some_iff.mp hend
  obtain ⟨tr, hrun, hacts, hroom⟩ := run_of_perform hs
  exact ⟨tr, s, hrun, hacts, hwaiting, (keyboard_fifo (by decide) (by decide) hrun).mpr hroom⟩

theorem crowd_run {n : ℕ} (hn : n ≤ ringSize) : ∃ tr s, Run Step ⟨freshRing, []⟩ tr s ∧
    s.waiting = List.range' 1 n ∧ Ready s := by
  induction n with
  | zero => exact ⟨[], _, .nil _, rfl, init_ready _ _ (by decide) (by decide)⟩
  | succ n ih =>
    obtain ⟨tr, s, hrun, hw, hready⟩ := ih (Nat.le_of_succ_le hn)
    have hnew : n + 1 ∉ s.waiting := by
      rw [hw, List.mem_range'_1]
      omega
    have hroom : HasNode s (.waitForKeyboard (n + 1)) := by
      change s.waiting.length < ringSize
      rw [hw, List.length_range']
      exact hn
    have hstep := Step.waitForKeyboard hnew
    refine ⟨_, _, hrun.trans (Run.one hstep), ?_, step_ready hready hroom hstep⟩
    change s.waiting ++ [n + 1] = _
    rw [hw, List.range'_concat, Nat.one_mul, Nat.add_comm 1]

/-- The twelfth process that waits takes the place of the first one. -/
theorem twelfth_waiter : ¬ ∀ node pstate current newNodes tr s,
    newNodes.length = maxWaitingKeyboard → (current :: newNodes).Nodup →
      Run Step ⟨initScheduler node pstate current newNodes, []⟩ tr s → Always Fifo tr s := by
  intro hall
  obtain ⟨tr, s, hrun, hw, addr, pos, hholds⟩ := crowd_run le_rfl
  have hlen : s.waiting.length = ringSize := by
    rw [hw, List.length_range']
  have hnew : ringSize + 1 ∉ s.waiting := by
    rw [hw, List.mem_range'_1]
    omega
  have hlast := hrun.trans (Run.one (Step.waitForKeyboard hnew))
  exact hholds.overflow hnew hlen (hall _ _ _ _ _ _ (by decide) (by decide) hlast).2

end ShellOS.Sched.KeyboardRing
