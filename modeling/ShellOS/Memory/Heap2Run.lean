import ShellOS.Memory.Heap2Invariant

namespace ShellOS.Memory.Heap2Run

open Library.Tiling Library.Links Library.Runs Library.Words Region Heap2 Heap2Invariant Function

variable (L : Layout cdtSize)

/-- The manager and the pointers that `allocMem` has returned and no client
has freed since. -/
structure State where
  manager : MemoryManager
  live : List ℕ

inductive Call
  | alloc (memoryToAllocate : ℕ)
  | free (block : ℕ)
  | write (block : ℕ)

def header (p : ℕ) : ℕ := p - structSize

/-- One call, or one write by a client. A client may change every byte from
its pointer to the end of its block, and so any header record that overlaps them. -/
inductive Step : State → Call → State → Prop
  | alloc {s : State} {r fuel p : ℕ} {m : MemoryManager} :
      r ≤ totalHeapSize → allocMem L fuel s.manager r = some (m, p) →
      Step s (.alloc r) ⟨m, if p = 0 then s.live else p :: s.live⟩
  | free {s : State} {fuel p : ℕ} {m : MemoryManager} :
      p ∈ s.live ∨ p = 0 → freeMem L fuel s.manager p = some m →
      Step s (.free p) ⟨m, s.live.erase p⟩
  | write {s : State} {p : ℕ} {memory : ℕ → MemoryBlock} :
      p ∈ s.live →
      (∀ a, ¬ (header p < a ∧ a < header p + s.manager.size (header p)) →
        memory a = s.manager.block a) →
      Step s (.write p) ⟨{ s.manager with block := memory }, s.live⟩

def boot (memory : ℕ → MemoryBlock) : State := ⟨createMemoryManager L memory, []⟩

def Invariant (s : State) : Prop :=
  (∀ p ∈ s.live, structSize < p) ∧ ∃ A F, Wellformed L s.manager (s.live.map header) A F

variable {L}

theorem boot_invariant (memory : ℕ → MemoryBlock) : Invariant L (boot L memory) := by
  have hs := L.manager_ne_null
  have ha := L.apart
  simp only [cdtSize] at ha
  have h₁ : L.memoryForMemoryManager ≠ L.managedMemory := by unfold totalHeapSize at ha; omega
  have h₂ : L.memoryForMemoryManager + 16 ≠ L.managedMemory := by
    unfold totalHeapSize at ha
    omega
  refine ⟨fun p hp ↦ by simp [boot] at hp, [L.managedMemory], [L.managedMemory], ?_⟩
  have hsize : (createMemoryManager L memory).size L.managedMemory = totalHeapSize := by
    simp [createMemoryManager, MemoryManager.size]
  constructor
  · refine tiles_cons.mpr ⟨rfl, ?_, ?_, by simp⟩
    · rw [boot, hsize]; decide
    · rw [boot, hsize, path_nil]
  · simp [boot]
  · intro b hb
    rw [List.mem_singleton.mp hb, boot, hsize]
    exact ⟨by decide, by decide⟩
  · simp [boot, createMemoryManager, MemoryManager.next, start, endBlock, h₁]
  · simp
  · simp [boot, createMemoryManager, MemoryManager.size, endBlock, h₂]
  · simp [boot, createMemoryManager, MemoryManager.next, endBlock, h₂]
  · rw [boot, List.map_singleton, hsize, List.sum_singleton]
    rfl

theorem header_add (b : ℕ) : header (b + structSize) = b := Nat.add_sub_cancel _ _

theorem alloc_invariant {s : State} {r fuel p : ℕ} {m : MemoryManager} (h : Invariant L s)
    (hin : InRange structSize r) (ha : allocMem L fuel s.manager r = some (m, p)) :
    Invariant L ⟨m, if p = 0 then s.live else p :: s.live⟩ := by
  obtain ⟨hlive, A, F, w⟩ := h
  have hfuel := (allocMem_mono L _ _ (Nat.le_max_left fuel (F.length + 1))).eq ha
  rcases alloc_spec w hin with ⟨-, hnone⟩ | ⟨F₁, b, F₂, m', A', F', -, -, -, hw, -, hsome⟩
  · rw [hnone _ (by omega)] at hfuel
    cases hfuel
    exact ⟨hlive, A, F, w⟩
  · rw [hsome _ (by omega)] at hfuel
    cases hfuel
    have hb : L.managedMemory ≤ b :=
      (hw.tiles.bounds.2 b (hw.live_mem List.mem_cons_self)).1
    have hnull := L.memory_ne_null
    rw [if_neg (by rw [structSize_eq]; omega)]
    refine ⟨?_, A', F', ?_⟩
    · intro p hp
      rcases List.mem_cons.mp hp with rfl | hp
      · omega
      · exact hlive p hp
    · rw [List.map_cons, header_add]
      exact hw

theorem free_invariant {s : State} {fuel p : ℕ} {m : MemoryManager} (h : Invariant L s)
    (hp : p ∈ s.live ∨ p = 0) (hf : freeMem L fuel s.manager p = some m) :
    Invariant L ⟨m, s.live.erase p⟩ := by
  obtain ⟨hlive, A, F, w⟩ := h
  rcases hp with hp | rfl
  · have hfuel := (freeMem_mono L _ _ (Nat.le_max_left fuel (F.length + 1))).eq hf
    obtain ⟨m', hsome, -, hw⟩ := free_spec w (live_perm header hp)
    have hpp : header p + structSize = p := Nat.sub_add_cancel (hlive p hp).le
    rw [hpp] at hsome
    rw [hsome _ (by omega)] at hfuel
    cases hfuel
    exact ⟨fun q hq ↦ hlive q (List.mem_of_mem_erase hq), A, _, hw⟩
  · rw [freeMem_null, Option.some_inj] at hf
    rw [← hf, erase_null hlive]
    exact ⟨hlive, A, F, w⟩

theorem write_wellformed {m : MemoryManager} {live A F : List ℕ} {b : ℕ} {memory : ℕ → MemoryBlock}
    (w : Wellformed L m live A F) (hbA : b ∈ A)
    (hkeep : ∀ a, ¬ (b < a ∧ a < b + m.size b) → memory a = m.block a) :
    Wellformed L { m with block := memory } live A F ∧ ∀ a ∈ A, memory a = m.block a := by
  have hbounds := w.tiles.bounds.2 _ hbA
  have hapart := L.apart
  simp only [heapEnd, cdtSize] at hbounds hapart
  have hA : ∀ a ∈ A, memory a = m.block a := fun a ha ↦
    hkeep a (fun hin ↦ w.tiles.not_mem_inside hbA hin.1 hin.2 ha)
  have hstart : memory (start L) = m.block (start L) :=
    hkeep _ (by simp only [start]; omega)
  have hend : memory (endBlock L) = m.block (endBlock L) :=
    hkeep _ (by simp only [endBlock]; omega)
  have hF : ∀ a ∈ F, memory a = m.block a := fun a ha ↦ hA a (w.free_mem ha)
  refine ⟨?_, hA⟩
  constructor
  · exact w.tiles.congr (fun a ha ↦ by simp only [MemoryManager.size, hA a ha])
  · exact w.perm
  · intro b hb
    simp only [MemoryManager.size, hA b hb]
    exact w.shape b hb
  · refine w.list.congr (fun a ha ↦ ?_)
    rcases List.mem_cons.mp ha with rfl | ha
    · simp only [MemoryManager.next, hstart]
    · simp only [MemoryManager.next, hF a ha]
  · refine w.sorted.imp_of_mem (fun ha hb h ↦ ?_)
    simp only [MemoryManager.size, hF _ ha, hF _ hb]
    exact h
  · simp only [MemoryManager.size, hend]
    exact w.end_size
  · simp only [MemoryManager.next, hend]
    exact w.end_next
  · have hmap : F.map (fun a ↦ (memory a).blockSize) = F.map m.size :=
      List.map_congr_left (fun a ha ↦ by rw [hF a ha]; rfl)
    have hsum := w.free_sum
    rw [← hmap] at hsum
    exact hsum

theorem write_invariant {s : State} {p : ℕ} {memory : ℕ → MemoryBlock} (h : Invariant L s)
    (hp : p ∈ s.live)
    (hkeep : ∀ a, ¬ (header p < a ∧ a < header p + s.manager.size (header p)) →
      memory a = s.manager.block a) :
    Invariant L ⟨{ s.manager with block := memory }, s.live⟩ := by
  obtain ⟨hlive, A, F, w⟩ := h
  have hpA : header p ∈ A := w.live_mem (List.mem_map_of_mem hp)
  exact ⟨hlive, A, F, (write_wellformed w hpA hkeep).1⟩

theorem step_invariant {s t : State} {c : Call} (h : Invariant L s) (hs : Step L s c t) :
    Invariant L t := by
  cases hs with
  | alloc hr ha => exact alloc_invariant h (inRange hr) ha
  | free hp hf => exact free_invariant h hp hf
  | write hp hkeep => exact write_invariant h hp hkeep

/-- After every sequence of calls the blocks tile the heap, the free list
holds each free block once in order of size, the two counters are the sums of
the free and of the live sizes, and the next call returns. -/
theorem heap2_representation (memory : ℕ → MemoryBlock) {tr : List (State × Call)} {s : State}
    (h : Run (Step L) (boot L memory) tr s) :
    (∃ A F, Wellformed L s.manager (s.live.map header) A F) ∧
      heapLeft s.manager + usedHeap s.manager = totalHeapSize ∧
      usedHeap s.manager = ((s.live.map header).map s.manager.size).sum ∧
      (∀ r, r ≤ totalHeapSize → ∃ n, ∀ fuel, n < fuel → (allocMem L fuel s.manager r).isSome) ∧
      ∀ p ∈ s.live, ∃ n, ∀ fuel, n < fuel → (freeMem L fuel s.manager p).isSome := by
  obtain ⟨hlive, A, F, w⟩ := h.invariant (I := Invariant L)
    (fun _ _ _ ha hs ↦ step_invariant ha hs) (boot_invariant memory)
  refine ⟨⟨A, F, w⟩, ?_, w.usedHeap_eq, fun r hr ↦ ⟨F.length, fun fuel hn ↦ ?_⟩,
    fun p hp ↦ ⟨F.length, fun fuel hn ↦ ?_⟩⟩
  · have hall := w.sizes_sum
    rw [w.usedHeap_eq, heapLeft, w.free_sum]
    exact hall
  · rcases alloc_spec w (inRange hr) with
      ⟨-, hnone⟩ | ⟨F₁, b, F₂, m', A', F', -, -, -, -, -, hsome⟩
    · rw [hnone fuel hn]; rfl
    · rw [hsome fuel hn]; rfl
  · obtain ⟨m', hsome, -, -⟩ := free_spec w (live_perm header hp)
    have hpp : header p + structSize = p := Nat.sub_add_cancel (hlive p hp).le
    rw [hpp] at hsome
    rw [hsome fuel hn]; rfl

def kernelHeap : Layout cdtSize := kernelLayout cdtSize (by decide)

section Perform

variable {fuel : ℕ} {s t : State} {c : Call}

def perform (L : Layout cdtSize) (fuel : ℕ) (s : State) : Call → Option State
  | .alloc r =>
    if r ≤ totalHeapSize then
      (allocMem L fuel s.manager r).map fun c ↦ ⟨c.1, if c.2 = 0 then s.live else c.2 :: s.live⟩
    else none
  | .free p =>
    if p ∈ s.live ∨ p = 0 then (freeMem L fuel s.manager p).map fun m ↦ ⟨m, s.live.erase p⟩
    else none
  | .write _ => none

theorem step_perform (h : perform L fuel s c = some t) : Step L s c t := by
  cases c with
  | alloc r =>
    obtain ⟨hr, h⟩ := Option.ite_none_right_eq_some.mp h
    obtain ⟨⟨m, p⟩, hm, rfl⟩ := Option.map_eq_some_iff.mp h
    exact .alloc hr hm
  | free p =>
    obtain ⟨hp, h⟩ := Option.ite_none_right_eq_some.mp h
    obtain ⟨m, hm, rfl⟩ := Option.map_eq_some_iff.mp h
    exact .free hp hm
  | write p => cases h

theorem run_of_perform {calls : List Call} (h : calls.foldlM (perform L fuel) s = some t) :
    ∃ tr, Run (Step L) s tr t ∧ tr.map Prod.snd = calls := by
  obtain ⟨tr, hrun, hcalls⟩ := run_of_foldlM h
  exact ⟨tr, hrun.mono fun _ _ _ hs ↦ step_perform hs, hcalls⟩

end Perform

def fewCalls : List Call := [.alloc 184, .alloc 24, .free 0x600010, .alloc 100]

theorem heap2_representation_few_calls : ∃ tr s,
    Run (Step kernelHeap) (boot kernelHeap fun _ ↦ ⟨0, 0⟩) tr s ∧ tr.map Prod.snd = fewCalls ∧
      (∃ A F, Wellformed kernelHeap s.manager (s.live.map header) A F) ∧ s.live.length = 2 ∧
      usedHeap s.manager = ((s.live.map header).map s.manager.size).sum := by
  have hend : (fewCalls.foldlM (perform kernelHeap 4) (boot kernelHeap fun _ ↦ ⟨0, 0⟩)).map
      (fun s ↦ s.live.length) = some 2 := by decide +kernel
  obtain ⟨s, hs, hlive⟩ := Option.map_eq_some_iff.mp hend
  obtain ⟨tr, hrun, hcalls⟩ := run_of_perform hs
  obtain ⟨hw, -, hused, -⟩ := heap2_representation (fun _ ↦ ⟨0, 0⟩) hrun
  exact ⟨tr, s, hrun, hcalls, hw, hlive, hused⟩

end ShellOS.Memory.Heap2Run
