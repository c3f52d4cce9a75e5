import ShellOS.Memory.BuddySpec

namespace ShellOS.Memory.BuddyRun

open Library.Fuel Library.Links Library.Runs Library.Tiling Region Buddy BuddyInvariant BuddySpec

variable (L : Layout cdtSize)

/-- The manager and the pointers that `allocMem` has returned and no client
has freed since. -/
structure State where
  manager : MemoryManager
  live : List ℕ

inductive Call
  | alloc (memoryToAllocate : ℕ)
  | free (block : ℕ)
  | write (block : ℕ)

def header (p : ℕ) : ℕ := p - structSize

/-- `m'` differs from `m` at most in header records that begin inside the
block of `b`. -/
def Within (m m' : MemoryManager) (b : ℕ) : Prop :=
  m'.freeBytesRemaining = m.freeBytesRemaining ∧ ∀ a, ¬ (b < a ∧ a < b + m.blockSize b) →
    m'.free a = m.free a ∧ m'.history a = m.history a ∧ m'.blockSize a = m.blockSize a ∧
      m'.nextFreeBlock a = m.nextFreeBlock a

/-- One call, or one write by a client, which may change every byte from its
pointer to the end of its block. -/
inductive Step : State → Call → State → Prop
  | alloc {s : State} {r fuel p : ℕ} {m : MemoryManager} :
      r < 2 ^ 32 → allocMem L fuel s.manager r = some (m, p) →
      Step s (.alloc r) ⟨m, if p = 0 then s.live else p :: s.live⟩
  | free {s : State} {fuel p : ℕ} {m : MemoryManager} :
      p ∈ s.live ∨ p = 0 → freeMem L fuel s.manager p = some m →
      Step s (.free p) ⟨m, s.live.erase p⟩
  | write {s : State} {p : ℕ} {m : MemoryManager} :
      p ∈ s.live → Within s.manager m (header p) → Step s (.write p) ⟨m, s.live⟩

def boot (memory : MemoryManager) : State := ⟨createMemoryManager L memory, []⟩

def Invariant (s : State) : Prop :=
  (∀ p ∈ s.live, structSize < p) ∧ ∃ A F, Wellformed L s.manager [] (s.live.map header) A F

def FreeList (m : MemoryManager) (F : List ℕ) : Prop :=
  Lists m.nextFreeBlock (start L) (endBlock L) F

variable {L}

theorem freeList_of {m : MemoryManager} {transit live A F : List ℕ}
    (w : Wellformed L m transit live A F) : FreeList L m F :=
  ⟨w.list, w.end_not_mem_list⟩

theorem boot_wellformed (memory : MemoryManager) :
    Wellformed L (createMemoryManager L memory) [] [] [L.managedMemory] [L.managedMemory] := by
  have ha := L.apart
  simp only [cdtSize, totalHeapSize] at ha
  have h₁ : L.memoryForMemoryManager ≠ L.managedMemory := by omega
  have h₂ : L.memoryForMemoryManager + 24 ≠ L.managedMemory := by omega
  have hsize : (createMemoryManager L memory).blockSize L.managedMemory = totalHeapSize := by
    simp [createMemoryManager]
  constructor
  · refine tiles_cons.mpr ⟨rfl, ?_, ?_, by simp⟩
    · rw [hsize]; decide
    · rw [hsize, path_nil]
  · simp
  · intro b hb
    rw [List.mem_singleton.mp hb]
    refine ⟨27, by omega, le_rfl, hsize.trans totalHeapSize_eq, ?_⟩
    simp [createMemoryManager]
  · simp [createMemoryManager]
  · simp
  · simp [createMemoryManager, start, endBlock, h₁]
  · simp
  · simp [createMemoryManager, endBlock, h₂]
  · simp [createMemoryManager, endBlock, h₂]

theorem boot_invariant (memory : MemoryManager) : Invariant L (boot L memory) :=
  ⟨fun p hp ↦ by simp [boot] at hp, _, _, boot_wellformed memory⟩

theorem header_add (b : ℕ) : header (b + structSize) = b := Nat.add_sub_cancel _ _

theorem add_structSize_ne_null (b : ℕ) : b + structSize ≠ 0 := by
  have hstruct : 0 < structSize := by decide
  omega

theorem alloc_invariant {s : State} {r fuel p : ℕ} {m : MemoryManager} (h : Invariant L s)
    (ha : allocMem L fuel s.manager r = some (m, p)) :
    Invariant L ⟨m, if p = 0 then s.live else p :: s.live⟩ := by
  obtain ⟨hlive, A, F, w⟩ := h
  have hfuel := (allocMem_mono L _ _ (Nat.le_max_left fuel (F.length + 19))).eq ha
  rcases alloc_spec w r with ⟨-, hnone⟩ | ⟨F₁, b, F₂, m', A', F', -, -, -, -, -, -, hw, -, -, hsome⟩
  · rw [hnone _ (by omega)] at hfuel
    cases hfuel
    exact ⟨hlive, A, F, w⟩
  · rw [hsome _ (by omega)] at hfuel
    cases hfuel
    have hb : L.managedMemory ≤ b :=
      (hw.tiles.bounds.2 b (hw.live_mem List.mem_cons_self)).1
    have hnull := L.memory_ne_null
    rw [if_neg (by omega)]
    refine ⟨?_, A', F', ?_⟩
    · intro p hp
      rcases List.mem_cons.mp hp with rfl | hp
      · omega
      · exact hlive p hp
    · rw [List.map_cons, header_add]
      exact hw

theorem header_ne_null {s : State} {A F : List ℕ} {p : ℕ}
    (w : Wellformed L s.manager [] (s.live.map header) A F) (hp : p ∈ s.live) : header p ≠ 0 := by
  have h := (w.tiles.bounds.2 _ (w.live_mem (List.mem_map_of_mem hp))).1
  have hnull := L.memory_ne_null
  omega

theorem free_invariant {s : State} {fuel p : ℕ} {m : MemoryManager} (h : Invariant L s)
    (hp : p ∈ s.live ∨ p = 0) (hf : freeMem L fuel s.manager p = some m) :
    Invariant L ⟨m, s.live.erase p⟩ := by
  obtain ⟨hlive, A, F, w⟩ := h
  rcases hp with hp | rfl
  · have hfuel := (freeMem_mono L _ _ (Nat.le_max_left fuel (F.length + 19))).eq hf
    obtain ⟨m', v, A', F', hsome, hw, -⟩ := free_spec w (live_perm header hp) (header_ne_null w hp)
    have hpp : header p + structSize = p := Nat.sub_add_cancel (hlive p hp).le
    rw [hpp] at hsome
    rw [hsome _ (by omega)] at hfuel
    cases hfuel
    exact ⟨fun q hq ↦ hlive q (List.mem_of_mem_erase hq), A', F', hw⟩
  · rw [freeMem_null, Option.some_inj] at hf
    rw [← hf, erase_null hlive]
    exact ⟨hlive, A, F, w⟩

theorem write_wellformed {m m' : MemoryManager} {live A F : List ℕ} {b : ℕ}
    (w : Wellformed L m [] live A F) (hbA : b ∈ A) (hw : Within m m' b) :
    Wellformed L m' [] live A F ∧ ∀ a ∈ A, m'.blockSize a = m.blockSize a := by
  have hbounds := w.tiles.bounds.2 _ hbA
  have hapart := L.apart
  simp only [heapEnd, cdtSize] at hbounds hapart
  have hA := fun a (ha : a ∈ A) ↦
    hw.2 a (fun hin ↦ w.tiles.not_mem_inside hbA hin.1 hin.2 ha)
  have hstart := hw.2 (start L) (by simp only [start]; omega)
  have hend := hw.2 (endBlock L) (by simp only [endBlock]; omega)
  refine ⟨?_, fun a ha ↦ (hA a ha).2.2.1⟩
  constructor
  · exact w.tiles.congr (fun a ha ↦ (hA a ha).2.2.1)
  · exact w.perm
  · intro b hb
    obtain ⟨-, hh, hs, -⟩ := hA b hb
    unfold Shaped
    rw [hh, hs]
    exact w.shape b hb
  · intro b hb
    rw [(hA b (w.free_mem hb)).1]
    exact w.free_flag b hb
  · intro b hb
    rw [(hA b (w.live_mem hb)).1]
    exact w.live_flag b hb
  · refine w.list.congr (fun a ha ↦ ?_)
    rcases List.mem_cons.mp ha with rfl | ha
    · exact hstart.2.2.2
    · exact (hA a (w.free_mem ha)).2.2.2
  · refine w.sorted.imp_of_mem (fun {a b} ha hb hab ↦ ?_)
    rw [(hA a (w.free_mem ha)).2.2.1, (hA b (w.free_mem hb)).2.2.1]
    exact hab
  · rw [hend.2.2.1]
    exact w.end_size
  · rw [hend.2.2.2]
    exact w.end_next

theorem write_invariant {s : State} {p : ℕ} {m : MemoryManager} (h : Invariant L s)
    (hp : p ∈ s.live) (hw : Within s.manager m (header p)) : Invariant L ⟨m, s.live⟩ := by
  obtain ⟨hlive, A, F, w⟩ := h
  have hpA : header p ∈ A := w.live_mem (List.mem_map_of_mem hp)
  exact ⟨hlive, A, F, (write_wellformed w hpA hw).1⟩

theorem step_invariant {s t : State} {c : Call} (h : Invariant L s) (hs : Step L s c t) :
    Invariant L t := by
  cases hs with
  | alloc hr ha => exact alloc_invariant h ha
  | free hp hf => exact free_invariant h hp hf
  | write hp hw => exact write_invariant h hp hw

/-- After every sequence of calls the blocks tile the heap, each has a power
of two as its size and lies at `history` times that size, the free list holds
exactly the blocks whose flag is set, in order of size, and the next call returns. -/
theorem buddy_representation (memory : MemoryManager) {tr : List (State × Call)} {s : State}
    (h : Run (Step L) (boot L memory) tr s) :
    (∃ A F, Wellformed L s.manager [] (s.live.map header) A F ∧ F.Nodup ∧
      ∀ b ∈ A, b ∈ F ↔ s.manager.free b = 1) ∧
      (∀ r, r < 2 ^ 32 → ∃ n, ∀ fuel, n < fuel → (allocMem L fuel s.manager r).isSome) ∧
      ∀ p ∈ s.live, ∃ n, ∀ fuel, n < fuel → (freeMem L fuel s.manager p).isSome := by
  obtain ⟨hlive, A, F, w⟩ := h.invariant (I := Invariant L)
    (fun _ _ _ ha hs ↦ step_invariant ha hs) (boot_invariant memory)
  refine ⟨⟨A, F, w, (List.nodup_cons.mp w.list_nodup).2, fun b hb ↦ ⟨w.free_flag b, fun hf ↦ ?_⟩⟩,
    fun r _ ↦ ⟨F.length + 18, fun fuel hn ↦ ?_⟩, fun p hp ↦ ⟨F.length + 18, fun fuel hn ↦ ?_⟩⟩
  · have hmem := w.perm.mem_iff.mp hb
    simp only [List.nil_append, List.mem_append] at hmem
    rcases hmem with hmem | hmem
    · exact hmem
    · have h0 := w.live_flag b hmem
      omega
  · rcases alloc_spec w r with ⟨-, hnone⟩ | ⟨F₁, b, F₂, m', A', F', -, -, -, -, -, -, -, -, -, hsome⟩
    · rw [hnone fuel (by omega)]; rfl
    · rw [hsome fuel hn]; rfl
  · obtain ⟨m', v, A', F', hsome, -⟩ := free_spec w (live_perm header hp) (header_ne_null w hp)
    have hpp : header p + structSize = p := Nat.sub_add_cancel (hlive p hp).le
    rw [hpp] at hsome
    rw [hsome fuel hn]; rfl

def kernelHeap : Layout cdtSize := kernelLayout cdtSize (by decide)

def blank : MemoryManager := ⟨fun _ ↦ 0, fun _ ↦ 0, fun _ ↦ 0, fun _ ↦ 0, 0⟩

section Perform

variable {fuel : ℕ} {s t : State} {c : Call}

def perform (L : Layout cdtSize) (fuel : ℕ) (s : State) : Call → Option State
  | .alloc r =>
    if r < 2 ^ 32 then
      (allocMem L fuel s.manager r).map fun c ↦ ⟨c.1, if c.2 = 0 then s.live else c.2 :: s.live⟩
    else none
  | .free p =>
    if p ∈ s.live ∨ p = 0 then (freeMem L fuel s.manager p).map fun m ↦ ⟨m, s.live.erase p⟩
    else none
  | .write _ => none

theorem step_perform (h : perform L fuel s c = some t) : Step L s c t := by
  cases c with
  | alloc r =>
    obtain ⟨hr, h⟩ := Option.ite_none_right_eq_some.mp h
    obtain ⟨⟨m, p⟩, hm, rfl⟩ := Option.map_eq_some_iff.mp h
    exact .alloc hr hm
  | free p =>
    obtain ⟨hp, h⟩ := Option.ite_none_right_eq_some.mp h
    obtain ⟨m, hm, rfl⟩ := Option.map_eq_some_iff.mp h
    exact .free hp hm
  | write p => cases h

theorem run_of_perform {calls : List Call} (h : calls.foldlM (perform L fuel) s = some t) :
    ∃ tr, Run (Step L) s tr t ∧ tr.map Prod.snd = calls := by
  obtain ⟨tr, hrun, hcalls⟩ := run_of_foldlM h
  exact ⟨tr, hrun.mono fun _ _ _ hs ↦ step_perform hs, hcalls⟩

end Perform

def fewCalls : List Call := [.alloc 1000, .alloc 1000, .alloc 70000, .free 6291480]

theorem buddy_representation_few_calls : ∃ tr s, Run (Step kernelHeap) (boot kernelHeap blank) tr s ∧
    tr.map Prod.snd = fewCalls ∧ s.live.length = 2 ∧
      ∃ A F, Wellformed kernelHeap s.manager [] (s.live.map header) A F := by
  have hend : (fewCalls.foldlM (perform kernelHeap 20) (boot kernelHeap blank)).map
      (fun s ↦ s.live.length) = some 2 := by decide +kernel
  obtain ⟨s, hs, hlive⟩ := Option.map_eq_some_iff.mp hend
  obtain ⟨tr, hrun, hcalls⟩ := run_of_perform hs
  obtain ⟨⟨A, F, hw, -, -⟩, -, -⟩ := buddy_representation blank hrun
  exact ⟨tr, s, hrun, hcalls, hlive, A, F, hw⟩

end ShellOS.Memory.BuddyRun
