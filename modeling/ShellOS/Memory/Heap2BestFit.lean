import ShellOS.Memory.Heap2Run

namespace ShellOS.Memory.Heap2BestFit

open Library.Links Library.Runs Region Heap2 Heap2Invariant Heap2Run

variable (L : Layout cdtSize)

/-- One call, or one write by a client, where a request is any number that
32 bits hold: the system call hands it on as user code gave it. A wrapped sum
can leave blocks that are shorter than a header, and headers that overlap. -/
inductive Step : State → Call → State → Prop
  | alloc {s : State} {r fuel p : ℕ} {m : MemoryManager} :
      r < 2 ^ 32 → allocMem L fuel s.manager r = some (m, p) →
      Step s (.alloc r) ⟨m, if p = 0 then s.live else p :: s.live⟩
  | other {s t : State} {c : Call} :
      (∀ r, c ≠ .alloc r) → Heap2Run.Step L s c t → Step s c t

/-- The sum of a request and its header does not wrap around, or there is no
free block that a wrapped sum could be found in. -/
def Answerable (s : State) (r : ℕ) : Prop :=
  InRange structSize r ∨ s.manager.next (start L) = endBlock L

def Requests (s : State) : Call → Prop
  | .alloc r => Answerable L s r
  | _ => True

def FreeList (m : MemoryManager) (F : List ℕ) : Prop :=
  Lists m.next (start L) (endBlock L) F

def Returns (m : MemoryManager) (r : ℕ) (m' : MemoryManager) (p : ℕ) : Prop :=
  Answers (fun fuel ↦ allocMem L fuel m r) (m', p)

variable {L} {m m' m₁ : MemoryManager} {s t : State} {live A F F' : List ℕ} {r p p₁ : ℕ}

theorem freeList_of (w : Wellformed L m live A F) : FreeList L m F := by
  refine ⟨w.list, fun h ↦ ?_⟩
  rcases List.mem_cons.mp h with h | h
  · simp [endBlock, start] at h
  · exact w.end_not_mem (w.free_mem h)

theorem free_nil_iff (w : Wellformed L m live A F) : m.next (start L) = endBlock L ↔ F = [] :=
  w.list.next_eq_end_iff fun h ↦ w.end_not_mem (w.free_mem h)

theorem alloc_nil (w : Wellformed L m live A []) (r : ℕ) {n : ℕ} (hn : 0 < n) :
    allocMem L n m r = some (m, 0) := by
  by_cases hr : r = 0
  · simp [allocMem, hr]
  by_cases hlt : requestSize structSize r < totalHeapSize
  · rcases findBlock_spec w (requestSize structSize r) hlt.le with
      ⟨-, q, hfind⟩ | ⟨F₁, b, F₂, hF, -⟩
    · simp [allocMem, hr, hlt, hfind n hn]
    · simp at hF
  · simp [allocMem, hr, hlt]

theorem step_invariant {c : Call} (h : Invariant L s) (hok : Requests L s c) (hs : Step L s c t) :
    Invariant L t := by
  cases hs with
  | other hc hs => exact Heap2Run.step_invariant h hs
  | @alloc r fuel p m hr ha =>
    rcases hok with hin | hnil
    · exact alloc_invariant h hin ha
    · obtain ⟨hlive, A, F, w⟩ := h
      obtain rfl := (free_nil_iff w).mp hnil
      have hfuel := (allocMem_mono L _ _ (Nat.le_max_left fuel 1)).eq ha
      rw [alloc_nil w r (by omega)] at hfuel
      cases hfuel
      exact ⟨hlive, A, [], w⟩

theorem run_invariant {memory : ℕ → MemoryBlock} {tr : List (State × Call)}
    (h : Run (Step L) (boot L memory) tr s) (hok : ∀ e ∈ tr, Requests L e.1 e.2) :
    Invariant L s :=
  h.invariant_of (fun _ _ _ ha hreq hs ↦ step_invariant ha hreq hs) hok (boot_invariant memory)

/-- The free block `b` was taken: it is a smallest one that is large enough,
what is left of it beyond the need is free again, and the other blocks are as before. -/
structure Carved (m m' : MemoryManager) (F F' : List ℕ) (need b : ℕ) : Prop where
  free : b ∈ F
  least : ∀ x ∈ F, need ≤ m.size x → m.size b ≤ m.size x
  fits : need ≤ m'.size b
  tight : m'.size b ≤ need + minimumBlockSize
  rest : m'.size b = m.size b ∧ F'.Perm (F.erase b) ∨
    m'.size b + m'.size (b + m'.size b) = m.size b ∧ F'.Perm ((b + m'.size b) :: F.erase b)
  kept : ∀ x ∈ F, x ≠ b → m'.size x = m.size x

variable (L)

def BestFit (m : MemoryManager) (r : ℕ) : Prop :=
  ∃ m' p F F', Returns L m r m' p ∧ FreeList L m F ∧ FreeList L m' F' ∧
    (p = 0 ↔ ∀ b ∈ F, m.size b < needed structSize r) ∧ (p = 0 → m' = m) ∧
    (p ≠ 0 → Carved m m' F F' (needed structSize r) (header p))

def WholeHeapFree (m : MemoryManager) : Prop :=
  ∃ F, FreeList L m F ∧ ∃ b ∈ F, m.size b = totalHeapSize

variable {L}

theorem carved_of_taken {F₁ F₂ A' : List ℕ} {b need : ℕ}
    (w : Wellformed L m live A (F₁ ++ b :: F₂)) (hF₁ : ∀ x ∈ F₁, m.size x < need)
    (hneed : need ≤ m.size b) (ht : Taken m m' need b F₁ F₂ A A' F') :
    Carved m m' (F₁ ++ b :: F₂) F' need b := by
  have herase := erase_middle w.nodup.of_append_left
  refine ⟨by simp, fun x hx hle ↦ first_le_of_sorted w.sorted hF₁ hx hle, ?_, ?_, ?_,
    fun x hx hxb ↦ ht.size_ne x (w.free_mem hx) hxb⟩
  · rcases ht.whole_or_cut with ⟨hs, -⟩ | ⟨hs, -⟩
    · exact hs ▸ hneed
    · exact hs.ge
  · rcases ht.whole_or_cut with ⟨hs, hle, -⟩ | ⟨hs, -⟩
    · exact hs ▸ hle
    · rw [hs]
      exact Nat.le_add_right _ _
  · rw [herase]
    rcases ht.whole_or_cut with ⟨hs, -, -, rfl⟩ | ⟨hs, hadd, -, -, hF'⟩
    · exact Or.inl ⟨hs, .refl _⟩
    · right
      rw [hs, Nat.add_comm]
      exact ⟨hadd, hF'⟩

/-- A request in range is served best unless it needs the whole heap, which
the guard of `allocMem` refuses although it is free. -/
theorem bestFit_iff (w : Wellformed L m live A F) (hr : r ≠ 0) (hin : InRange structSize r) :
    BestFit L m r ↔ ¬ (needed structSize r = totalHeapSize ∧ WholeHeapFree L m) := by
  have hfree := freeList_of w
  have hsize_eq := requestSize_eq hin
  constructor
  · rintro ⟨m', p, F', -, hret, hF, -, hiff, -⟩ ⟨hneed, F'', hF'', b, hb, hsize⟩
    have hnull : Returns L m r m 0 := ⟨0, fun n _ ↦ by simp [allocMem, hr, hsize_eq, hneed]⟩
    obtain ⟨-, rfl⟩ := Prod.mk.inj (hret.unique hnull)
    obtain rfl := hF.unique hF''
    have hlt := hiff.mp rfl b hb
    omega
  · intro hwhole
    have hspec := alloc_spec w hin
    simp only [hsize_eq] at hspec
    rcases hspec with ⟨hnot, hnone⟩ | ⟨F₁, b, F₂, m', A', F', rfl, hF₁, hb, hw, ht, hsome⟩
    · refine ⟨m, 0, F, F, ⟨F.length, hnone⟩, hfree, hfree, ⟨fun _ b hb ↦ ?_, fun _ ↦ rfl⟩,
        fun _ ↦ rfl, fun h ↦ absurd rfl h⟩
      by_contra hle
      have hsize := w.size_le (w.free_mem hb)
      rcases hnot with h0 | hbig | hsmall
      · exact hr h0
      · exact hwhole ⟨by omega, F, hfree, b, hb, by omega⟩
      · exact hle (hsmall b hb)
    · have hp : b + structSize ≠ 0 := by rw [structSize_eq]; omega
      refine ⟨_, _, _, F', ⟨_, hsome⟩, hfree, freeList_of hw, ⟨fun h ↦ absurd h hp, fun hall ↦ ?_⟩,
        fun h ↦ absurd h hp, fun _ ↦ ?_⟩
      · have hlt := hall b (by simp)
        omega
      · rw [header_add]
        have hc := carved_of_taken w hF₁ hb ht
        exact ⟨hc.free, hc.least, by simpa using hc.fits, by simpa using hc.tight,
          by simpa using hc.rest, by simpa using hc.kept⟩

/-- In every run whose requests can be answered, a request is answered by
the null pointer exactly when no free block is large enough, and else with a
smallest such block, unless it needs all of a heap that is free as a whole. -/
theorem heap2_best_fit {memory : ℕ → MemoryBlock} {tr : List (State × Call)}
    (h : Run (Step L) (boot L memory) tr s) (hok : ∀ e ∈ tr, Requests L e.1 e.2) {r : ℕ}
    (hr : 1 ≤ r) (hle : r ≤ totalHeapSize) :
    BestFit L s.manager r ↔
      ¬ (needed structSize r = totalHeapSize ∧ WholeHeapFree L s.manager) := by
  obtain ⟨-, A, F, w⟩ := run_invariant h hok
  exact bestFit_iff w (by omega) (inRange hle)

theorem boot_whole_heap_free (memory : ℕ → MemoryBlock) :
    WholeHeapFree kernelHeap (boot kernelHeap memory).manager := by
  refine ⟨[0x600000], ⟨⟨rfl, rfl, rfl⟩, ?_⟩, 0x600000, List.mem_singleton_self _, rfl⟩
  simp [endBlock, kernelHeap, kernelLayout]

theorem heap2_best_fit_second_request :
    ∃ m, Run (Step kernelHeap) (boot kernelHeap fun _ ↦ ⟨0, 0⟩)
      [(boot kernelHeap fun _ ↦ ⟨0, 0⟩, .alloc 184)] ⟨m, [6291472]⟩ ∧
      BestFit kernelHeap m 1000 := by
  have hsome : (allocMem kernelHeap 3 (boot kernelHeap fun _ ↦ ⟨0, 0⟩).manager 184).map
      Prod.snd = some 6291472 := by decide +kernel
  obtain ⟨⟨m, p⟩, hm, rfl⟩ := Option.map_eq_some_iff.mp hsome
  have hrun := Run.one (Step.alloc (L := kernelHeap) (s := boot kernelHeap fun _ ↦ ⟨0, 0⟩)
    (by decide) hm)
  have hok : Requests kernelHeap (boot kernelHeap fun _ ↦ ⟨0, 0⟩) (.alloc 184) :=
    Or.inl (inRange (by decide))
  refine ⟨m, hrun, (heap2_best_fit hrun (by simpa using hok) (by decide) (by decide)).mpr ?_⟩
  rintro ⟨hneed, -⟩
  exact absurd hneed (by decide)

/-- The whole heap is free, and the request whose block is all of it gets nothing. -/
theorem heap2_whole_heap_refused :
    ∃ s, Run (Step kernelHeap) (boot kernelHeap fun _ ↦ ⟨0, 0⟩) [] s ∧ 1 ≤ 134217712 ∧
      134217712 ≤ totalHeapSize ∧ ¬ BestFit kernelHeap s.manager 134217712 := by
  refine ⟨boot kernelHeap fun _ ↦ ⟨0, 0⟩, .nil _, by decide, by decide, ?_⟩
  obtain ⟨-, A, F, w⟩ := boot_invariant (L := kernelHeap) fun _ ↦ ⟨0, 0⟩
  intro hfit
  have hnot := (bestFit_iff w (by decide) (inRange (by decide))).mp hfit
  exact hnot ⟨by decide, boot_whole_heap_free _⟩

end ShellOS.Memory.Heap2BestFit
