import ShellOS.Memory.BuddyBestFit
import ShellOS.Memory.Heap2BestFit

namespace ShellOS.Memory.Adequacy

open Library.Runs Region

/-- A call that asks for `r` bytes returns, and a block that it hands out
holds them and is not free any more. What the heap cannot hold is refused. -/
def Adequate {M : Type} (structSize : ℕ) (returns : M → ℕ → Prop) (blockSize : M → ℕ → ℕ)
    (freeList : M → List ℕ → Prop) (r : ℕ) : Prop :=
  ∃ m p, returns m p ∧
    (p ≠ 0 → r + structSize ≤ blockSize m (p - structSize) ∧
      ∃ F, freeList m F ∧ p - structSize ∉ F) ∧
    (totalHeapSize < r + structSize → p = 0)

variable {M : Type} {structSize r : ℕ} {returns : M → ℕ → Prop} {blockSize : M → ℕ → ℕ}
  {freeList : M → List ℕ → Prop} {m : M} {F : List ℕ} {b : ℕ}

theorem adequate_null (h : returns m 0) : Adequate structSize returns blockSize freeList r :=
  ⟨m, 0, h, fun hp ↦ absurd rfl hp, fun _ ↦ rfl⟩

theorem adequate_block (h : returns m (b + structSize)) (hsize : r + structSize ≤ blockSize m b)
    (hle : blockSize m b ≤ totalHeapSize) (hF : freeList m F) (hb : b ∉ F) :
    Adequate structSize returns blockSize freeList r := by
  refine ⟨m, b + structSize, h, fun _ ↦ ?_, fun hbig ↦ absurd hbig (by omega)⟩
  rw [Nat.add_sub_cancel]
  exact ⟨hsize, F, hF, hb⟩

theorem large_of_not_inRange (h : ¬ InRange structSize r) : totalHeapSize < r + structSize := by
  unfold InRange byteAlignment at h
  unfold totalHeapSize
  omega

theorem le_needed (structSize r : ℕ) : r + structSize ≤ needed structSize r := by
  unfold needed
  omega

section Heap2

open Heap2 Heap2Invariant Heap2Run Heap2BestFit

variable {L : Layout cdtSize} {m m' : MemoryManager} {s : State} {live A F : List ℕ} {p : ℕ}

def Heap2Adequate (L : Layout cdtSize) (m : MemoryManager) (r : ℕ) : Prop :=
  Adequate Heap2.structSize (Returns L m r) MemoryManager.size (FreeList L) r

theorem wrapped_ne_null (w : Wellformed L m live A F) (hr : r ≠ 0)
    (hneed : requestSize Heap2.structSize r ≤ Heap2.structSize) (hF : F ≠ []) {n : ℕ}
    (hn : F.length < n) (ha : allocMem L n m r = some (m', p)) : p ≠ 0 := by
  rw [structSize_eq] at hneed
  have hlt : requestSize 16 r < totalHeapSize := Nat.lt_of_le_of_lt hneed (by decide)
  rcases findBlock_spec w (requestSize 16 r) hlt.le with
    ⟨hsmall, -⟩ | ⟨F₁, b, F₂, rfl, -, -, l₁, q, -, hfind⟩
  · obtain ⟨b, hb⟩ := List.exists_mem_of_ne_nil F hF
    have hshape := (w.shape b (w.free_mem hb)).2
    rw [structSize_eq] at hshape
    exact absurd (hsmall b hb) (by omega)
  · have hbe : b ≠ endBlock L := fun h ↦ w.end_not_mem (h ▸ w.free_mem (by simp))
    simp only [allocMem, if_neg hr, structSize_eq, if_pos hlt, hfind n hn, Option.bind_eq_bind,
      Option.bind_some, if_neg hbe] at ha
    obtain ⟨m₁, -, h⟩ := Option.bind_eq_some_iff.mp ha
    cases h
    omega

theorem heap2_adequate_iff (w : Wellformed L m live A F) (hr : r ≠ 0) (hlt : r < 2 ^ 32) :
    Heap2Adequate L m r ↔ InRange Heap2.structSize r ∨ m.next (start L) = endBlock L := by
  constructor
  · rintro ⟨m', p, ⟨n, hn⟩, -, hnull⟩
    by_cases hin : InRange Heap2.structSize r
    · exact Or.inl hin
    right
    by_contra hsome
    have hF : F ≠ [] := fun h ↦ hsome ((free_nil_iff w).mpr h)
    have hneed := requestSize_wrapped (by decide) (by decide) hlt hin
    have ha := hn (n + F.length + 1) (by omega)
    exact wrapped_ne_null w hr hneed hF (by omega) ha (hnull (large_of_not_inRange hin))
  · rintro (hin | hnil)
    · rcases alloc_spec w hin with
        ⟨-, hnone⟩ | ⟨F₁, b, F₂, m', A', F', rfl, hF₁, hb, hw, ht, hsome⟩
      · exact adequate_null ⟨F.length, hnone⟩
      · have hbF : b ∉ F' := fun h ↦
          List.disjoint_of_nodup_append hw.nodup h List.mem_cons_self
        have hle := hw.size_le (hw.live_mem List.mem_cons_self)
        have hfits := (carved_of_taken w hF₁ hb ht).fits
        have hneed := le_needed Heap2.structSize r
        rw [requestSize_eq hin] at hfits
        refine adequate_block ⟨_, hsome⟩ ?_ hle (freeList_of hw) hbF
        rw [MemoryManager.size_setFreeBytes]
        omega
    · obtain rfl := (free_nil_iff w).mp hnil
      exact adequate_null ⟨0, fun n hn ↦ alloc_nil w r hn⟩

end Heap2

section Buddy

open Buddy BuddyInvariant BuddySpec BuddyRun BuddyBestFit

variable {L : Layout cdtSize} {m m' : MemoryManager} {s : State} {live A F : List ℕ} {p : ℕ}

def BuddyAdequate (L : Layout cdtSize) (m : MemoryManager) (r : ℕ) : Prop :=
  Adequate Buddy.structSize (Returns L m r) MemoryManager.blockSize (FreeList L) r

theorem buddy_free_nil_iff (w : Wellformed L m [] live A F) :
    m.nextFreeBlock (start L) = endBlock L ↔ F = [] :=
  w.list.next_eq_end_iff fun h ↦ w.end_not_mem (w.free_mem h)

theorem buddy_adequate_iff (w : Wellformed L m [] live A F) (hr : r ≠ 0) (hlt : r < 2 ^ 32) :
    BuddyAdequate L m r ↔
      InRange Buddy.structSize r ∨ m.nextFreeBlock (start L) = endBlock L := by
  have hpos : 0 < Buddy.structSize := by decide
  rcases alloc_spec w r with
    ⟨hnot, hnone⟩ | ⟨F₁, b, F₂, m', A', F', rfl, -, hneed, -, -, -, hw, -, -, hsome⟩
  · refine ⟨fun _ ↦ ?_, fun _ ↦ adequate_null ⟨F.length, hnone⟩⟩
    by_cases hin : InRange Buddy.structSize r
    · exact Or.inl hin
    right
    have hwrapped := requestSize_wrapped (by decide) (by decide) hlt hin
    have hstruct : Buddy.structSize ≤ totalHeapSize := by decide
    have hmin : Buddy.structSize ≤ minimumBlockSize := by decide
    refine (buddy_free_nil_iff w).mpr (List.eq_nil_iff_forall_not_mem.mpr (fun b hb ↦ ?_))
    have hsize := (w.shape b (w.free_mem hb)).size_pos
    rcases hnot with h0 | hbig | hsmall
    · exact hr h0
    · omega
    · have hb' := hsmall b hb
      omega
  · constructor
    · rintro ⟨m₁, p, hret, -, hnull⟩
      by_cases hin : InRange Buddy.structSize r
      · exact Or.inl hin
      have hp := hnull (large_of_not_inRange hin)
      have hpb : p = b + Buddy.structSize := (Prod.mk.inj (hret.unique ⟨_, hsome⟩)).2
      omega
    · rintro (hin | hnil)
      · have hbF : b ∉ F' := fun h ↦
          List.disjoint_of_nodup_append hw.nodup (List.mem_append_right _ h) List.mem_cons_self
        have hle := hw.size_le (hw.live_mem List.mem_cons_self)
        have hfits := le_needed Buddy.structSize r
        rw [requestSize_eq hin] at hneed
        exact adequate_block ⟨_, hsome⟩ (by omega) hle (freeList_of hw) hbF
      · have hnil := (buddy_free_nil_iff w).mp hnil
        simp at hnil

end Buddy

/-- For both managers, in every state that requests without a wrapped sum lead
to (for the buddy manager: that any requests lead to), a block that a call
returns is large enough exactly when the call's own sum does not wrap around or
no block is free. -/
theorem alloc_adequate_iff {r : ℕ} (hr : r ≠ 0) (hlt : r < 2 ^ 32) :
    (∀ (L : Layout Heap2.cdtSize) (memory : ℕ → Heap2.MemoryBlock)
      (tr : List (Heap2Run.State × Heap2Run.Call)) (s : Heap2Run.State),
      Run (Heap2BestFit.Step L) (Heap2Run.boot L memory) tr s →
      (∀ e ∈ tr, Heap2BestFit.Requests L e.1 e.2) →
      (Heap2Adequate L s.manager r ↔
        InRange Heap2.structSize r ∨ s.manager.next (Heap2.start L) = Heap2.endBlock L)) ∧
    (∀ (L : Layout Buddy.cdtSize) (memory : Buddy.MemoryManager)
      (tr : List (BuddyRun.State × BuddyRun.Call)) (s : BuddyRun.State),
      Run (BuddyRun.Step L) (BuddyRun.boot L memory) tr s →
      (BuddyAdequate L s.manager r ↔
        InRange Buddy.structSize r ∨
          s.manager.nextFreeBlock (Buddy.start L) = Buddy.endBlock L)) := by
  constructor
  · intro L memory tr s h hok
    obtain ⟨-, A, F, w⟩ := Heap2BestFit.run_invariant h hok
    exact heap2_adequate_iff w hr hlt
  · intro L memory tr s h
    obtain ⟨-, A, F, w⟩ := h.invariant (I := BuddyRun.Invariant L)
      (fun _ _ _ ha hs ↦ BuddyRun.step_invariant ha hs) (BuddyRun.boot_invariant memory)
    exact buddy_adequate_iff w hr hlt

theorem alloc_adequate_at_boot :
    Heap2Adequate Heap2Run.kernelHeap (Heap2Run.boot Heap2Run.kernelHeap fun _ ↦ ⟨0, 0⟩).manager
        184 ∧
      BuddyAdequate BuddyRun.kernelHeap
        (BuddyRun.boot BuddyRun.kernelHeap BuddyRun.blank).manager 184 := by
  obtain ⟨hheap2, hbuddy⟩ := alloc_adequate_iff (r := 184) (by decide) (by decide)
  constructor
  · exact (hheap2 _ _ _ _ (.nil _) (by simp)).mpr (Or.inl (by unfold InRange; decide))
  · exact (hbuddy _ _ _ _ (.nil _)).mpr (Or.inl (by unfold InRange; decide))

/-- The largest request gets a block of 16 bytes from the one manager and one
of 512 bytes from the other. -/
theorem largest_request_served :
    ((Heap2.allocMem Heap2Run.kernelHeap 3
        (Heap2Run.boot Heap2Run.kernelHeap fun _ ↦ ⟨0, 0⟩).manager 4294967295).map
      fun c ↦ (c.2, c.1.size (Heap2Run.header c.2))) = some (0x600010, 16) ∧
    ((Buddy.allocMem BuddyRun.kernelHeap 20
        (BuddyRun.boot BuddyRun.kernelHeap BuddyRun.blank).manager 4294967295).map
      fun c ↦ (c.2, c.1.blockSize (BuddyRun.header c.2))) = some (0x600018, 512) ∧
    ¬ Heap2Adequate Heap2Run.kernelHeap
      (Heap2Run.boot Heap2Run.kernelHeap fun _ ↦ ⟨0, 0⟩).manager 4294967295 ∧
    ¬ BuddyAdequate BuddyRun.kernelHeap
      (BuddyRun.boot BuddyRun.kernelHeap BuddyRun.blank).manager 4294967295 := by
  obtain ⟨-, A, F, w⟩ := Heap2Run.boot_invariant (L := Heap2Run.kernelHeap) fun _ ↦ ⟨0, 0⟩
  obtain ⟨-, A', F', w'⟩ := BuddyRun.boot_invariant (L := BuddyRun.kernelHeap) BuddyRun.blank
  refine ⟨by decide +kernel, by decide +kernel, fun h ↦ ?_, fun h ↦ ?_⟩
  · rcases (heap2_adequate_iff w (by decide) (by decide)).mp h with hin | hnil
    · exact absurd hin (by unfold InRange; decide)
    · exact absurd hnil (by decide)
  · rcases (buddy_adequate_iff w' (by decide) (by decide)).mp h with hin | hnil
    · exact absurd hin (by unfold InRange; decide)
    · exact absurd hnil (by decide)

end ShellOS.Memory.Adequacy
