import ShellOS.Memory.BuddyRun
import Mathlib.Order.Bounds.Defs

namespace ShellOS.Memory.BuddyBestFit

open Library.Links Library.Runs Region Buddy BuddyInvariant BuddySpec BuddyRun

variable (L : Layout cdtSize)

def Returns (m : MemoryManager) (r : ℕ) (m' : MemoryManager) (p : ℕ) : Prop :=
  Answers (fun fuel ↦ allocMem L fuel m r) (m', p)

/-- The sizes that a block for `need` bytes may have. -/
def Sizes (need : ℕ) : Set ℕ :=
  {size | (∃ k, size = 2 ^ k) ∧ need ≤ size ∧ minimumBlockSize ≤ size}

/-- The free block `b` was taken: it is a smallest one that is large enough,
it was cut down to the least possible size, and of the halves that were cut off
one of each size is free. -/
structure Carved (m m' : MemoryManager) (F F' : List ℕ) (need b : ℕ) : Prop where
  free : b ∈ F
  large : need ≤ m.blockSize b
  least : ∀ x ∈ F, need ≤ m.blockSize x → m.blockSize b ≤ m.blockSize x
  size : IsLeast (Sizes need) (m'.blockSize b)
  halves : ∃ j, Halved m m' b (F.erase b) F' j

def BestFit (m : MemoryManager) (r : ℕ) : Prop :=
  ∃ m' p F F', Returns L m r m' p ∧ FreeList L m F ∧ FreeList L m' F' ∧
    (p = 0 ↔ ∀ b ∈ F, m.blockSize b < needed structSize r) ∧ (p = 0 → m' = m) ∧
    (p ≠ 0 → Carved m m' F F' (needed structSize r) (header p))

variable {L} {m m' : MemoryManager} {s : State} {live A F : List ℕ} {r need size : ℕ}

theorem inRange (hr : r ≤ totalHeapSize) : InRange structSize r := inRange_of_le hr (by decide)

theorem isLeast_of_stop (hpow : ∃ k, size = 2 ^ k) (hmin : minimumBlockSize ≤ size)
    (hneed : need ≤ size) (hstop : ¬ (minimumBlockSize ≤ size / 2 ∧ need ≤ size / 2)) :
    IsLeast (Sizes need) size := by
  refine ⟨⟨hpow, hneed, hmin⟩, fun t ht ↦ ?_⟩
  obtain ⟨⟨i, rfl⟩, hneed', hmin'⟩ := ht
  obtain ⟨k, rfl⟩ := hpow
  by_contra hlt
  have hik : i < k := (Nat.pow_lt_pow_iff_right (a := 2) (by omega)).mp (by omega)
  have hhalf : 2 ^ i ≤ 2 ^ k / 2 := by
    obtain ⟨j, rfl⟩ : ∃ j, k = j + 1 := ⟨k - 1, by omega⟩
    rw [Nat.pow_succ, Nat.mul_div_cancel _ (by omega)]
    exact Nat.pow_le_pow_right (by omega) (by omega)
  exact hstop ⟨by omega, by omega⟩

theorem bestFit_of_wellformed (w : Wellformed L m [] live A F) (hr : r ≠ 0)
    (hin : InRange structSize r) : BestFit L m r := by
  have hspec := alloc_spec w r
  have hfree := freeList_of w
  simp only [requestSize_eq hin] at hspec
  rcases hspec with
    ⟨hnot, hnone⟩ | ⟨F₁, b, F₂, m', A', F', rfl, hF₁, hneed, hle, hstop, ⟨j, hj⟩, hw, -, -, hsome⟩
  · refine ⟨m, 0, F, F, ⟨F.length, hnone⟩, hfree, hfree, ⟨fun _ b hb ↦ ?_, fun _ ↦ rfl⟩,
      fun _ ↦ rfl, fun h ↦ absurd rfl h⟩
    have hsize := w.size_le (w.free_mem hb)
    rcases hnot with h0 | hbig | hsmall
    · exact absurd h0 hr
    · omega
    · exact hsmall b hb
  · have hp := add_structSize_ne_null b
    refine ⟨m', _, _, F', ⟨_, hsome⟩, hfree, freeList_of hw, ⟨fun h ↦ absurd h hp, fun hall ↦ ?_⟩,
      fun h ↦ absurd h hp, fun _ ↦ ?_⟩
    · have hlt := hall b (by simp)
      omega
    · rw [header_add]
      have hnd : (F₁ ++ b :: F₂).Nodup := (List.nodup_cons.mp w.list_nodup).2
      have hshape := hw.shape b (hw.live_mem List.mem_cons_self)
      have hmin := hshape.size_pos
      obtain ⟨k, -, -, hk, -⟩ := hshape
      refine ⟨by simp, by omega, fun x hx hn ↦ first_le_of_sorted w.sorted hF₁ hx hn, ?_, j, ?_⟩
      · exact isLeast_of_stop ⟨k, hk⟩ hmin hneed hstop
      · rw [erase_middle hnd]
        exact hj

/-- After every sequence of calls a request is answered by the null pointer
exactly when no free block is large enough, and then nothing changes. Else a
smallest such block is cut down to the least power of two that holds the request. -/
theorem buddy_best_fit {memory : MemoryManager} {tr : List (State × Call)}
    (h : Run (Step L) (boot L memory) tr s) {r : ℕ} (hr : 1 ≤ r) (hle : r ≤ totalHeapSize) :
    BestFit L s.manager r := by
  obtain ⟨-, A, F, w⟩ := h.invariant (I := Invariant L)
    (fun _ _ _ ha hs ↦ step_invariant ha hs) (boot_invariant memory)
  exact bestFit_of_wellformed w (by omega) (inRange hle)

theorem buddy_best_fit_second_request :
    ∃ m, Run (Step kernelHeap) (boot kernelHeap blank) [(boot kernelHeap blank, .alloc 1000)]
      ⟨m, [6291480]⟩ ∧ BestFit kernelHeap m 70000 := by
  have hsome : (allocMem kernelHeap 20 (boot kernelHeap blank).manager 1000).map
      Prod.snd = some 6291480 := by decide +kernel
  obtain ⟨⟨m, p⟩, hm, rfl⟩ := Option.map_eq_some_iff.mp hsome
  have hrun := Run.one (Step.alloc (L := kernelHeap) (s := boot kernelHeap blank) (by decide) hm)
  exact ⟨m, hrun, buddy_best_fit hrun (by decide) (by decide)⟩

end ShellOS.Memory.BuddyBestFit
