import ShellOS.Memory.Heap2

namespace ShellOS.Memory.Heap2Invariant

open Library.Links Library.Tiling Library.Words Region Heap2 Function

variable (L : Layout cdtSize)

abbrev heapEnd : ℕ := L.managedMemory + totalHeapSize

/-- `A` lists the headers of all blocks by address, `F` the free list from
`start` to `end`, and `live` the headers of the blocks in the clients' hands. -/
structure Wellformed (m : MemoryManager) (live A F : List ℕ) : Prop where
  tiles : Tiles m.size L.managedMemory A (heapEnd L)
  perm : A.Perm (F ++ live)
  shape : ∀ b ∈ A, 8 ∣ m.size b ∧ structSize < m.size b
  list : Path m.next (start L) (start L :: F) (endBlock L)
  sorted : F.Pairwise (fun a b ↦ m.size a ≤ m.size b)
  end_size : m.size (endBlock L) = totalHeapSize
  end_next : m.next (endBlock L) = 0
  free_sum : m.freeBytesRemaining = (F.map m.size).sum

theorem structSize_eq : structSize = 16 := rfl

theorem inRange {r : ℕ} (hr : r ≤ totalHeapSize) : InRange structSize r :=
  inRange_of_le hr (by decide)

theorem minimumBlockSize_eq : minimumBlockSize = 32 := rfl

variable {L} {m : MemoryManager} {live A F F₁ F₂ : List ℕ} {b n : ℕ}

theorem sum_map_middle (f : ℕ → ℕ) :
    ((F₁ ++ b :: F₂).map f).sum = f b + ((F₁ ++ F₂).map f).sum := by
  rw [(List.perm_middle.map f).sum_nat, List.map_cons, List.sum_cons]

namespace Wellformed

variable (w : Wellformed L m live A F)
include w

theorem nodup : (F ++ live).Nodup := w.perm.nodup_iff.mp w.tiles.nodup

theorem free_mem (hb : b ∈ F) : b ∈ A := w.perm.mem_iff.mpr (List.mem_append_left _ hb)

theorem live_mem (hb : b ∈ live) : b ∈ A := w.perm.mem_iff.mpr (List.mem_append_right _ hb)

theorem start_not_mem : start L ∉ A := by
  intro h
  have hb := w.tiles.bounds.2 _ h
  have hp := w.tiles.pos _ h
  have hs := (w.shape _ h).2
  have ha := L.apart
  rw [structSize_eq] at hs
  simp only [start, heapEnd, cdtSize] at hb hp hs ha
  omega

theorem end_not_mem : endBlock L ∉ A := by
  intro h
  have hb := w.tiles.bounds.2 _ h
  have hp := w.tiles.pos _ h
  have ha := L.apart
  simp only [endBlock, heapEnd, cdtSize] at hb hp ha
  omega

theorem list_nodup : (start L :: F).Nodup :=
  List.nodup_cons.mpr ⟨fun h ↦ w.start_not_mem (w.free_mem h), w.nodup.of_append_left⟩

theorem size_le (hb : b ∈ A) : m.size b ≤ totalHeapSize := by
  have h := w.tiles.bounds.2 b hb
  simp only [heapEnd] at h
  omega

theorem sizes_sum : (F.map m.size).sum + (live.map m.size).sum = totalHeapSize := by
  have h := w.tiles.sum
  rw [(w.perm.map m.size).sum_nat, List.map_append, List.sum_append] at h
  simp only [heapEnd] at h
  omega

theorem next_ne_null (hb : b ∈ F) : m.next b ≠ 0 := by
  have hm := w.list.next_mem (List.mem_cons_of_mem _ hb)
  have hs := L.manager_ne_null
  have hh := L.memory_ne_null
  rcases hm with hm | hm
  · rcases List.mem_cons.mp hm with hm | hm
    · rw [hm]; exact hs
    · have hb' := (w.tiles.bounds.2 _ (w.free_mem hm)).1
      omega
  · rw [hm]
    simp only [endBlock]
    omega

theorem usedHeap_eq : usedHeap m = (live.map m.size).sum := by
  have h := w.sizes_sum
  have hf := w.free_sum
  have ht : totalHeapSize < 2 ^ 32 := by decide
  unfold usedHeap heapLeft heapSize
  rw [u32Sub_of_le (by omega) ht]
  omega

end Wellformed

theorem insert_spec (hl : Path m.next (start L) (start L :: F) (endBlock L))
    (hnd : (start L :: F).Nodup) (hb : b ∉ start L :: F)
    (he : m.size b ≤ m.size (endBlock L)) :
    ∃ m', (∀ n, F.length < n → insertBlockIntoFreeList L n m b = some m') ∧
      m'.size = m.size ∧ m'.freeBytesRemaining = m.freeBytesRemaining ∧
      Path m'.next (start L) (start L :: F.orderedInsert (fun x y ↦ m.size x ≤ m.size y) b)
        (endBlock L) ∧
      ∀ a, a ≠ b → a ∉ start L :: F → m'.next a = m.next a := by
  obtain ⟨q, hq, hseek, hpath⟩ := hl.insert_sorted hnd hb he
  refine ⟨(m.setNext b (m.next q)).setNext q b, fun n hn ↦ ?_, by simp, by simp,
    by simpa using hpath, ?_⟩
  · simp only [insertBlockIntoFreeList, hseek n hn, Option.map_some]
  · intro a hab ha
    have haq : a ≠ q := fun h ↦ ha (h ▸ hq)
    simp [haq, hab]

theorem findBlock_spec (w : Wellformed L m live A F) (need : ℕ) (hneed : need ≤ totalHeapSize) :
    (∀ b ∈ F, m.size b < need) ∧
      (∃ q, ∀ n, F.length < n → findBlock L n m need = some (q, endBlock L)) ∨
    ∃ F₁ b F₂, F = F₁ ++ b :: F₂ ∧ (∀ x ∈ F₁, m.size x < need) ∧ need ≤ m.size b ∧
      ∃ l₁ q, start L :: F₁ = l₁ ++ [q] ∧
        ∀ n, F.length < n → findBlock L n m need = some (q, b) := by
  have hend : need ≤ m.size (endBlock L) := by
    rw [w.end_size]
    exact hneed
  have h := w.list.seek_first (fun x ↦ decide (m.next x = 0))
    (fun x hx ↦ by simpa using w.next_ne_null hx) hend
  simpa only [findBlock, decide_not] using h

/-- The free block `b` becomes the block of a client that needs `need` bytes:
as a whole, or cut in two with its second part free. -/
structure Taken (m m' : MemoryManager) (need b : ℕ) (F₁ F₂ A A' F' : List ℕ) : Prop where
  size_ne : ∀ a ∈ A, a ≠ b → m'.size a = m.size a
  whole_or_cut : m'.size b = m.size b ∧ m.size b ≤ need + minimumBlockSize ∧ A' = A ∧
      F' = F₁ ++ F₂ ∨
    m'.size b = need ∧ m'.size (b + need) + need = m.size b ∧
      minimumBlockSize < m'.size (b + need) ∧ A'.Perm ((b + need) :: A) ∧
      F'.Perm ((b + need) :: (F₁ ++ F₂))

def cut (m : MemoryManager) (q b need : ℕ) : MemoryManager :=
  ((m.setNext q (m.next b)).setSize (b + need) (m.size b - need)).setSize b need

section Taking

variable (w : Wellformed L m live A (F₁ ++ b :: F₂)) {need q : ℕ} {l₁ : List ℕ}
include w

theorem taken_perm : A.Perm (F₁ ++ F₂ ++ b :: live) := by
  refine List.perm_iff_count.mpr (fun a ↦ ?_)
  have h := w.perm.count_eq a
  simp only [List.count_append, List.count_cons] at h ⊢
  omega

theorem end_ne_pred (hq : start L :: F₁ = l₁ ++ [q]) : endBlock L ≠ q := by
  have hqmem : q ∈ start L :: F₁ := by rw [hq]; simp
  rintro rfl
  rcases List.mem_cons.mp hqmem with h | h
  · simp [endBlock, start] at h
  · exact w.end_not_mem (w.free_mem (by simp [h]))

theorem taken_free_sum : u32Sub m.freeBytesRemaining (m.size b) = ((F₁ ++ F₂).map m.size).sum := by
  have htotal : totalHeapSize < 2 ^ 32 := by decide
  have hsum := w.free_sum
  have hall := w.sizes_sum
  rw [sum_map_middle] at hsum hall
  rw [u32Sub_of_le (by omega) (by omega)]
  omega

theorem take_whole (hq : start L :: F₁ = l₁ ++ [q]) :
    Wellformed L ((m.setNext q (m.next b)).setFreeBytes (u32Sub m.freeBytesRemaining (m.size b)))
      (b :: live) A (F₁ ++ F₂) := by
  have hqe := end_ne_pred w hq
  obtain ⟨-, hpath⟩ := w.list.unlink (b := b) w.list_nodup hq
  constructor
  · simpa using w.tiles
  · exact taken_perm w
  · simpa using w.shape
  · simpa using hpath
  · simpa using w.sorted.sublist (show (F₁ ++ F₂).Sublist (F₁ ++ b :: F₂) by simp)
  · simpa using w.end_size
  · simpa [update_of_ne hqe] using w.end_next
  · simpa using taken_free_sum w

theorem cut_not_mem (need : ℕ) (hs : 0 < need) (hb : need < m.size b) :
    b + need ∉ A ∧ b + need ≠ start L ∧ b + need ≠ endBlock L ∧ b ≠ endBlock L := by
  have hbA : b ∈ A := w.free_mem (by simp)
  have hbounds := w.tiles.bounds.2 b hbA
  have hapart := L.apart
  simp only [heapEnd, cdtSize] at hbounds hapart
  refine ⟨w.tiles.not_mem_inside hbA (by omega) (by omega), ?_, ?_, ?_⟩
  · simp only [start]; omega
  · simp only [endBlock]; omega
  · simp only [endBlock]; omega

theorem rest_mem {a : ℕ} (ha : a ∈ F₁ ++ F₂) : a ∈ A ∧ a ≠ b := by
  refine ⟨(taken_perm w).mem_iff.mpr (List.mem_append_left _ ha), ?_⟩
  rintro rfl
  exact (List.nodup_middle.mp w.nodup.of_append_left).notMem ha

theorem end_not_mem_rest : endBlock L ∉ start L :: (F₁ ++ F₂) := by
  intro h
  rcases List.mem_cons.mp h with h | h
  · simp [endBlock, start] at h
  · exact w.end_not_mem (rest_mem w h).1

theorem cut_sizes (hs : 0 < need) (hb : need < m.size b) :
    (cut m q b need).size b = need ∧ (cut m q b need).size (b + need) = m.size b - need ∧
      (cut m q b need).size (endBlock L) = totalHeapSize ∧
      ∀ a ∈ A, a ≠ b → (cut m q b need).size a = m.size a := by
  obtain ⟨hnew, hns, hne, hbe⟩ := cut_not_mem w need hs hb
  have hsize : (cut m q b need).size =
      update (update m.size (b + need) (m.size b - need)) b need := by
    simp [cut]
  refine ⟨?_, ?_, ?_, fun a ha hab ↦ ?_⟩
  · rw [hsize, update_self]
  · rw [hsize, update_of_ne (by omega), update_self]
  · rw [hsize, update_of_ne hbe.symm, update_of_ne hne.symm, w.end_size]
  · have han : a ≠ b + need := fun h ↦ hnew (h ▸ ha)
    rw [hsize, update_of_ne hab, update_of_ne han]

theorem cut_tiles (hs : 0 < need) (hb : need < m.size b) :
    ∃ A', A'.Perm ((b + need) :: A) ∧
      Tiles (cut m q b need).size L.managedMemory A' (heapEnd L) := by
  obtain ⟨hbsize, hnsize, -, hold⟩ := cut_sizes w (q := q) hs hb
  refine w.tiles.split_mem (w.free_mem (by simp)) ?_ (by rw [hbsize]) ?_ ?_ hold
  · rw [hbsize, hnsize]
    omega
  · rw [hbsize]
    exact hs
  · rw [hnsize]
    omega

theorem cut_insert (hs : 0 < need) (hb : need < m.size b) (hq : start L :: F₁ = l₁ ++ [q]) :
    ∃ m' F', (∀ n, F₁.length + F₂.length < n →
        insertBlockIntoFreeList L n (cut m q b need) (b + need) = some m') ∧
      m'.size = (cut m q b need).size ∧ m'.freeBytesRemaining = m.freeBytesRemaining ∧
      Path m'.next (start L) (start L :: F') (endBlock L) ∧
      m'.next (endBlock L) = 0 ∧ F'.Perm ((b + need) :: (F₁ ++ F₂)) ∧
      F'.Pairwise fun x y ↦ m'.size x ≤ m'.size y := by
  obtain ⟨hnew, hns, hne, hbe⟩ := cut_not_mem w need hs hb
  obtain ⟨-, hnsize, hesize, hold⟩ := cut_sizes w (q := q) hs hb
  have hbsize := w.size_le (w.free_mem (show b ∈ F₁ ++ b :: F₂ by simp))
  have hnF : b + need ∉ start L :: (F₁ ++ F₂) := by
    intro h
    rcases List.mem_cons.mp h with h | h
    · exact hns h
    · exact hnew (rest_mem w h).1
  obtain ⟨-, hpath⟩ := w.list.unlink (b := b) w.list_nodup hq
  have hpath' : Path (cut m q b need).next (start L) (start L :: (F₁ ++ F₂)) (endBlock L) := by
    simpa [cut] using hpath
  have hnd : (start L :: (F₁ ++ F₂)).Nodup := w.list_nodup.sublist (by simp)
  obtain ⟨m', hins, hsz, hfr, hlist, hkeep⟩ := insert_spec hpath' hnd hnF
    (by rw [hnsize, hesize]; omega)
  refine ⟨m', _, fun n hn ↦ hins n (by simpa using hn), hsz, hfr, hlist, ?_,
    List.perm_orderedInsert _ _ _, ?_⟩
  · rw [hkeep _ hne.symm (end_not_mem_rest w)]
    simp [cut, update_of_ne (end_ne_pred w hq), w.end_next]
  · rw [hsz]
    refine sorted_orderedInsert _ ?_
    refine (w.sorted.sublist (show (F₁ ++ F₂).Sublist _ by simp)).imp_of_mem (fun ha ha' h ↦ ?_)
    rw [hold _ (rest_mem w ha).1 (rest_mem w ha).2, hold _ (rest_mem w ha').1 (rest_mem w ha').2]
    exact h

theorem take_cut (hd : 8 ∣ need) (hs : structSize < need)
    (hcut : minimumBlockSize < m.size b - need) (hq : start L :: F₁ = l₁ ++ [q]) :
    ∃ m' A' F', (∀ n, F₁.length + F₂.length < n →
        insertBlockIntoFreeList L n (((m.setNext q (m.next b)).setSize (b + need)
          (m.size b - need)).setSize b need) (b + need) = some m') ∧
      Wellformed L (m'.setFreeBytes (u32Sub m'.freeBytesRemaining (m'.size b)))
        (b :: live) A' F' ∧ Taken m m' need b F₁ F₂ A A' F' := by
  rw [minimumBlockSize_eq] at hcut
  rw [structSize_eq] at hs
  have hbA : b ∈ A := w.free_mem (by simp)
  have hsize := w.size_le hbA
  have hneed : 0 < need := by omega
  have hlt : need < m.size b := by omega
  obtain ⟨hbsize, hnsize, hesize, hold⟩ := cut_sizes w (q := q) hneed hlt
  obtain ⟨A', hAperm, htiles⟩ := cut_tiles w (q := q) hneed hlt
  obtain ⟨m', F', hins, hsz, hfr, hlist, hend, hFperm, hsorted⟩ := cut_insert w hneed hlt hq
  refine ⟨m', A', F', hins, ?_, fun a ha hab ↦ ?_, Or.inr ⟨?_, ?_, ?_, hAperm, hFperm⟩⟩
  · constructor
    · rw [MemoryManager.size_setFreeBytes, hsz]
      exact htiles
    · refine hAperm.trans (List.perm_iff_count.mpr (fun a ↦ ?_))
      have h := (taken_perm w).count_eq a
      have h' := hFperm.count_eq a
      simp only [List.count_append, List.count_cons] at h h' ⊢
      omega
    · intro x hx
      rw [MemoryManager.size_setFreeBytes, hsz]
      rcases List.mem_cons.mp (hAperm.mem_iff.mp hx) with rfl | hx
      · rw [hnsize, structSize_eq]
        exact ⟨Nat.dvd_sub (w.shape b hbA).1 hd, by omega⟩
      · by_cases hxb : x = b
        · rw [hxb, hbsize, structSize_eq]
          exact ⟨hd, hs⟩
        · rw [hold x hx hxb]
          exact w.shape x hx
    · simpa using hlist
    · rw [MemoryManager.size_setFreeBytes]
      exact hsorted
    · rw [MemoryManager.size_setFreeBytes, hsz, hesize]
    · rw [MemoryManager.next_setFreeBytes, hend]
    · have hmap : (F₁ ++ F₂).map (cut m q b need).size = (F₁ ++ F₂).map m.size :=
        List.map_congr_left (fun a ha ↦ hold a (rest_mem w ha).1 (rest_mem w ha).2)
      have hfree := taken_free_sum w
      have htotal : totalHeapSize < 2 ^ 32 := by decide
      have hsum := w.free_sum
      have hall := w.sizes_sum
      rw [sum_map_middle] at hsum hall
      rw [MemoryManager.size_setFreeBytes, MemoryManager.freeBytesRemaining_setFreeBytes, hsz, hfr,
        (hFperm.map (cut m q b need).size).sum_nat, List.map_cons, List.sum_cons, hmap, hnsize,
        hbsize, u32Sub_of_le (by omega) (by omega)]
      omega
  · rw [hsz]
    exact hold a ha hab
  · rw [hsz, hbsize]
  · rw [hsz, hnsize]
    omega
  · rw [hsz, hnsize, minimumBlockSize_eq]
    omega

end Taking

theorem request_bounds {r : ℕ} (hr : r ≠ 0) (hin : InRange structSize r) :
    8 ∣ requestSize structSize r ∧ structSize < requestSize structSize r ∧
      r + structSize ≤ requestSize structSize r := by
  have h := requestSize_eq hin
  refine ⟨eight_dvd_requestSize _ _, ?_, ?_⟩
  · rw [h, needed, structSize_eq]; omega
  · rw [h, needed, structSize_eq]; omega

/-- What a call of `allocMem` does: nothing, when the walk finds no block, or
the first block of the list that is large enough is taken. -/
theorem alloc_spec (w : Wellformed L m live A F) {r : ℕ} (hin : InRange structSize r) :
    ((r = 0 ∨ totalHeapSize ≤ requestSize structSize r ∨
        ∀ b ∈ F, m.size b < requestSize structSize r) ∧
      ∀ n, F.length < n → allocMem L n m r = some (m, 0)) ∨
    ∃ F₁ b F₂ m' A' F', F = F₁ ++ b :: F₂ ∧
      (∀ x ∈ F₁, m.size x < requestSize structSize r) ∧ requestSize structSize r ≤ m.size b ∧
      Wellformed L (m'.setFreeBytes (u32Sub m'.freeBytesRemaining (m'.size b)))
        (b :: live) A' F' ∧
      Taken m m' (requestSize structSize r) b F₁ F₂ A A' F' ∧
      ∀ n, F.length < n → allocMem L n m r =
        some (m'.setFreeBytes (u32Sub m'.freeBytesRemaining (m'.size b)), b + structSize) := by
  by_cases hr : r = 0
  · exact Or.inl ⟨Or.inl hr, fun n _ ↦ by simp [allocMem, hr]⟩
  by_cases hlt : requestSize structSize r < totalHeapSize
  swap
  · exact Or.inl ⟨Or.inr (Or.inl (by omega)), fun n _ ↦ by simp [allocMem, hr, hlt]⟩
  obtain ⟨hd, hs, -⟩ := request_bounds hr hin
  rcases findBlock_spec w (requestSize structSize r) hlt.le with
    ⟨hall, q, hfind⟩ | ⟨F₁, b, F₂, rfl, hF₁, hb, l₁, q, hq, hfind⟩
  · refine Or.inl ⟨Or.inr (Or.inr hall), fun n hn ↦ ?_⟩
    simp [allocMem, hr, hlt, hfind n hn]
  · right
    have hbe : b ≠ endBlock L := fun h ↦ w.end_not_mem (h ▸ w.free_mem (by simp))
    obtain ⟨hqb, -⟩ := w.list.unlink (b := b) w.list_nodup hq
    have hsize := w.size_le (w.free_mem (show b ∈ F₁ ++ b :: F₂ by simp))
    have htotal : totalHeapSize < 2 ^ 32 := by decide
    have hrest := u32Sub_of_le hb (by omega)
    obtain ⟨m', A', F', hsplit, hw, ht⟩ : ∃ m' A' F', (∀ n, (F₁ ++ b :: F₂).length < n →
        splitBlock L n (m.setNext q (m.next b)) b (requestSize structSize r) = some m') ∧
        Wellformed L (m'.setFreeBytes (u32Sub m'.freeBytesRemaining (m'.size b)))
          (b :: live) A' F' ∧ Taken m m' (requestSize structSize r) b F₁ F₂ A A' F' := by
      by_cases hcut : minimumBlockSize < m.size b - requestSize structSize r
      · obtain ⟨m', A', F', hins, hw, ht⟩ := take_cut w hd hs hcut hq
        refine ⟨m', A', F', fun n hn ↦ ?_, hw, ht⟩
        simp only [splitBlock, MemoryManager.size_setNext, hrest, gt_iff_lt, hcut, if_true]
        exact hins n (by rw [List.length_append, List.length_cons] at hn; omega)
      · refine ⟨m.setNext q (m.next b), A, F₁ ++ F₂, fun n _ ↦ ?_, ?_, ?_⟩
        · simp only [splitBlock, MemoryManager.size_setNext, hrest, gt_iff_lt, hcut, if_false]
        · simpa using take_whole w hq
        · exact ⟨fun _ _ _ ↦ by simp, Or.inl ⟨by simp, by omega, rfl, rfl⟩⟩
    refine ⟨F₁, b, F₂, m', A', F', rfl, hF₁, hb, hw, ht, fun n hn ↦ ?_⟩
    simp [allocMem, hr, hlt, hfind n hn, hbe, hsplit n hn, hqb]

theorem free_spec (w : Wellformed L m live A F) {live' : List ℕ} (hb : live.Perm (b :: live')) :
    ∃ m', (∀ n, F.length < n → freeMem L n m (b + structSize) = some m') ∧
      m'.size = m.size ∧
      Wellformed L m' live' A (F.orderedInsert (fun x y ↦ m.size x ≤ m.size y) b) := by
  have hblive : b ∈ live := hb.mem_iff.mpr List.mem_cons_self
  have hbA := w.live_mem hblive
  have hbF : b ∉ start L :: F := by
    intro h
    rcases List.mem_cons.mp h with h | h
    · exact w.start_not_mem (h ▸ hbA)
    · exact (List.disjoint_of_nodup_append w.nodup) h hblive
  obtain ⟨m', hins, hsz, hfr, hlist, hkeep⟩ := insert_spec w.list w.list_nodup hbF
    (by rw [w.end_size]; exact w.size_le hbA)
  have hFperm := List.perm_orderedInsert (fun x y ↦ m.size x ≤ m.size y) b F
  refine ⟨m'.setFreeBytes (u32 (m'.freeBytesRemaining + m'.size b)), fun n hn ↦ ?_, ?_, ?_⟩
  · simp [freeMem, structSize_eq, hins n hn]
  · rw [MemoryManager.size_setFreeBytes, hsz]
  · constructor
    · simpa [hsz] using w.tiles
    · refine List.perm_iff_count.mpr (fun a ↦ ?_)
      have h := w.perm.count_eq a
      have h' := hFperm.count_eq a
      have h'' := hb.count_eq a
      simp only [List.count_append, List.count_cons] at h h' h'' ⊢
      omega
    · simpa [hsz] using w.shape
    · simpa using hlist
    · simpa [hsz] using sorted_orderedInsert b w.sorted
    · simpa [hsz] using w.end_size
    · have hend : endBlock L ∉ start L :: F := by
        intro h
        rcases List.mem_cons.mp h with h | h
        · simp [endBlock, start] at h
        · exact w.end_not_mem (w.free_mem h)
      have hbe : endBlock L ≠ b := fun h ↦ w.end_not_mem (h ▸ hbA)
      rw [MemoryManager.next_setFreeBytes, hkeep _ hbe hend, w.end_next]
    · have hsum := w.free_sum
      have hall := w.sizes_sum
      have hlive := (hb.map m.size).sum_nat
      have htotal : totalHeapSize < 2 ^ 32 := by decide
      rw [List.map_cons, List.sum_cons] at hlive
      rw [MemoryManager.size_setFreeBytes, MemoryManager.freeBytesRemaining_setFreeBytes, hsz, hfr,
        (hFperm.map m.size).sum_nat, List.map_cons, List.sum_cons, u32_of_lt (by omega)]
      omega

end ShellOS.Memory.Heap2Invariant
