import ShellOS.Memory.Buddy

namespace ShellOS.Memory.BuddyInvariant

open Library.Links Library.Tiling Library.Words Region Buddy Function

variable (L : Layout cdtSize)

abbrev heapEnd : ℕ := L.managedMemory + totalHeapSize

/-- A header that describes a block of a buddy heap: a power of two between
the two extreme sizes, at `history` times that size from the heap's start. -/
def Shaped (m : MemoryManager) (b : ℕ) : Prop :=
  ∃ k, 9 ≤ k ∧ k ≤ 27 ∧ m.blockSize b = 2 ^ k ∧
    b = L.managedMemory + m.history b * m.blockSize b

/-- `A` lists the headers of all blocks by address. A block is in the free
list `F`, in a client's hands (`live`), or in transit in the middle of a call. -/
structure Wellformed (m : MemoryManager) (transit live A F : List ℕ) : Prop where
  tiles : Tiles m.blockSize L.managedMemory A (heapEnd L)
  perm : A.Perm (transit ++ F ++ live)
  shape : ∀ b ∈ A, Shaped L m b
  free_flag : ∀ b ∈ F, m.free b = 1
  live_flag : ∀ b ∈ live, m.free b = 0
  list : Path m.nextFreeBlock (start L) (start L :: F) (endBlock L)
  sorted : F.Pairwise (fun a b ↦ m.blockSize a ≤ m.blockSize b)
  end_size : m.blockSize (endBlock L) = totalHeapSize
  end_next : m.nextFreeBlock (endBlock L) = 0

def Buddies (m : MemoryManager) (x y : ℕ) : Prop := Halves m.blockSize L.managedMemory x y

def Canonical (m : MemoryManager) (F : List ℕ) : Prop :=
  ∀ x ∈ F, ∀ y ∈ F, ¬ Buddies L m x y

structure Kept (m m' : MemoryManager) (live F F' : List ℕ) : Prop where
  size : ∀ a ∈ live, m'.blockSize a = m.blockSize a
  canonical : Canonical L m F → Canonical L m' F'

theorem totalHeapSize_eq : totalHeapSize = 2 ^ 27 := rfl

theorem add_le_of_dvd_of_lt {d a N : ℕ} (ha : d ∣ a) (hN : d ∣ N) (h : a < N) : a + d ≤ N := by
  obtain ⟨u, rfl⟩ := ha
  obtain ⟨v, rfl⟩ := hN
  have huv : u < v := Nat.lt_of_mul_lt_mul_left h
  rw [← Nat.mul_succ]
  exact Nat.mul_le_mul_left d huv

theorem even_fits {k h : ℕ} (hk : k < 27) (hh : h % 2 = 0) (hlt : h * 2 ^ k < totalHeapSize) :
    2 * 2 ^ k ∣ h * 2 ^ k ∧ h * 2 ^ k + 2 * 2 ^ k ≤ totalHeapSize := by
  have hdvd : 2 * 2 ^ k ∣ h * 2 ^ k := Nat.mul_dvd_mul_right (Nat.dvd_of_mod_eq_zero hh) _
  refine ⟨hdvd, add_le_of_dvd_of_lt hdvd ?_ hlt⟩
  rw [totalHeapSize_eq, ← Nat.pow_succ']
  exact Nat.pow_dvd_pow 2 hk

variable {L} {m : MemoryManager} {transit live A F F₁ F₂ : List ℕ} {b n : ℕ}

theorem Shaped.size_pos (h : Shaped L m b) : minimumBlockSize ≤ m.blockSize b := by
  obtain ⟨k, hk, -, hs, -⟩ := h
  rw [hs]
  show 2 ^ 9 ≤ 2 ^ k
  exact Nat.pow_le_pow_right (by decide) hk

theorem Kept.refl : Kept L m m live F F := ⟨fun _ _ ↦ rfl, id⟩

theorem Kept.trans {m₁ m₂ : MemoryManager} {F' F'' : List ℕ} (h : Kept L m m₁ live F F')
    (h' : Kept L m₁ m₂ live F' F'') : Kept L m m₂ live F F'' :=
  ⟨fun a ha ↦ (h'.size a ha).trans (h.size a ha), fun hc ↦ h'.canonical (h.canonical hc)⟩

theorem Canonical.congr {m' : MemoryManager} (h : Canonical L m F)
    (hF : ∀ a ∈ F, m'.blockSize a = m.blockSize a) : Canonical L m' F := by
  intro x hx y hy hxy
  refine h x hx y hy ?_
  unfold Buddies Halves at hxy ⊢
  rwa [hF x hx, hF y hy] at hxy

theorem Canonical.sublist {F' : List ℕ} (h : Canonical L m F) (hF : ∀ a ∈ F', a ∈ F) :
    Canonical L m F' :=
  fun x hx y hy ↦ h x (hF x hx) y (hF y hy)

theorem Canonical.insert (h : Canonical L m F) (hpos : 0 < m.blockSize b)
    (hb : ∀ x ∈ F, ¬ Buddies L m x b ∧ ¬ Buddies L m b x) : Canonical L m (b :: F) := by
  intro x hx y hy hxy
  rcases List.mem_cons.mp hx with rfl | hxF
  · rcases List.mem_cons.mp hy with rfl | hyF
    · have heq := hxy.2.1
      omega
    · exact (hb y hyF).2 hxy
  · rcases List.mem_cons.mp hy with rfl | hyF
    · exact (hb x hxF).1 hxy
    · exact h x hxF y hyF hxy

theorem canonical_singleton (hpos : 0 < m.blockSize b) : Canonical L m [b] :=
  Canonical.insert (F := []) (fun x hx ↦ by cases hx) hpos (fun x hx ↦ by cases hx)

namespace Wellformed

variable (w : Wellformed L m transit live A F)
include w

theorem nodup : (transit ++ F ++ live).Nodup := w.perm.nodup_iff.mp w.tiles.nodup

theorem transit_mem (hb : b ∈ transit) : b ∈ A := w.perm.mem_iff.mpr (by simp [hb])

theorem free_mem (hb : b ∈ F) : b ∈ A := w.perm.mem_iff.mpr (by simp [hb])

theorem live_mem (hb : b ∈ live) : b ∈ A := w.perm.mem_iff.mpr (by simp [hb])

theorem start_not_mem : start L ∉ A := by
  intro h
  have hb := w.tiles.bounds.2 _ h
  have hs := (w.shape _ h).size_pos
  have ha := L.apart
  simp only [minimumBlockSize] at hs
  simp only [start, heapEnd, cdtSize] at hb hs ha
  omega

theorem end_not_mem : endBlock L ∉ A := by
  intro h
  have hb := w.tiles.bounds.2 _ h
  have hs := (w.shape _ h).size_pos
  have ha := L.apart
  simp only [minimumBlockSize] at hs
  simp only [endBlock, heapEnd, cdtSize] at hb hs ha
  omega

theorem end_not_mem_list : endBlock L ∉ start L :: F := by
  intro h
  rcases List.mem_cons.mp h with h | h
  · simp [endBlock, start] at h
  · exact w.end_not_mem (w.free_mem h)

theorem list_nodup : (start L :: F).Nodup :=
  List.nodup_cons.mpr ⟨fun h ↦ w.start_not_mem (w.free_mem h),
    w.nodup.of_append_left.of_append_right⟩

theorem transit_not_mem_list (hb : b ∈ transit) : b ∉ start L :: F := by
  intro h
  rcases List.mem_cons.mp h with h | h
  · exact w.start_not_mem (h ▸ w.transit_mem hb)
  · exact List.disjoint_of_nodup_append w.nodup.of_append_left hb h

theorem size_le (hb : b ∈ A) : m.blockSize b ≤ totalHeapSize := by
  have h := w.tiles.bounds.2 b hb
  simp only [heapEnd] at h
  omega

theorem ne_null (hb : b ∈ start L :: F) : b ≠ 0 := by
  rcases List.mem_cons.mp hb with rfl | hm
  · exact L.manager_ne_null
  · have h := (w.tiles.bounds.2 b (w.free_mem hm)).1
    have h' := L.memory_ne_null
    omega

theorem next_ne_null (hb : b ∈ start L :: F) : m.nextFreeBlock b ≠ 0 := by
  have hs := L.manager_ne_null
  rcases w.list.next_mem hb with hm | hm
  · exact w.ne_null hm
  · rw [hm]
    simp only [endBlock]
    omega

theorem aligned : Aligned m.blockSize L.managedMemory A := by
  intro b hb
  obtain ⟨k, -, -, hs, hoff⟩ := w.shape b hb
  have hdist : b - L.managedMemory = m.history b * m.blockSize b := by omega
  refine ⟨⟨k, hs⟩, ?_⟩
  rw [hdist]
  exact Nat.dvd_mul_left _ _

end Wellformed

theorem link_spec (w : Wellformed L m (b :: transit) live A F) :
    ∃ m', (∀ n, F.length < n → linkBlock L n m b = some (m', m.blockSize b)) ∧
      m'.blockSize = m.blockSize ∧ m'.history = m.history ∧
      m'.freeBytesRemaining = m.freeBytesRemaining ∧
      Wellformed L m' transit live A
        (F.orderedInsert (fun x y ↦ m.blockSize x ≤ m.blockSize y) b) := by
  have hbA : b ∈ A := w.transit_mem List.mem_cons_self
  have hbF := w.transit_not_mem_list List.mem_cons_self
  have hle : m.blockSize b ≤ m.blockSize (endBlock L) := by
    rw [w.end_size]
    exact w.size_le hbA
  obtain ⟨q, hq, hseek, hpath⟩ := w.list.insert_sorted w.list_nodup hbF hle
  have hFperm := List.perm_orderedInsert (fun x y ↦ m.blockSize x ≤ m.blockSize y) b F
  refine ⟨((m.setNext b (m.nextFreeBlock q)).setNext q b).setFree b 1, fun n hn ↦ ?_,
    rfl, rfl, rfl, ?_⟩
  · simp only [linkBlock, hseek n hn, Option.map_some]
    rfl
  constructor
  · exact w.tiles
  · refine List.perm_iff_count.mpr (fun a ↦ ?_)
    have h := w.perm.count_eq a
    have h' := hFperm.count_eq a
    simp only [List.count_append, List.count_cons] at h h' ⊢
    omega
  · exact w.shape
  · intro x hx
    rcases List.mem_cons.mp (hFperm.mem_iff.mp hx) with rfl | hx
    · simp
    · have hxb : x ≠ b := fun h ↦ hbF (List.mem_cons_of_mem _ (h ▸ hx))
      simpa [hxb] using w.free_flag x hx
  · intro x hx
    have hxb : x ≠ b := by
      rintro rfl
      exact List.disjoint_of_nodup_append w.nodup (by simp) hx
    simpa [hxb] using w.live_flag x hx
  · exact hpath
  · exact sorted_orderedInsert b w.sorted
  · exact w.end_size
  · have heb : endBlock L ≠ b := fun h ↦ w.end_not_mem (h ▸ hbA)
    have heq : endBlock L ≠ q := fun h ↦ w.end_not_mem_list (h ▸ hq)
    simpa [heb, heq] using w.end_next

theorem remove_spec (w : Wellformed L m transit live A F) {buddy : ℕ} (hbuddy : buddy ∈ F) :
    ∃ q, q ∈ start L :: F ∧
      (∀ m' n, m'.nextFreeBlock = m.nextFreeBlock → F.length < n →
        removeBlockFromFreeList L n m' buddy = some (m'.setNext q (m.nextFreeBlock buddy))) ∧
      Path (update m.nextFreeBlock q (m.nextFreeBlock buddy)) (start L)
        (start L :: F.erase buddy) (endBlock L) := by
  obtain ⟨F₁, F₂, hF⟩ := List.append_of_mem hbuddy
  have hnd := w.list_nodup
  have hlist := w.list
  rw [hF] at hnd hlist
  have herase : F.erase buddy = F₁ ++ F₂ := by
    have hnot : buddy ∉ F₁ := fun hm ↦
      List.disjoint_of_nodup_append (List.nodup_cons.mp hnd).2 hm List.mem_cons_self
    rw [hF, List.erase_append_right _ hnot, List.erase_cons_head]
  have hstop : ∀ p ∈ start L :: F₁,
      (decide (p = 0) || decide (m.nextFreeBlock p = buddy)) =
        decide (m.nextFreeBlock p = buddy) := by
    intro p hp
    have hmem : p ∈ start L :: F := by
      rw [hF]
      exact List.mem_append_left (buddy :: F₂) hp
    simp [w.ne_null hmem]
  obtain ⟨l₁, q, hq, hseek⟩ := Path.seek_pred hlist hnd hstop
  obtain ⟨hqb, hpath⟩ := hlist.unlink hnd hq
  have hqmem : q ∈ start L :: F := by
    have hq₁ : q ∈ start L :: F₁ := by simp [hq]
    rw [hF]
    exact List.mem_append_left (buddy :: F₂) hq₁
  refine ⟨q, hqmem, fun m' n hm' hn ↦ ?_, by rw [herase]; exact hpath⟩
  have hlen : F₁.length < n := by
    rw [hF, List.length_append] at hn
    omega
  simp only [removeBlockFromFreeList, hm', hseek n hlen, Option.map_some, hqb]
  exact congrArg some (if_pos (w.ne_null hqmem))

theorem log_lt (h : Shaped L m b) (hne : m.blockSize b ≠ totalHeapSize) :
    ∃ k, 9 ≤ k ∧ k < 27 ∧ m.blockSize b = 2 ^ k ∧ b = L.managedMemory + m.history b * 2 ^ k := by
  obtain ⟨k, hk9, hk27, hk, hoff⟩ := h
  refine ⟨k, hk9, Nat.lt_of_le_of_ne hk27 ?_, hk, hk ▸ hoff⟩
  rintro rfl
  exact hne hk

theorem follows_half (w : Wellformed L m transit live A F) {lo hi k : ℕ} (hlo : lo ∈ A)
    (hk27 : k < 27) (hk : m.blockSize lo = 2 ^ k) (hhi : hi = lo + m.blockSize lo)
    (hoff : lo = L.managedMemory + m.history lo * 2 ^ k) (heven : m.history lo % 2 = 0) :
    ∃ A₁ A₂, A = A₁ ++ lo :: hi :: A₂ := by
  have hbound := w.tiles.bounds.2 lo hlo
  have hpos := w.tiles.pos lo hlo
  simp only [heapEnd] at hbound
  obtain ⟨-, hfit⟩ := even_fits hk27 heven (by omega)
  obtain ⟨A₁, A₂, hA⟩ := List.append_of_mem hlo
  have hend : lo + m.blockSize lo ≠ heapEnd L := by
    simp only [heapEnd]
    omega
  obtain ⟨A₃, hA₂⟩ := (hA ▸ w.tiles).follows hend
  exact ⟨A₁, A₃, by rw [hA, hA₂, hhi]⟩

theorem join_spec (w : Wellformed L m [b] live A F) {lo hi buddy : ℕ} (hbuddy : buddy ∈ F)
    (hpair : lo = b ∧ hi = buddy ∨ lo = buddy ∧ hi = b) (hhi : hi = lo + m.blockSize lo)
    (hs : m.blockSize hi = m.blockSize lo) (heven : m.history lo % 2 = 0)
    (hne : m.blockSize lo ≠ totalHeapSize) :
    ∃ m', (∀ n, F.length < n → removeBlockFromFreeList L n
        ((m.setSize lo (u32 (m.blockSize lo * 2))).setHistory lo (m.history lo >>> 1)) buddy =
          some m') ∧
      Wellformed L m' [lo] live (A.erase hi) (F.erase buddy) ∧
      m'.blockSize = update m.blockSize lo (2 * m.blockSize lo) ∧
      m'.freeBytesRemaining = m.freeBytesRemaining := by
  have hloA : lo ∈ A := by
    rcases hpair with ⟨rfl, -⟩ | ⟨rfl, -⟩
    · exact w.transit_mem List.mem_cons_self
    · exact w.free_mem hbuddy
  obtain ⟨k, hk9, hk27, hk, hoff⟩ := log_lt (w.shape lo hloA) hne
  obtain ⟨A₁, A₂, hA⟩ := follows_half w hloA hk27 hk hhi hoff heven
  obtain ⟨q, hq, hremove, hpath⟩ := remove_spec w hbuddy
  have hpos := w.tiles.pos lo hloA
  have hnd := w.tiles.nodup
  have hu : u32 (m.blockSize lo * 2) = 2 * m.blockSize lo := by
    have h := w.size_le hloA
    unfold totalHeapSize at h
    rw [u32_of_lt (by omega), Nat.mul_comm]
  have herase : A.erase hi = A₁ ++ lo :: A₂ := by
    have hnot : hi ∉ A₁ := by
      intro hm
      rw [hA] at hnd
      exact List.disjoint_of_nodup_append hnd hm (by simp)
    have hlohi : lo ≠ hi := by omega
    rw [hA, List.erase_append_right _ hnot, List.erase_cons_tail (by simpa using hlohi),
      List.erase_cons_head]
  have hperm : (A.erase hi).Perm ([lo] ++ F.erase buddy ++ live) := by
    have hF := List.perm_cons_erase hbuddy
    rw [herase]
    refine List.perm_iff_count.mpr (fun a ↦ ?_)
    have h := w.perm.count_eq a
    have h' := hF.count_eq a
    rw [hA] at h
    simp only [List.count_append, List.count_cons, List.count_nil] at h h' ⊢
    rcases hpair with ⟨rfl, rfl⟩ | ⟨rfl, rfl⟩ <;> omega
  have hnd' := hperm.nodup_iff.mp (hnd.erase hi)
  have hFlo : ∀ a ∈ F.erase buddy, a ≠ lo := by
    rintro a ha rfl
    exact (List.nodup_cons.mp hnd'.of_append_left).1 ha
  have hlend : endBlock L ≠ lo := fun h ↦ w.end_not_mem (h ▸ hloA)
  have hqend : endBlock L ≠ q := fun h ↦ w.end_not_mem_list (h ▸ hq)
  refine ⟨_, fun n hn ↦ hremove _ n rfl hn, ?_, by rw [hu]; rfl, rfl⟩
  rw [hu]
  constructor
  · rw [herase]
    refine (hA ▸ w.tiles).merge (by simp [hs]; omega) (fun z hz ↦ ?_)
    have hz' : z ≠ lo := by
      have hrest := hnd.erase hi
      rw [herase] at hrest
      rintro rfl
      exact (List.nodup_middle.mp hrest).notMem hz
    simp [hz']
  · exact hperm
  · intro x hx
    by_cases hxlo : x = lo
    · subst hxlo
      refine ⟨k + 1, by omega, by omega, by simp [hk, Nat.pow_succ'], ?_⟩
      simp only [MemoryManager.setNext, MemoryManager.setSize, MemoryManager.setHistory,
        update_self, Nat.shiftRight_one]
      have hdiv : m.history x = m.history x / 2 * 2 := by omega
      rw [hk, ← Nat.mul_assoc, ← hdiv]
      exact hoff
    · simpa [Shaped, hxlo] using w.shape x (List.mem_of_mem_erase hx)
  · exact fun x hx ↦ w.free_flag x (List.mem_of_mem_erase hx)
  · exact w.live_flag
  · exact hpath
  · refine (w.sorted.sublist List.erase_sublist).imp_of_mem (fun {x y} hx hy hxy ↦ ?_)
    simpa [hFlo x hx, hFlo y hy] using hxy
  · simpa [hlend] using w.end_size
  · simpa [hqend] using w.end_next

end ShellOS.Memory.BuddyInvariant
