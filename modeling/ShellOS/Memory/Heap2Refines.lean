import ShellOS.Memory.Heap2Bytes

namespace ShellOS.Memory.Heap2Refines

open Library.Bytes Library.Copying Library.Fuel Library.Links Library.Words Library.Runs Region
open Heap2 (MemoryManager structSize minimumBlockSize cdtSize start endBlock)
open Heap2Invariant Heap2Run Heap2Bytes

structure Addressable (L : Layout cdtSize) : Prop where
  manager : L.memoryForMemoryManager + cdtSize ≤ 2 ^ 64
  heap : heapEnd L ≤ 2 ^ 64

variable {L : Layout cdtSize} {K N S : Set ℕ} {m₀ m m' : Memory} {M M₁ : MemoryManager}
  {live A F : List ℕ} {a b n need p r : ℕ}

section Nodes

variable (L) in
/-- The addresses of the manager's two records and of the blocks' headers. -/
def nodes (A : List ℕ) : Set ℕ := {a | a = start L ∨ a = endBlock L ∨ a ∈ A}

theorem heap_apart (hlo : L.managedMemory ≤ a) (hhi : a + 16 ≤ heapEnd L) :
    (a + 16 ≤ start L ∨ endBlock L + 16 ≤ a) ∧ (a + 16 ≤ counter L ∨ counter L + 4 ≤ a) := by
  have hapart := L.apart
  unfold cdtSize at hapart
  unfold heapEnd at hhi
  unfold start endBlock counter
  omega

theorem header_bounds (w : Wellformed L M live A F) (hb : b ∈ A) :
    L.managedMemory ≤ b ∧ b + 16 ≤ b + M.size b ∧ b + M.size b ≤ heapEnd L := by
  have hbounds := w.tiles.bounds.2 b hb
  have hshape := (w.shape b hb).2
  rw [structSize_eq] at hshape
  exact ⟨hbounds.1, by omega, hbounds.2⟩

theorem headers_apart (w : Wellformed L M live A F) (ha : a ∈ A) (hb : b ∈ A) (hne : a ≠ b) :
    a + 16 ≤ b ∨ b + 16 ≤ a := by
  have hapart := w.tiles.disjoint ha hb hne
  have hasize := header_bounds w ha
  have hbsize := header_bounds w hb
  omega

def Inside (M : MemoryManager) (A : List ℕ) (a : ℕ) : Prop :=
  ∃ b ∈ A, b + 16 ≤ a ∧ a + 16 ≤ b + M.size b

theorem Inside.bounds (w : Wellformed L M live A F) (h : Inside M A a) :
    L.managedMemory ≤ a ∧ a + 16 ≤ heapEnd L := by
  obtain ⟨b, hb, hlo, hhi⟩ := h
  have hbounds := header_bounds w hb
  omega

theorem Inside.apart (w : Wellformed L M live A F) (h : Inside M A a) (hb : b ∈ A) :
    b + 16 ≤ a ∨ a + 16 ≤ b := by
  obtain ⟨c, hc, hlo, hhi⟩ := h
  by_cases hbc : b = c
  · omega
  · have hapart := w.tiles.disjoint hb hc hbc
    have hbounds := header_bounds w hb
    omega

theorem spaced_union (w : Wellformed L M live A F) (hL : Addressable L) {X : Set ℕ}
    (hX : ∀ a ∈ X, Inside M A a) (hone : X.Subsingleton) : Spaced L (nodes L A ∪ X) := by
  have hstruct : start L + 16 = endBlock L ∧ endBlock L + 16 = counter L := ⟨rfl, rfl⟩
  have hmanager : start L + 40 ≤ 2 ^ 64 := hL.manager
  have hheap := hL.heap
  have hcases : ∀ a ∈ nodes L A ∪ X, a = start L ∨ a = endBlock L ∨
      (L.managedMemory ≤ a ∧ a + 16 ≤ heapEnd L ∧ (a ∈ A ∨ a ∈ X)) := by
    rintro a ((rfl | rfl | ha) | ha)
    · exact Or.inl rfl
    · exact Or.inr (Or.inl rfl)
    · have hbounds := header_bounds w ha
      exact Or.inr (Or.inr ⟨hbounds.1, by omega, Or.inl ha⟩)
    · have hbounds := (hX a ha).bounds w
      exact Or.inr (Or.inr ⟨hbounds.1, hbounds.2, Or.inr ha⟩)
  constructor
  · intro a ha b hb hne
    rcases hcases a ha with rfl | rfl | ⟨halo, hahi, ha⟩ <;>
      rcases hcases b hb with rfl | rfl | ⟨hblo, hbhi, hb⟩
    · exact absurd rfl hne
    · omega
    · have h := (heap_apart hblo hbhi).1
      omega
    · omega
    · exact absurd rfl hne
    · have h := (heap_apart hblo hbhi).1
      omega
    · have h := (heap_apart halo hahi).1
      omega
    · have h := (heap_apart halo hahi).1
      omega
    · rcases ha with ha | ha <;> rcases hb with hb | hb
      · exact headers_apart w ha hb hne
      · exact (hX b hb).apart w ha
      · exact ((hX a ha).apart w hb).symm
      · exact absurd (hone ha hb) hne
  · intro a ha
    rcases hcases a ha with rfl | rfl | ⟨hlo, hhi, -⟩
    · omega
    · omega
    · exact (heap_apart hlo hhi).2
  · intro a ha
    rcases hcases a ha with rfl | rfl | ⟨hlo, hhi, -⟩ <;> omega
  · omega

theorem spaced_nodes (w : Wellformed L M live A F) (hL : Addressable L) : Spaced L (nodes L A) := by
  have h := spaced_union w hL (X := ∅) (by simp) Set.subsingleton_empty
  rwa [Set.union_empty] at h

end Nodes

section Simulation

structure Listed (L : Layout cdtSize) (M : MemoryManager) (F : List ℕ) (N S : Set ℕ) : Prop where
  path : Path M.next (start L) (start L :: F) (endBlock L)
  nexts : ∀ a ∈ start L :: F, a ∈ N
  sizes : ∀ a ∈ F, a ∈ S
  end_next : endBlock L ∈ N
  end_size : endBlock L ∈ S

theorem Listed.next_mem (h : Listed L M F N S) (ha : a ∈ start L :: F) :
    M.next a ∈ F ∨ M.next a = endBlock L := by
  rcases List.mem_cons.mp ha with rfl | ha
  · have hpath := h.path.2
    cases F with
    | nil => exact Or.inr hpath
    | cons b F => exact Or.inl (hpath.1 ▸ List.mem_cons_self)
  · exact h.path.2.next_mem ha

theorem Listed.next_size (h : Listed L M F N S) (ha : a ∈ start L :: F) : M.next a ∈ S := by
  rcases h.next_mem ha with hm | hm
  · exact h.sizes _ hm
  · rw [hm]
    exact h.end_size

theorem insert_rel (hK : Spaced L K) (h : Holds L K N S m₀ m M) (hN : N ⊆ K) (hS : S ⊆ K)
    (hF : Listed L M F N S) (hb : b ∈ S) (hle : M.size b ≤ M.size (endBlock L)) (n : ℕ) :
    Option.Rel (Holds L K (insert b N) S m₀) (Heap2Bytes.insertBlockIntoFreeList L n m b)
      (Heap2.insertBlockIntoFreeList L n M b) := by
  have hstop : ∀ c, c ∈ start L :: F → (!decide (size m (next m c) < size m b)) =
      !decide (M.size (M.next c) < M.size b) := by
    intro c hc
    rw [h.next c (hF.nexts c hc), h.size _ (hF.next_size hc), h.size b hb]
  have hstep : ∀ c, c ∈ start L :: F → (!decide (M.size (M.next c) < M.size b)) = false →
      M.next c ∈ start L :: F := by
    intro c hc hgo
    rcases hF.next_mem hc with hm | hm
    · exact List.mem_cons_of_mem _ hm
    · rw [hm] at hgo
      simp only [Bool.not_eq_false', decide_eq_true_eq] at hgo
      omega
  simp only [Heap2Bytes.insertBlockIntoFreeList, Heap2.insertBlockIntoFreeList]
  rw [seek_congr (P := fun c ↦ c ∈ start L :: F) hstop
    (fun c hc hgo ↦ ⟨h.next c (hF.nexts c hc), hstep c hc hgo⟩) List.mem_cons_self]
  refine rel_map (rel_refl _ (fun q hseek ↦ seek_mem hstep List.mem_cons_self hseek)) ?_
  rintro q _ ⟨rfl, hq⟩
  have hbK := hS hb
  have hqN := hF.nexts q hq
  have hfits := hK.fits b hbK
  rw [h.next q hqN]
  have hlt : M.next q < 2 ^ 64 := h.next q hqN ▸ next_lt m q
  have hfirst := h.setNext hK hN hS hbK hlt
  have hsecond := hfirst.setNext hK (Set.insert_subset hbK hN) hS (hN hqN) (by omega : b < 2 ^ 64)
  exact hsecond.mono subset_rfl (Set.subset_insert _ _) subset_rfl

theorem find_eq (h : Holds L K N S m₀ m M) (hF : Listed L M F N S)
    (hend : M.next (endBlock L) = 0) :
    Heap2Bytes.findBlock L n m need = Heap2.findBlock L n M need := by
  have hmem : ∀ c, c ∈ F ∨ c = endBlock L → c ∈ N ∧ c ∈ S := by
    rintro c (hc | rfl)
    · exact ⟨hF.nexts c (List.mem_cons_of_mem _ hc), hF.sizes c hc⟩
    · exact ⟨hF.end_next, hF.end_size⟩
  have hfirst := h.next (start L) (hF.nexts _ List.mem_cons_self)
  have hstep : ∀ w : ℕ × ℕ, w.1 ∈ start L :: F ∧ (w.2 ∈ F ∨ w.2 = endBlock L) →
      (!(decide (M.size w.2 < need) && decide (M.next w.2 ≠ 0))) = false →
      w.2 ∈ start L :: F ∧ (M.next w.2 ∈ F ∨ M.next w.2 = endBlock L) := by
    intro w hw hgo
    simp only [Bool.not_eq_false', Bool.and_eq_true, decide_eq_true_eq] at hgo
    have hw2 : w.2 ∈ F := hw.2.resolve_right (fun he ↦ hgo.2 (he ▸ hend))
    have hw2 := List.mem_cons_of_mem (start L) hw2
    exact ⟨hw2, hF.next_mem hw2⟩
  have hinit : (start L) ∈ start L :: F ∧ (M.next (start L) ∈ F ∨ M.next (start L) = endBlock L) :=
    ⟨List.mem_cons_self, hF.next_mem List.mem_cons_self⟩
  unfold Heap2Bytes.findBlock Heap2.findBlock
  rw [hfirst]
  refine seek_congr (P := fun w : ℕ × ℕ ↦ w.1 ∈ start L :: F ∧ (w.2 ∈ F ∨ w.2 = endBlock L))
    (fun w hw ↦ ?_) (fun w hw hgo ↦ ?_) hinit
  · obtain ⟨hN, hS⟩ := hmem w.2 hw.2
    rw [h.size w.2 hS, h.next w.2 hN]
  · obtain ⟨hN, -⟩ := hmem w.2 hw.2
    exact ⟨by rw [h.next w.2 hN], hstep w hw hgo⟩

def rests (M : MemoryManager) (b need : ℕ) : Set ℕ :=
  {a | a = b + need ∧ minimumBlockSize < u32Sub (M.size b) need}

theorem listed (w : Wellformed L M live A F) : Listed L M F (nodes L A) (nodes L A) := by
  have hF : ∀ a ∈ F, a ∈ nodes L A := fun a ha ↦ Or.inr (Or.inr (w.free_mem ha))
  refine ⟨w.list, fun a ha ↦ ?_, hF, Or.inr (Or.inl rfl), Or.inr (Or.inl rfl)⟩
  rcases List.mem_cons.mp ha with rfl | ha
  · exact Or.inl rfl
  · exact hF a ha

theorem pred_mem {F₁ l₁ : List ℕ} {q : ℕ} (hq : start L :: F₁ = l₁ ++ [q]) :
    q ∈ start L :: (F₁ ++ F) := by
  rw [← List.cons_append, hq]
  simp

section Split

variable {F₁ F₂ l₁ : List ℕ} {q : ℕ} (w : Wellformed L M live A (F₁ ++ b :: F₂))
include w

theorem rests_inside (hneed : structSize < need) (hle : need ≤ M.size b) :
    (∀ a ∈ rests M b need, Inside M A a) ∧ (rests M b need).Subsingleton := by
  have hbA : b ∈ A := w.free_mem (by simp)
  have hsize := w.size_le hbA
  have htotal : totalHeapSize < 2 ^ 32 := by decide
  refine ⟨fun a ha ↦ ⟨b, hbA, ?_⟩, fun a ha c hc ↦ by rw [ha.1, hc.1]⟩
  obtain ⟨rfl, hrest⟩ := ha
  rw [u32Sub_of_le hle (by omega), minimumBlockSize_eq] at hrest
  rw [structSize_eq] at hneed
  omega

theorem listed_rest (hq : start L :: F₁ = l₁ ++ [q]) (hM : M₁.next = (M.setNext q (M.next b)).next)
    (hS : nodes L A ⊆ S) : Listed L M₁ (F₁ ++ F₂) (nodes L A) S := by
  obtain ⟨-, hpath⟩ := w.list.unlink (b := b) w.list_nodup hq
  have hrest {a : ℕ} (ha : a ∈ F₁ ++ F₂) : a ∈ nodes L A := Or.inr (Or.inr (rest_mem w ha).1)
  constructor
  · rw [hM, MemoryManager.next_setNext]
    exact hpath
  · intro a ha
    rcases List.mem_cons.mp ha with rfl | ha
    · exact Or.inl rfl
    · exact hrest ha
  · exact fun a ha ↦ hS (hrest ha)
  · exact Or.inr (Or.inl rfl)
  · exact hS (Or.inr (Or.inl rfl))

theorem split_rel (hK : Spaced L K) (hsub : nodes L A ∪ rests M b need ⊆ K)
    (hq : start L :: F₁ = l₁ ++ [q]) (hneed : structSize < need) (hle : need ≤ M.size b)
    (h : Holds L K (nodes L A) (nodes L A) m₀ m M) (n : ℕ) :
    Option.Rel (Holds L K (nodes L A ∪ rests M b need) (nodes L A ∪ rests M b need) m₀)
      (Heap2Bytes.splitBlock L n (setNext m q (next m b)) b need)
      (Heap2.splitBlock L n (M.setNext q (M.next b)) b need) := by
  have hnodes : nodes L A ⊆ K := fun a ha ↦ hsub (Or.inl ha)
  have hbA : b ∈ A := w.free_mem (by simp)
  have hbN : b ∈ nodes L A := Or.inr (Or.inr hbA)
  have hqN : q ∈ nodes L A := (listed w).nexts q (pred_mem hq)
  have htotal : totalHeapSize < 2 ^ 32 := by decide
  have hsize := w.size_le hbA
  have hrest := u32Sub_of_le hle (by omega : M.size b < 2 ^ 32)
  have hnext : M.next b < 2 ^ 64 := h.next b hbN ▸ next_lt m b
  rw [h.next b hbN]
  have h₁ : Holds L K (nodes L A) (nodes L A) m₀ (setNext m q (M.next b)) (M.setNext q (M.next b)) :=
    (h.setNext hK hnodes hnodes (hnodes hqN) hnext).mono subset_rfl (Set.subset_insert _ _) subset_rfl
  unfold Heap2Bytes.splitBlock Heap2.splitBlock
  rw [h₁.size b hbN]
  simp only [MemoryManager.size_setNext]
  by_cases hcut : minimumBlockSize < u32Sub (M.size b) need
  · rw [if_pos hcut, if_pos hcut]
    have hnew : b + need ∈ K := hsub (Or.inr ⟨rfl, hcut⟩)
    rw [hrest] at hcut ⊢
    rw [minimumBlockSize_eq] at hcut
    have hins : insert (b + need) (nodes L A) ⊆ K := Set.insert_subset hnew hnodes
    have h₂ := h₁.setSize hK hnodes hnodes hnew (by omega : M.size b - need < 2 ^ 32)
    have h₃ : Holds L K (nodes L A) (insert (b + need) (nodes L A)) m₀ _ (cut M q b need) :=
      (h₂.setSize hK hnodes hins (hnodes hbN) (by omega : need < 2 ^ 32)).mono subset_rfl subset_rfl
        (Set.subset_insert _ _)
    have hnextCut : (cut M q b need).next = (M.setNext q (M.next b)).next := by simp [cut]
    have hF := listed_rest w hq hnextCut (Set.subset_insert (b + need) _)
    obtain ⟨-, hnewSize, hendSize, -⟩ := cut_sizes w (q := q) (by omega) (by omega : need < M.size b)
    have hrel := insert_rel hK h₃ hnodes hins hF (Set.mem_insert _ _)
      (by rw [hnewSize, hendSize]; omega) n
    have hback : nodes L A ∪ rests M b need ⊆ insert (b + need) (nodes L A) := by
      rintro a (ha | ha)
      · exact Or.inr ha
      · exact Or.inl ha.1
    exact rel_mono hrel (fun _ _ h' ↦ h'.mono subset_rfl hback hback)
  · rw [if_neg hcut, if_neg hcut]
    refine .some (h₁.mono subset_rfl ?_ ?_) <;>
    · rintro a (ha | ha)
      · exact ha
      · exact absurd ha.2 hcut

end Split

/-- The records that the bytes hold after a block at `b` was handed out. -/
def taken (L : Layout cdtSize) (M : MemoryManager) (A : List ℕ) (b r : ℕ) : Set ℕ :=
  nodes L A ∪ rests M b (requestSize structSize r)

/-- The two calls return the same pointer, and the bytes that were left hold
the records that were left. -/
def Allocated (L : Layout cdtSize) (A F : List ℕ) (r : ℕ) (m : Memory) (M : MemoryManager)
    (c : Memory × ℕ) (d : MemoryManager × ℕ) : Prop :=
  c.2 = d.2 ∧ (d.2 = 0 ∧ c.1 = m ∧ d.1 = M ∨ ∃ b ∈ F, d.2 = b + structSize ∧
    Holds L (taken L M A b r) (taken L M A b r) (taken L M A b r) m c.1 d.1)

theorem alloc_rel (w : Wellformed L M live A F) (hL : Addressable L) (hin : InRange structSize r)
    (h : Holds L (nodes L A) (nodes L A) (nodes L A) m m M) (n : ℕ) :
    Option.Rel (Allocated L A F r m M) (Heap2Bytes.allocMem L n m r) (Heap2.allocMem L n M r) := by
  unfold Heap2Bytes.allocMem Heap2.allocMem
  have hnone : Allocated L A F r m M (m, 0) (M, 0) := ⟨rfl, Or.inl ⟨rfl, rfl, rfl⟩⟩
  by_cases hr : r = 0
  · rw [if_pos hr, if_pos hr]
    exact .some hnone
  by_cases hlt : requestSize structSize r < totalHeapSize
  swap
  · rw [if_neg hr, if_neg hr, if_neg hlt, if_neg hlt]
    exact .some hnone
  rw [if_neg hr, if_neg hr, if_pos hlt, if_pos hlt]
  obtain ⟨-, hneed, -⟩ := request_bounds hr hin
  rw [find_eq h (listed w) w.end_next]
  cases hfind : Heap2.findBlock L n M (requestSize structSize r) with
  | none => exact .none
  | some found =>
    obtain ⟨q, b⟩ := found
    have hmono {k : ℕ} (hk : n ≤ k) :
        Heap2.findBlock L k M (requestSize structSize r) = some (q, b) := seek_mono hfind hk
    simp only [Option.bind_eq_bind, Option.bind_some]
    rcases findBlock_spec w (requestSize structSize r) hlt.le with
      ⟨-, q', hspec⟩ | ⟨F₁, b', F₂, rfl, -, hle, l₁, q', hq, hspec⟩
    · have heq := hmono (Nat.le_max_left n (F.length + 1))
      rw [hspec _ (by omega)] at heq
      cases heq
      rw [if_pos rfl, if_pos rfl]
      exact .some hnone
    · have heq := hmono (Nat.le_max_left n ((F₁ ++ b' :: F₂).length + 1))
      rw [hspec _ (by omega)] at heq
      cases heq
      have hbF : b ∈ F₁ ++ b :: F₂ := by simp
      have hbe : b ≠ endBlock L := fun h ↦ w.end_not_mem (h ▸ w.free_mem hbF)
      rw [if_neg hbe, if_neg hbe]
      obtain ⟨hinside, hone⟩ := rests_inside w hneed hle
      have hK := spaced_union w hL hinside hone
      have hnodes : nodes L A ⊆ taken L M A b r := Set.subset_union_left
      have hrel := split_rel w hK subset_rfl hq hneed hle (h.mono hnodes subset_rfl subset_rfl) n
      obtain ⟨hqb, -⟩ := w.list.unlink (b := b) w.list_nodup hq
      have hret : next m q = M.next q := h.next q ((listed w).nexts q (pred_mem hq))
      refine rel_bind hrel (fun m₂ M₂ h₂ ↦ ?_)
      refine .some ⟨by rw [hret], Or.inr ⟨b, hbF, by rw [hqb], ?_⟩⟩
      have hbnode : b ∈ taken L M A b r := hnodes (Or.inr (Or.inr (w.free_mem hbF)))
      rw [h₂.free, h₂.size b hbnode]
      exact h₂.setFreeBytes hK subset_rfl subset_rfl (u32_lt _)

theorem free_rel (w : Wellformed L M live A F) (hL : Addressable L) (hb : b ∈ live)
    (h : Holds L (nodes L A) (nodes L A) (nodes L A) m₀ m M) (n : ℕ) :
    Option.Rel (Holds L (nodes L A) (nodes L A) (nodes L A) m₀)
      (Heap2Bytes.freeMem L n m (b + structSize)) (Heap2.freeMem L n M (b + structSize)) := by
  have hK := spaced_nodes w hL
  have hbnode : b ∈ nodes L A := Or.inr (Or.inr (w.live_mem hb))
  have hne : b + structSize ≠ 0 := by
    rw [structSize_eq]
    omega
  have hle : M.size b ≤ M.size (endBlock L) := by
    rw [w.end_size]
    exact w.size_le (w.live_mem hb)
  unfold Heap2Bytes.freeMem Heap2.freeMem
  simp only [if_neg hne, Nat.add_sub_cancel]
  have hrel := insert_rel hK h subset_rfl subset_rfl (listed w) hbnode hle n
  refine rel_map hrel (fun m₁ M₁ h₁ ↦ ?_)
  rw [h₁.free, h₁.size b hbnode]
  exact (h₁.mono subset_rfl (Set.subset_insert _ _) subset_rfl).setFreeBytes hK subset_rfl
    subset_rfl (u32_lt _)

end Simulation

end ShellOS.Memory.Heap2Refines
