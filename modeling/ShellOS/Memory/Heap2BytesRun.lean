import ShellOS.Memory.Heap2Refines

namespace ShellOS.Memory.Heap2BytesRun

open Library.Bytes Library.Fuel Library.Runs Library.Tiling Library.Words Region
open Heap2Invariant Heap2Bytes Heap2Refines
open Heap2 (MemoryManager structSize minimumBlockSize cdtSize start endBlock)
open Heap2Run (Call header header_add)

variable (L : Layout cdtSize)

structure State where
  memory : Memory
  live : List ℕ

/-- The bytes from a pointer to the end of its block. -/
def payload (m : Memory) (p : ℕ) : Set (BitVec 64) :=
  span (BitVec.ofNat 64 p) (size m (header p) - structSize)

/-- The bytes of the manager's structure and of the heap. -/
def managed : Set (BitVec 64) :=
  span (BitVec.ofNat 64 L.memoryForMemoryManager) cdtSize ∪
    span (BitVec.ofNat 64 L.managedMemory) totalHeapSize

/-- One call, or one write by a client. A client may change every byte of its
block, and those that the manager does not look after. -/
inductive Step : State → Call → State → Prop
  | alloc {s : State} {r fuel p : ℕ} {m : Memory} :
      r ≤ totalHeapSize → allocMem L fuel s.memory r = some (m, p) →
      Step s (.alloc r) ⟨m, if p = 0 then s.live else p :: s.live⟩
  | free {s : State} {fuel p : ℕ} {m : Memory} :
      p ∈ s.live ∨ p = 0 → freeMem L fuel s.memory p = some m →
      Step s (.free p) ⟨m, s.live.erase p⟩
  | write {s : State} {p : ℕ} {m : Memory} :
      p ∈ s.live → (∀ x ∈ managed L, x ∉ payload s.memory p → m x = s.memory x) →
      Step s (.write p) ⟨m, s.live⟩

def boot (m : Memory) : State := ⟨createMemoryManager L m, []⟩

def Refines (s : State) (t : Heap2Run.State) : Prop :=
  s.live = t.live ∧ (∀ p ∈ t.live, structSize < p) ∧
    ∃ A F, Wellformed L t.manager (t.live.map header) A F ∧
      Holds L (nodes L A) (nodes L A) (nodes L A) s.memory s.memory t.manager

variable {L} {s t : State} {S T : Heap2Run.State} {m m' m₀ : Memory} {M M' : MemoryManager}
  {live A A' F F' F₁ F₂ : List ℕ} {b p q r : ℕ} {c : Call} {x : BitVec 64} {K N : Set ℕ}

section Frames

theorem inside_own (w : Wellformed L M live A F) (hL : Addressable L) (hb : b ∈ A)
    (hlo : b + 16 ≤ x.toNat) (hhi : x.toNat < b + M.size b) : x ∉ ownBytes L (nodes L A) := by
  have hbounds := header_bounds w hb
  have hapart := L.apart
  have hmanager : L.memoryForMemoryManager + 40 ≤ 2 ^ 64 := hL.manager
  have hheap := hL.heap
  have hend : heapEnd L = L.managedMemory + totalHeapSize := rfl
  unfold cdtSize at hapart
  rintro (⟨a, ha, hx⟩ | hx)
  · rcases ha with rfl | rfl | ha
    · have hx := (mem_span_ofNat (by decide) (by unfold start; omega)).mp hx
      unfold start at hx
      omega
    · have hx := (mem_span_ofNat (by decide) (by unfold endBlock; omega)).mp hx
      unfold endBlock at hx
      omega
    · have habounds := header_bounds w ha
      have hx := (mem_span_ofNat (by decide) (by omega)).mp hx
      by_cases hab : a = b
      · omega
      · have hdisjoint := w.tiles.disjoint ha hb hab
        omega
  · have hx := (mem_span_ofNat (by decide) (by unfold counter; omega)).mp hx
    unfold counter at hx
    omega

theorem mem_payload (w : Wellformed L M live A F) (hL : Addressable L)
    (h : Holds L (nodes L A) (nodes L A) (nodes L A) m₀ m M) (hp : structSize < p)
    (hA : header p ∈ A) (hx : x ∈ payload m p) :
    header p + 16 ≤ x.toNat ∧ x.toNat < header p + M.size (header p) := by
  have hpp : header p + structSize = p := Nat.sub_add_cancel hp.le
  have hbounds := header_bounds w hA
  have hheap := hL.heap
  unfold payload at hx
  rw [h.size _ (Or.inr (Or.inr hA)), structSize_eq] at hx
  rw [structSize_eq] at hpp
  have hpos : 0 < M.size (header p) - 16 := by
    have hx : (x - BitVec.ofNat 64 p).toNat < M.size (header p) - 16 := hx
    omega
  have hx := (mem_span_ofNat hpos (by omega)).mp hx
  omega

theorem own_managed (w : Wellformed L M live A F) (hL : Addressable L)
    (hx : x ∈ ownBytes L (nodes L A)) : x ∈ managed L := by
  have hmanager : L.memoryForMemoryManager + 40 ≤ 2 ^ 64 := hL.manager
  have hheap : L.managedMemory + totalHeapSize ≤ 2 ^ 64 := hL.heap
  have hleft (h : L.memoryForMemoryManager ≤ x.toNat ∧ x.toNat < L.memoryForMemoryManager + 40) :
      x ∈ managed L := Or.inl ((mem_span_ofNat (by decide) hL.manager).mpr h)
  rcases hx with ⟨a, ha, hx⟩ | hx
  · rcases ha with rfl | rfl | ha
    · have hx := (mem_span_ofNat (by decide) (by unfold start; omega)).mp hx
      unfold start at hx
      exact hleft (by omega)
    · have hx := (mem_span_ofNat (by decide) (by unfold endBlock; omega)).mp hx
      unfold endBlock at hx
      exact hleft (by omega)
    · have hbounds := header_bounds w ha
      have hend : heapEnd L = L.managedMemory + totalHeapSize := rfl
      have hx := (mem_span_ofNat (by decide) (by omega)).mp hx
      exact Or.inr ((mem_span_ofNat (by decide) hheap).mpr (by omega))
  · have hx := (mem_span_ofNat (by decide) (by unfold counter; omega)).mp hx
    unfold counter at hx
    exact hleft (by omega)

end Frames

section Boot

theorem createMemoryManager_eq (memory : ℕ → Heap2.MemoryBlock) (v : ℕ) :
    Heap2.createMemoryManager L memory =
      ((((((⟨memory, v⟩ : MemoryManager).setFreeBytes totalHeapSize).setNext (start L)
        L.managedMemory).setSize (start L) 0).setSize (endBlock L) totalHeapSize).setNext (endBlock L)
        0 |>.setSize L.managedMemory totalHeapSize).setNext L.managedMemory (endBlock L) := by
  simp [Heap2.createMemoryManager, MemoryManager.setFreeBytes, MemoryManager.setNext,
    MemoryManager.setSize]

theorem boot_blocks (w : Wellformed L (Heap2.createMemoryManager L memory) [] A F) :
    A = [L.managedMemory] := by
  have hsize : (Heap2.createMemoryManager L memory).size L.managedMemory = totalHeapSize := by
    simp [Heap2.createMemoryManager, MemoryManager.size]
  have hpos : 0 < totalHeapSize := by decide
  cases A with
  | nil =>
    have hpath : L.managedMemory = heapEnd L := w.tiles.path
    unfold heapEnd at hpath
    omega
  | cons a A =>
    obtain ⟨rfl, -, hrest⟩ := tiles_cons.mp w.tiles
    rw [hsize] at hrest
    cases A with
    | nil => rfl
    | cons c A =>
      have hbounds := hrest.bounds.2 c List.mem_cons_self
      have hc := hrest.pos c List.mem_cons_self
      unfold heapEnd at hbounds
      omega

theorem boot_refines (hL : Addressable L) (m : Memory) :
    Refines L (boot L m) (Heap2Run.boot L fun _ ↦ ⟨0, 0⟩) := by
  obtain ⟨hlive, A, F, w⟩ := Heap2Run.boot_invariant (L := L) fun _ ↦ ⟨0, 0⟩
  refine ⟨rfl, hlive, A, F, w, ?_⟩
  obtain rfl := boot_blocks w
  have hK := spaced_nodes w hL
  have hheap : L.managedMemory + totalHeapSize ≤ 2 ^ 64 := hL.heap
  have hmanager : L.memoryForMemoryManager + 40 ≤ 2 ^ 64 := hL.manager
  have hpos : 0 < totalHeapSize := by decide
  have hend : endBlock L < 2 ^ 64 := by
    unfold endBlock
    omega
  have hstartK : start L ∈ nodes L [L.managedMemory] := Or.inl rfl
  have hendK : endBlock L ∈ nodes L [L.managedMemory] := Or.inr (Or.inl rfl)
  have hfirstK : L.managedMemory ∈ nodes L [L.managedMemory] :=
    Or.inr (Or.inr (List.mem_singleton_self _))
  have h₀ : Holds L (nodes L [L.managedMemory]) ∅ ∅ m m ⟨fun _ ↦ ⟨0, 0⟩, freeBytesRemaining L m⟩ :=
    ⟨fun _ h ↦ h.elim, fun _ h ↦ h.elim, rfl, fun _ _ ↦ rfl⟩
  have hnone := Set.empty_subset (nodes L [L.managedMemory])
  have h₁ := h₀.setFreeBytes hK hnone hnone (by decide : totalHeapSize < 2 ^ 32)
  have h₂ := h₁.setNext hK hnone hnone hstartK (by omega : L.managedMemory < 2 ^ 64)
  have hone := Set.insert_subset hstartK hnone
  have h₃ := h₂.setSize hK hone hnone hstartK (by decide : 0 < 2 ^ 32)
  have h₄ := h₃.setSize hK hone hone hendK (by decide : totalHeapSize < 2 ^ 32)
  have htwo := Set.insert_subset hendK hone
  have h₅ := h₄.setNext hK hone htwo hendK (by decide : 0 < 2 ^ 64)
  have h₆ := h₅.setSize hK htwo htwo hfirstK (by decide : totalHeapSize < 2 ^ 32)
  have h₇ := h₆.setNext hK htwo (Set.insert_subset hfirstK htwo) hfirstK hend
  rw [← createMemoryManager_eq] at h₇
  have hall : nodes L [L.managedMemory] ⊆
      insert L.managedMemory (insert (endBlock L) (insert (start L) ∅)) := by
    rintro a (rfl | rfl | ha)
    · exact Or.inr (Or.inr (Or.inl rfl))
    · exact Or.inr (Or.inl rfl)
    · exact Or.inl (List.mem_singleton.mp ha)
  exact (h₇.mono subset_rfl hall hall).rebase

end Boot

section Steps

theorem nodes_taken {need : ℕ} (w : Wellformed L M live A (F₁ ++ b :: F₂))
    (hle : need ≤ M.size b) (ht : Taken M M' need b F₁ F₂ A A' F') :
    nodes L A' = nodes L A ∪ rests M b need := by
  have hsize := w.size_le (w.free_mem (show b ∈ F₁ ++ b :: F₂ by simp))
  have htotal : totalHeapSize < 2 ^ 32 := by decide
  have hrest := u32Sub_of_le hle (by omega : M.size b < 2 ^ 32)
  rcases ht.whole_or_cut with ⟨-, hsmall, rfl, -⟩ | ⟨-, hsum, hlarge, hperm, -⟩
  · refine (Set.union_eq_self_of_subset_right ?_).symm
    rintro a ⟨-, ha⟩
    omega
  · ext a
    constructor
    · rintro (ha | ha | ha)
      · exact Or.inl (Or.inl ha)
      · exact Or.inl (Or.inr (Or.inl ha))
      · rcases List.mem_cons.mp (hperm.mem_iff.mp ha) with rfl | ha
        · exact Or.inr ⟨rfl, by omega⟩
        · exact Or.inl (Or.inr (Or.inr ha))
    · rintro ((ha | ha | ha) | ⟨rfl, -⟩)
      · exact Or.inl ha
      · exact Or.inr (Or.inl ha)
      · exact Or.inr (Or.inr (hperm.mem_iff.mpr (List.mem_cons_of_mem _ ha)))
      · exact Or.inr (Or.inr (hperm.mem_iff.mpr List.mem_cons_self))

def Kept (s t : State) (c : Call) (p : ℕ) : Prop :=
  size t.memory (header p) = size s.memory (header p) ∧
    (c ≠ .write p → ∀ x ∈ payload s.memory p, t.memory x = s.memory x)

theorem kept_of_own (w : Wellformed L M live A F) (hL : Addressable L)
    (h : Holds L (nodes L A) (nodes L A) (nodes L A) m₀ s.memory M) (hp : structSize < p)
    (hA : header p ∈ A) (hA' : ∀ x ∉ ownBytes L K, t.memory x = s.memory x)
    (hK : ∀ x, header p + 16 ≤ x.toNat → x.toNat < header p + M.size (header p) →
      x ∉ ownBytes L K) (hsize : size t.memory (header p) = size s.memory (header p)) :
    Kept s t c p := by
  refine ⟨hsize, fun _ x hx ↦ ?_⟩
  obtain ⟨hlo, hhi⟩ := mem_payload w hL h hp hA hx
  exact hA' x (hK x hlo hhi)

theorem header_ne (hp : structSize < p) (hq : structSize < q) (hne : p ≠ q) :
    header p ≠ header q := by
  unfold header
  omega

structure Found (L : Layout cdtSize) (r : ℕ) (m m' : Memory) (M M' : MemoryManager)
    (live A F : List ℕ) (b : ℕ) (A' F' : List ℕ) : Prop where
  free : b ∈ F
  wellformed : Wellformed L M' (b :: live) A' F'
  holds : Holds L (nodes L A') (nodes L A') (nodes L A') m m' M'
  sizes : ∀ a ∈ A, a ≠ b → M'.size a = M.size a
  room : r + structSize ≤ M'.size b

theorem alloc_found (hL : Addressable L) (w : Wellformed L M live A F)
    (h : Holds L (nodes L A) (nodes L A) (nodes L A) m m M) (hr : r ≤ totalHeapSize) {fuel : ℕ}
    (ha : allocMem L fuel m r = some (m', p)) :
    ∃ M', Heap2.allocMem L fuel M r = some (M', p) ∧ (p = 0 ∧ m' = m ∧ M' = M ∨
      ∃ b A' F', p = b + structSize ∧ Found L r m m' M M' live A F b A' F') := by
  obtain ⟨⟨M', p'⟩, hM, rfl, hcase⟩ := rel_left (alloc_rel w hL (inRange hr) h fuel) ha
  refine ⟨M', hM, ?_⟩
  rcases hcase with ⟨h0, hm, hM'⟩ | ⟨b, hbF, hp, h'⟩
  · exact Or.inl ⟨h0, hm, hM'⟩
  simp only at hp h'
  have hne : p ≠ 0 := by
    rw [hp, structSize_eq]
    omega
  have hr0 : r ≠ 0 := by
    intro h0
    rw [allocMem, if_pos h0] at ha
    exact hne (Prod.mk.inj (Option.some.inj ha)).2.symm
  rcases alloc_spec w (inRange hr) with
    ⟨-, hnone⟩ | ⟨F₁, b', F₂, M₁, A', F', rfl, -, hle, w', ht, hsome⟩
  · have hbig := (Heap2.allocMem_mono L _ _ (Nat.le_max_left fuel (F.length + 1))).eq hM
    rw [hnone _ (by omega)] at hbig
    exact absurd (Prod.mk.inj (Option.some.inj hbig)).2.symm hne
  · have hbig := (Heap2.allocMem_mono L _ _
      (Nat.le_max_left fuel ((F₁ ++ b' :: F₂).length + 1))).eq hM
    rw [hsome _ (by omega)] at hbig
    obtain ⟨rfl, hpb⟩ := Prod.mk.inj (Option.some.inj hbig)
    obtain rfl : b' = b := by omega
    obtain ⟨-, -, hneed⟩ := request_bounds hr0 (inRange hr)
    have htaken : taken L M A b' r = nodes L A' := (nodes_taken w hle ht).symm
    rw [htaken] at h'
    refine Or.inr ⟨b', A', F', hp, hbF, w', h', ?_, ?_⟩ <;> rw [MemoryManager.size_setFreeBytes]
    · exact ht.size_ne
    rcases ht.whole_or_cut with ⟨hs, -⟩ | ⟨hs, -⟩ <;> omega

theorem alloc_refines (hL : Addressable L) (hR : Refines L s S) (hr : r ≤ totalHeapSize) {fuel : ℕ}
    (ha : allocMem L fuel s.memory r = some (m, p)) :
    ∃ T, Heap2Run.Step L S (.alloc r) T ∧
      Refines L ⟨m, if p = 0 then s.live else p :: s.live⟩ T ∧
      ∀ q ∈ s.live, Kept s ⟨m, if p = 0 then s.live else p :: s.live⟩ (.alloc r) q := by
  obtain ⟨hlive, hpos, A, F, w, h⟩ := hR
  obtain ⟨M', hM, hcase⟩ := alloc_found hL w h hr ha
  refine ⟨_, .alloc hr hM, ?_⟩
  rcases hcase with ⟨rfl, rfl, rfl⟩ | ⟨b, A', F', rfl, hfound⟩
  · exact ⟨⟨hlive, hpos, A, F, w, h⟩, fun q _ ↦ ⟨rfl, fun _ x _ ↦ rfl⟩⟩
  have hbA := w.free_mem hfound.free
  have hmanaged := (header_bounds w hbA).1
  have hnull := L.memory_ne_null
  rw [if_neg (by omega), if_neg (by omega)]
  refine ⟨⟨by rw [hlive], List.forall_mem_cons.mpr ⟨by omega, hpos⟩, A', F', ?_,
    hfound.holds.rebase⟩, fun q hq ↦ ?_⟩
  · rw [List.map_cons, header_add]
    exact hfound.wellformed
  · rw [hlive] at hq
    have hqlive : header q ∈ S.live.map header := List.mem_map_of_mem hq
    have hqA := w.live_mem hqlive
    have hqb : header q ≠ b := fun heq ↦
      List.disjoint_of_nodup_append w.nodup hfound.free (heq ▸ hqlive)
    have hqA' := hfound.wellformed.live_mem (List.mem_cons_of_mem b hqlive)
    have hsize := hfound.sizes _ hqA hqb
    have hbytes : size m (header q) = size s.memory (header q) := by
      rw [hfound.holds.size _ (Or.inr (Or.inr hqA')), h.size _ (Or.inr (Or.inr hqA)), hsize]
    refine kept_of_own w hL h (hpos q hq) hqA hfound.holds.frame (fun x hlo hhi ↦ ?_) hbytes
    exact inside_own hfound.wellformed hL hqA' hlo (by rwa [hsize])

theorem alloc_room (hL : Addressable L) (hR : Refines L s S) (hr : r ≤ totalHeapSize) {fuel : ℕ}
    (ha : allocMem L fuel s.memory r = some (m, p)) (hp : p ≠ 0) :
    r ≤ size m (header p) - structSize := by
  obtain ⟨-, -, A, F, w, h⟩ := hR
  obtain ⟨M', -, hcase⟩ := alloc_found hL w h hr ha
  rcases hcase with ⟨h0, -⟩ | ⟨b, A', F', rfl, hfound⟩
  · exact absurd h0 hp
  · have hb : b ∈ nodes L A' := Or.inr (Or.inr (hfound.wellformed.live_mem List.mem_cons_self))
    have hroom := hfound.room
    rw [header_add, hfound.holds.size b hb]
    omega

theorem free_refines (hL : Addressable L) (hR : Refines L s S) (hp : p ∈ s.live ∨ p = 0) {fuel : ℕ}
    (hf : freeMem L fuel s.memory p = some m) :
    ∃ T, Heap2Run.Step L S (.free p) T ∧ Refines L ⟨m, s.live.erase p⟩ T ∧
      ∀ q ∈ s.live, Kept s ⟨m, s.live.erase p⟩ (.free p) q := by
  obtain ⟨hlive, hpos, A, F, w, h⟩ := hR
  rcases hp with hp | rfl
  · rw [hlive] at hp
    have hpp : header p + structSize = p := Nat.sub_add_cancel (hpos p hp).le
    have hrel := free_rel w hL (List.mem_map_of_mem hp) h fuel
    rw [hpp] at hrel
    obtain ⟨M', hM, h'⟩ := rel_left hrel hf
    refine ⟨_, .free (Or.inl hp) hM, ?_⟩
    obtain ⟨M₁, hsome, hsize, w'⟩ := free_spec w (live_perm header hp)
    rw [hpp] at hsome
    have hbig := (Heap2.freeMem_mono L _ _ (Nat.le_max_left fuel (F.length + 1))).eq hM
    rw [hsome _ (by omega)] at hbig
    cases hbig
    refine ⟨⟨by rw [hlive], fun q hq ↦ hpos q (List.mem_of_mem_erase hq), A, _, w', h'.rebase⟩,
      fun q hq ↦ ?_⟩
    rw [hlive] at hq
    have hqA := w.live_mem (List.mem_map_of_mem hq)
    refine kept_of_own w hL h (hpos q hq) hqA h'.frame (fun x hlo hhi ↦ inside_own w hL hqA hlo hhi) ?_
    rw [h'.size _ (Or.inr (Or.inr hqA)), h.size _ (Or.inr (Or.inr hqA)), hsize]
  · have hnot : 0 ∉ S.live := fun h0 ↦ absurd (hpos 0 h0) (Nat.not_lt_zero _)
    cases hf
    have hnull : Heap2.freeMem L 0 S.manager 0 = some S.manager := rfl
    refine ⟨⟨S.manager, S.live.erase 0⟩, .free (Or.inr rfl) hnull, ?_, ?_⟩
    · rw [hlive, List.erase_of_not_mem hnot]
      exact ⟨rfl, hpos, A, F, w, h⟩
    · exact fun q _ ↦ ⟨rfl, fun _ x _ ↦ rfl⟩

theorem write_refines (hL : Addressable L) (hR : Refines L s S) (hp : p ∈ s.live)
    (hm : ∀ x ∈ managed L, x ∉ payload s.memory p → m x = s.memory x) :
    ∃ T, Heap2Run.Step L S (.write p) T ∧ Refines L ⟨m, s.live⟩ T ∧
      ∀ q ∈ s.live, Kept s ⟨m, s.live⟩ (.write p) q := by
  obtain ⟨hlive, hpos, A, F, w, h⟩ := hR
  have hA {q : ℕ} (hq : q ∈ s.live) : header q ∈ A :=
    w.live_mem (List.mem_map_of_mem (hlive ▸ hq))
  have hpos {q : ℕ} (hq : q ∈ s.live) : structSize < q := hpos q (hlive ▸ hq)
  have hown : ∀ x ∈ ownBytes L (nodes L A), m x = s.memory x := by
    intro x hx
    refine hm x (own_managed w hL hx) (fun hmem ↦ ?_)
    obtain ⟨hlo, hhi⟩ := mem_payload w hL h (hpos hp) (hA hp) hmem
    exact inside_own w hL (hA hp) hlo hhi hx
  have h' := h.congr hown
  refine ⟨S, .write (hlive ▸ hp) (fun _ _ ↦ rfl), ⟨hlive, fun q hq ↦ hpos (hlive ▸ hq), A, F, w, h'⟩,
    fun q hq ↦ ⟨?_, fun hne x hx ↦ ?_⟩⟩
  · rw [h'.size _ (Or.inr (Or.inr (hA hq))), h.size _ (Or.inr (Or.inr (hA hq)))]
  · obtain ⟨hlo, hhi⟩ := mem_payload w hL h (hpos hq) (hA hq) hx
    have hbounds := header_bounds w (hA hq)
    have hheap : L.managedMemory + totalHeapSize ≤ 2 ^ 64 := hL.heap
    have hend : heapEnd L = L.managedMemory + totalHeapSize := rfl
    refine hm x (Or.inr ((mem_span_ofNat (by decide) hheap).mpr (by omega))) (fun hmem ↦ ?_)
    obtain ⟨hlo', hhi'⟩ := mem_payload w hL h (hpos hp) (hA hp) hmem
    have hpq : q ≠ p := fun heq ↦ hne (by rw [heq])
    have hapart := w.tiles.disjoint (hA hq) (hA hp) (header_ne (hpos hq) (hpos hp) hpq)
    omega

theorem step_refines (hL : Addressable L) (hR : Refines L s S) (hs : Step L s c t) :
    ∃ T, Heap2Run.Step L S c T ∧ Refines L t T ∧ ∀ q ∈ s.live, Kept s t c q := by
  cases hs with
  | alloc hr ha => exact alloc_refines hL hR hr ha
  | free hp hf => exact free_refines hL hR hp hf
  | write hp hm => exact write_refines hL hR hp hm

end Steps

section Runs

variable {tr tr' : List (State × Call)}

theorem step_matched (hL : Addressable L) (s : State) (c : Call) (t : State) (S : Heap2Run.State)
    (hR : Refines L s S) (hs : Step L s c t) : ∃ T, Heap2Run.Step L S c T ∧ Refines L t T := by
  obtain ⟨T, hT, hR', -⟩ := step_refines hL hR hs
  exact ⟨T, hT, hR'⟩

theorem run_refines (hL : Addressable L) {memory : Memory} (h : Run (Step L) (boot L memory) tr s) :
    ∃ S, Refines L s S := by
  obtain ⟨-, S, -, -, hR⟩ := h.simulate (step_matched hL) (boot_refines hL memory)
  exact ⟨S, hR⟩

theorem alloc_returns (hL : Addressable L) (hR : Refines L s S) (hr : r ≤ totalHeapSize) :
    ∃ n, ∀ fuel, n < fuel → (allocMem L fuel s.memory r).isSome := by
  obtain ⟨-, -, A, F, w, h⟩ := hR
  refine ⟨F.length, fun fuel hfuel ↦ ?_⟩
  have hrel := alloc_rel w hL (inRange hr) h fuel
  rcases alloc_spec w (inRange hr) with ⟨-, hnone⟩ | ⟨F₁, b, F₂, M', A', F', -, -, -, -, -, hsome⟩
  · obtain ⟨c, hc, -⟩ := rel_right hrel (hnone fuel hfuel)
    rw [hc]
    rfl
  · obtain ⟨c, hc, -⟩ := rel_right hrel (hsome fuel hfuel)
    rw [hc]
    rfl

theorem free_returns (hL : Addressable L) (hR : Refines L s S) (hp : p ∈ s.live) :
    ∃ n, ∀ fuel, n < fuel → (freeMem L fuel s.memory p).isSome := by
  obtain ⟨hlive, hpos, A, F, w, h⟩ := hR
  rw [hlive] at hp
  have hpp : header p + structSize = p := Nat.sub_add_cancel (hpos p hp).le
  obtain ⟨M', hsome, -, -⟩ := free_spec w (live_perm header hp)
  refine ⟨F.length, fun fuel hfuel ↦ ?_⟩
  obtain ⟨c, hc, -⟩ := rel_right (free_rel w hL (List.mem_map_of_mem hp) h fuel) (hsome fuel hfuel)
  rw [hpp] at hc
  rw [hc]
  rfl

/-- The manager of bytes does what the manager of records does, call by call
and pointer by pointer, and its next call returns. -/
theorem bytes_refine_records (hL : Addressable L) (memory : Memory)
    (h : Run (Step L) (boot L memory) tr s) :
    (∃ TR S, Run (Heap2Run.Step L) (Heap2Run.boot L fun _ ↦ ⟨0, 0⟩) TR S ∧
      TR.map Prod.snd = tr.map Prod.snd ∧ Refines L s S) ∧
    (∀ r, r ≤ totalHeapSize → ∃ n, ∀ fuel, n < fuel → (allocMem L fuel s.memory r).isSome) ∧
    ∀ p ∈ s.live, ∃ n, ∀ fuel, n < fuel → (freeMem L fuel s.memory p).isSome := by
  obtain ⟨TR, S, hrun, hmap, hR⟩ := h.simulate (step_matched hL) (boot_refines hL memory)
  exact ⟨⟨TR, S, hrun, hmap, hR⟩, fun r hr ↦ alloc_returns hL hR hr,
    fun p hp ↦ free_returns hL hR hp⟩

def kernelHeap : Layout cdtSize := Heap2Run.kernelHeap

theorem kernelHeap_addressable : Addressable kernelHeap := ⟨by decide, by decide⟩

def zeros : Memory := fun _ ↦ 0

theorem alloc_exact (hL : Addressable L) (hR : Refines L s S) (hr : r ≤ totalHeapSize) {n : ℕ}
    (hM : Heap2.allocMem L n S.manager r = some (M, p)) :
    ∃ m, allocMem L n s.memory r = some (m, p) ∧
      Refines L ⟨m, if p = 0 then s.live else p :: s.live⟩
        ⟨M, if p = 0 then S.live else p :: S.live⟩ := by
  obtain ⟨-, -, A, F, w, h⟩ := id hR
  obtain ⟨⟨m, p'⟩, hm, hp, -⟩ := rel_right (alloc_rel w hL (inRange hr) h n) hM
  obtain rfl : p' = p := hp
  obtain ⟨T, hstep, hT, -⟩ := alloc_refines hL hR hr hm
  refine ⟨m, hm, ?_⟩
  cases hstep with
  | @alloc _ fuel _ _ _ hM' =>
    have hbig := (Heap2.allocMem_mono L S.manager r (Nat.le_max_left n fuel)).eq hM
    have hbig' := (Heap2.allocMem_mono L S.manager r (Nat.le_max_right n fuel)).eq hM'
    obtain ⟨rfl, rfl⟩ := Prod.mk.inj (Option.some.inj (hbig.symm.trans hbig'))
    exact hT

theorem two_blocks :
    ∃ m m', allocMem kernelHeap 3 (boot kernelHeap zeros).memory 184 = some (m, 0x600010) ∧
      allocMem kernelHeap 3 m 24 = some (m', 0x6000d8) := by
  let alloc (M : MemoryManager) (r : ℕ) := Heap2.allocMem kernelHeap 3 M r
  have hsome : ((alloc (Heap2Run.boot kernelHeap fun _ ↦ ⟨0, 0⟩).manager 184).bind fun c ↦
      (alloc c.1 24).map fun d ↦ (c.2, d.2)) = some (0x600010, 0x6000d8) := by decide +kernel
  obtain ⟨⟨M, p⟩, hM, hsome⟩ := Option.bind_eq_some_iff.mp hsome
  obtain ⟨⟨M', q⟩, hM', hpq⟩ := Option.map_eq_some_iff.mp hsome
  obtain ⟨rfl, rfl⟩ := Prod.mk.inj hpq
  have hboot := boot_refines kernelHeap_addressable zeros
  obtain ⟨m, hm, hR⟩ := alloc_exact kernelHeap_addressable hboot (by decide) hM
  obtain ⟨m', hm', -⟩ := alloc_exact kernelHeap_addressable hR (by decide) hM'
  exact ⟨m, m', hm, hm'⟩

section Two

variable {m m' : Memory}

theorem first_step
    (hm : allocMem kernelHeap 3 (boot kernelHeap zeros).memory 184 = some (m, 0x600010)) :
    Step kernelHeap (boot kernelHeap zeros) (.alloc 184) ⟨m, [0x600010]⟩ :=
  .alloc (by decide) hm

theorem second_step (hm' : allocMem kernelHeap 3 m 24 = some (m', 0x6000d8)) :
    Step kernelHeap ⟨m, [0x600010]⟩ (.alloc 24) ⟨m', [0x6000d8, 0x600010]⟩ := by
  have hr : 24 ≤ totalHeapSize := by decide
  have hs := Step.alloc (s := ⟨m, [0x600010]⟩) hr hm'
  rw [if_neg (by decide)] at hs
  exact hs

end Two

theorem bytes_refine_records_one_block :
    ∃ m m', allocMem kernelHeap 3 (boot kernelHeap zeros).memory 184 = some (m, 0x600010) ∧
      allocMem kernelHeap 3 m 24 = some (m', 0x6000d8) ∧
      (∃ TR S, Run (Heap2Run.Step kernelHeap) (Heap2Run.boot kernelHeap fun _ ↦ ⟨0, 0⟩) TR S ∧
        TR.map Prod.snd = [.alloc 184, .alloc 24] ∧
        Refines kernelHeap ⟨m', [0x6000d8, 0x600010]⟩ S) ∧
      ∃ n, ∀ fuel, n < fuel → (freeMem kernelHeap fuel m' 0x600010).isSome := by
  obtain ⟨m, m', hm, hm'⟩ := two_blocks
  obtain ⟨href, -, hfree⟩ := bytes_refine_records kernelHeap_addressable zeros
    (.cons (first_step hm) (.one (second_step hm')))
  exact ⟨m, m', hm, hm', href, hfree 0x600010 (by simp)⟩

theorem step_live (hs : Step L s c t) (hp : p ∈ s.live) (hc : c ≠ .free p) : p ∈ t.live := by
  cases hs with
  | @alloc _ _ q _ _ _ =>
    by_cases hq : q = 0
    · simpa [hq] using hp
    · simp [hq, hp]
  | @free _ q _ _ _ =>
    have hne : p ≠ q := fun heq ↦ hc (by rw [heq])
    exact (List.mem_erase_of_ne hne).mpr hp
  | write _ _ => exact hp

theorem run_size (hL : Addressable L) (hR : Refines L s S) (hp : p ∈ s.live)
    (h : Run (Step L) s tr t) (hok : ∀ e ∈ tr, e.2 ≠ .free p) :
    (∃ T, Refines L t T) ∧ p ∈ t.live ∧ size t.memory (header p) = size s.memory (header p) := by
  let I : State → Prop := fun u ↦ (∃ T, Refines L u T) ∧ p ∈ u.live ∧
    size u.memory (header p) = size s.memory (header p)
  have hstep : ∀ u c v, I u → c ≠ .free p → Step L u c v → I v := by
    intro u c v ⟨⟨U, hU⟩, hpu, hsize⟩ hc hs
    obtain ⟨V, -, hV, hkept⟩ := step_refines hL hU hs
    exact ⟨⟨V, hV⟩, step_live hs hpu hc, (hkept p hpu).1.trans hsize⟩
  have hinv : I t := h.invariant_of hstep hok ⟨⟨S, hR⟩, hp, rfl⟩
  exact hinv

theorem run_payload (hL : Addressable L) (hR : Refines L s S) (hp : p ∈ s.live)
    (h : Run (Step L) s tr t) (hok : ∀ e ∈ tr, e.2 ≠ .free p ∧ e.2 ≠ .write p) :
    p ∈ t.live ∧ ∀ x ∈ payload s.memory p, t.memory x = s.memory x := by
  let I : State → Prop := fun u ↦ (∃ T, Refines L u T) ∧ p ∈ u.live ∧
    size u.memory (header p) = size s.memory (header p) ∧
      ∀ x ∈ payload s.memory p, u.memory x = s.memory x
  have hstep : ∀ u c v, I u → c ≠ .free p ∧ c ≠ .write p → Step L u c v → I v := by
    intro u c v ⟨⟨U, hU⟩, hpu, hsize, hsame⟩ hc hs
    obtain ⟨V, -, hV, hkept⟩ := step_refines hL hU hs
    obtain ⟨hvsize, hvsame⟩ := hkept p hpu
    refine ⟨⟨V, hV⟩, step_live hs hpu hc.1, hvsize.trans hsize, fun x hx ↦ ?_⟩
    rw [hvsame hc.2 x (by unfold payload; rw [hsize]; exact hx), hsame x hx]
  have hinv : I t := h.invariant_of hstep hok ⟨⟨S, hR⟩, hp, rfl, fun _ _ ↦ rfl⟩
  exact ⟨hinv.2.1, hinv.2.2.2⟩

theorem payload_kept (hL : Addressable L) (memory : Memory)
    (h : Run (Step L) (boot L memory) tr s) (hp : p ∈ s.live) (h' : Run (Step L) s tr' t)
    (hok : ∀ e ∈ tr', e.2 ≠ .free p ∧ e.2 ≠ .write p) :
    p ∈ t.live ∧ ∀ x ∈ payload s.memory p, t.memory x = s.memory x := by
  obtain ⟨S, hR⟩ := run_refines hL h
  exact run_payload hL hR hp h' hok

theorem payload_kept_second_block :
    ∃ m m', allocMem kernelHeap 3 (boot kernelHeap zeros).memory 184 = some (m, 0x600010) ∧
      allocMem kernelHeap 3 m 24 = some (m', 0x6000d8) ∧
      ∀ m'' : Memory, (∀ x ∉ payload m' 0x6000d8, m'' x = m' x) → ∀ x ∈ payload m 0x600010, m'' x = m x := by
  obtain ⟨m, m', hm, hm'⟩ := two_blocks
  refine ⟨m, m', hm, hm', fun m'' hwrite ↦ ?_⟩
  have hlast : Step kernelHeap ⟨m', [0x6000d8, 0x600010]⟩ (.write 0x6000d8)
      ⟨m'', [0x6000d8, 0x600010]⟩ := .write List.mem_cons_self fun x _ hx ↦ hwrite x hx
  exact (payload_kept kernelHeap_addressable zeros (.one (first_step hm)) List.mem_cons_self
    (.cons (second_step hm') (.one hlast)) (by simp)).2

end Runs

end ShellOS.Memory.Heap2BytesRun
