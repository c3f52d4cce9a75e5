import ShellOS.Memory.BuddyRun

namespace ShellOS.Memory.BuddyCanonical

open Library.Links Library.Runs Library.Tiling Region Buddy BuddyInvariant BuddySpec BuddyRun

variable (L : Layout cdtSize)

def freeBlocks (m : MemoryManager) : Set (ℕ × ℕ) :=
  {x | ∃ F, FreeList L m F ∧ x.1 ∈ F ∧ x.2 = m.blockSize x.1}

def liveBlocks (s : State) : Set (ℕ × ℕ) :=
  {x | ∃ p ∈ s.live, x = (header p, s.manager.blockSize (header p))}

structure Holds (s : State) (A F : List ℕ) : Prop where
  live : ∀ p ∈ s.live, structSize < p
  wellformed : Wellformed L s.manager [] (s.live.map header) A F
  canonical : Canonical L s.manager F

variable {L} {s t u : State} {A F : List ℕ} {c : Call}

theorem boot_holds (memory : MemoryManager) : ∃ A F, Holds L (boot L memory) A F := by
  have w := boot_wellformed (L := L) memory
  refine ⟨_, _, by simp [boot], w, canonical_singleton ?_⟩
  exact w.tiles.pos _ List.mem_cons_self

theorem free_effect {p : ℕ} (h : Holds L s A F) (hp : p ∈ s.live) (hs : Step L s (.free p) t) :
    ∃ A' F', Holds L t A' F' ∧ t.live = s.live.erase p ∧
      ∀ q ∈ t.live, t.manager.blockSize (header q) = s.manager.blockSize (header q) := by
  obtain ⟨fuel, m, hf, rfl⟩ : ∃ fuel m, freeMem L fuel s.manager p = some m ∧
      t = ⟨m, s.live.erase p⟩ := by
    cases hs with
    | free _ hf => exact ⟨_, _, hf, rfl⟩
  have w := h.wellformed
  have hfuel := (freeMem_mono L _ _ (Nat.le_max_left fuel (F.length + 19))).eq hf
  obtain ⟨m', v, A', F', hsome, hw, hkept, -⟩ := free_spec w (live_perm header hp) (header_ne_null w hp)
  have hpp : header p + structSize = p := Nat.sub_add_cancel (h.live p hp).le
  rw [hpp] at hsome
  rw [hsome _ (by omega)] at hfuel
  obtain rfl := Option.some.inj hfuel
  refine ⟨A', F', ⟨fun q hq ↦ h.live q (List.mem_of_mem_erase hq), hw,
    hkept.canonical h.canonical⟩, rfl, fun q hq ↦ ?_⟩
  exact hkept.size _ (List.mem_map_of_mem hq)

theorem step_holds (h : Holds L s A F) (hs : Step L s c t) : ∃ A' F', Holds L t A' F' := by
  have w := h.wellformed
  cases hs with
  | @alloc r fuel p m hr ha =>
    have hinv : Invariant L ⟨m, if p = 0 then s.live else p :: s.live⟩ :=
      alloc_invariant ⟨h.live, A, F, w⟩ ha
    have hfuel := (allocMem_mono L _ _ (Nat.le_max_left fuel (F.length + 19))).eq ha
    rcases alloc_spec w r with
      ⟨-, hnone⟩ | ⟨F₁, b, F₂, m', A', F', rfl, -, -, -, -, -, hw, hkept, -, hsome⟩
    · rw [hnone _ (by omega)] at hfuel
      cases hfuel
      exact ⟨A, F, h⟩
    · rw [hsome _ (by omega)] at hfuel
      obtain ⟨rfl, rfl⟩ := Prod.mk.inj (Option.some.inj hfuel)
      rw [if_neg (add_structSize_ne_null b)] at hinv ⊢
      refine ⟨A', F', hinv.1, ?_, hkept.canonical h.canonical⟩
      rw [List.map_cons, header_add]
      exact hw
  | @free fuel p m hp hf =>
    rcases hp with hp | rfl
    · obtain ⟨A', F', h', -, -⟩ := free_effect h hp (Step.free (Or.inl hp) hf)
      exact ⟨A', F', h'⟩
    · rw [freeMem_null, Option.some_inj] at hf
      rw [← hf, erase_null h.live]
      exact ⟨A, F, h⟩
  | @write p m hp hw =>
    obtain ⟨w', hA⟩ := write_wellformed w (w.live_mem (List.mem_map_of_mem hp)) hw
    exact ⟨A, F, h.live, w', h.canonical.congr (fun a ha ↦ hA a (w.free_mem ha))⟩

theorem run_holds {memory : MemoryManager} {tr : List (State × Call)}
    (h : Run (Step L) (boot L memory) tr s) : ∃ A F, Holds L s A F := by
  refine h.invariant (I := fun s ↦ ∃ A F, Holds L s A F) ?_ (boot_holds memory)
  rintro a i b ⟨A, F, ha⟩ hs
  exact step_holds ha hs

theorem freeBlocks_eq (h : Holds L s A F) :
    freeBlocks L s.manager = {x | x.1 ∈ F ∧ x.2 = s.manager.blockSize x.1} := by
  ext x
  constructor
  · rintro ⟨F', hF', hx⟩
    rw [(freeList_of h.wellformed).unique hF']
    exact hx
  · intro hx
    exact ⟨F, freeList_of h.wellformed, hx⟩

theorem not_live_iff (h : Holds L s A F) {b : ℕ} (hb : b ∈ A) :
    b ∉ s.live.map header ↔ b ∈ F := by
  have w := h.wellformed
  have hmem := w.perm.mem_iff.mp hb
  have hnd := w.nodup
  rw [List.nil_append] at hmem hnd
  constructor
  · intro hno
    exact (List.mem_append.mp hmem).resolve_right hno
  · intro hF hlive
    exact List.disjoint_of_nodup_append hnd hF hlive

theorem no_halves (h : Holds L s A F) : ∀ y ∈ A, ∀ z ∈ A, y ∉ s.live.map header →
    z ∉ s.live.map header → ¬ Halves s.manager.blockSize L.managedMemory y z :=
  fun y hy z hz hy' hz' ↦
    h.canonical y ((not_live_iff h hy).mp hy') z ((not_live_iff h hz).mp hz')

theorem live_eq (h : liveBlocks s = liveBlocks t) :
    (∀ b, b ∈ s.live.map header → b ∈ t.live.map header ∧
      t.manager.blockSize b = s.manager.blockSize b) := by
  intro b hb
  obtain ⟨p, hp, rfl⟩ := List.mem_map.mp hb
  have hmem : (header p, s.manager.blockSize (header p)) ∈ liveBlocks t := h ▸ ⟨p, hp, rfl⟩
  obtain ⟨q, hq, hpq⟩ := hmem
  obtain ⟨hhead, hsize⟩ := Prod.mk.inj hpq
  rw [hhead] at hsize ⊢
  exact ⟨List.mem_map_of_mem hq, hsize.symm⟩

theorem freeBlocks_subset {A' F' : List ℕ} (h : Holds L s A F) (h' : Holds L t A' F')
    (hlive : liveBlocks s = liveBlocks t) :
    freeBlocks L s.manager ⊆ freeBlocks L t.manager := by
  have w := h.wellformed
  have w' := h'.wellformed
  rw [freeBlocks_eq h, freeBlocks_eq h']
  rintro ⟨b, n⟩ ⟨hb, hn⟩
  obtain rfl : n = s.manager.blockSize b := hn
  have hbA := w.free_mem hb
  have hst := live_eq hlive
  have hts := live_eq hlive.symm
  obtain ⟨hbA', hno, hsize⟩ := w.tiles.unused_unique w'.tiles w.aligned w'.aligned
    (fun u hu ↦ w.live_mem hu) (fun u hu ↦ w'.live_mem hu)
    (fun u ↦ ⟨fun hu ↦ (hst u hu).1, fun hu ↦ (hts u hu).1⟩) (fun u hu ↦ (hst u hu).2)
    (no_halves h) (no_halves h') hbA ((not_live_iff h hbA).mpr hb)
  exact ⟨(not_live_iff h' hbA').mp hno, hsize.symm⟩

theorem freeBlocks_congr {A' F' : List ℕ} (h : Holds L s A F) (h' : Holds L t A' F')
    (hlive : liveBlocks s = liveBlocks t) :
    freeBlocks L s.manager = freeBlocks L t.manager :=
  (freeBlocks_subset h h' hlive).antisymm (freeBlocks_subset h' h hlive.symm)

inductive Freed (L : Layout cdtSize) : State → List ℕ → State → Prop
  | nil (s : State) : Freed L s [] s
  | cons {s t u : State} {p : ℕ} {ps : List ℕ} :
      p ∈ s.live → Step L s (.free p) t → Freed L t ps u → Freed L s (p :: ps) u

theorem Freed.spec {ps : List ℕ} (hf : Freed L s ps t) (h : Holds L s A F) :
    ∃ A' F', Holds L t A' F' ∧ t.live = s.live.diff ps ∧
      ∀ q ∈ t.live, t.manager.blockSize (header q) = s.manager.blockSize (header q) := by
  induction hf generalizing A F with
  | nil s => exact ⟨A, F, h, rfl, fun _ _ ↦ rfl⟩
  | @cons s t u p ps hp hs hf ih =>
    obtain ⟨A₁, F₁, h₁, hlive, hsize⟩ := free_effect h hp hs
    obtain ⟨A', F', h', hlive', hsize'⟩ := ih h₁
    refine ⟨A', F', h', by rw [hlive', hlive, List.diff_cons], fun q hq ↦ ?_⟩
    have hqt : q ∈ t.live := (List.diff_subset _ _) (hlive' ▸ hq)
    rw [hsize' q hq, hsize q hqt]

theorem liveBlocks_freed {ps qs : List ℕ} (hp : ps.Perm qs) (h : Holds L s A F)
    (hf : Freed L s ps t) (hg : Freed L s qs u) : liveBlocks t = liveBlocks u := by
  obtain ⟨-, -, -, hlive, hsize⟩ := hf.spec h
  obtain ⟨-, -, -, hlive', hsize'⟩ := hg.spec h
  have hsame : t.live = u.live := by rw [hlive, hlive', hp.diff_left]
  ext x
  constructor
  · rintro ⟨p, hp, rfl⟩
    have hp' : p ∈ u.live := hsame ▸ hp
    exact ⟨p, hp', by rw [hsize p hp, hsize' p hp']⟩
  · rintro ⟨p, hp, rfl⟩
    have hp' : p ∈ t.live := hsame ▸ hp
    exact ⟨p, hp', by rw [hsize p hp', hsize' p hp]⟩

theorem liveBlocks_nil (hs : s.live = []) (ht : t.live = []) : liveBlocks s = liveBlocks t := by
  simp [liveBlocks, hs, ht]

theorem freeBlocks_boot (memory : MemoryManager) :
    freeBlocks L (boot L memory).manager = {(L.managedMemory, totalHeapSize)} := by
  have w := boot_wellformed (L := L) memory
  have hsize : (createMemoryManager L memory).blockSize L.managedMemory = totalHeapSize := by
    simp [createMemoryManager]
  have h : Holds L (boot L memory) _ _ :=
    ⟨by simp [boot], w, canonical_singleton (w.tiles.pos _ List.mem_cons_self)⟩
  rw [freeBlocks_eq h]
  ext ⟨b, n⟩
  simp only [Set.mem_ofPred_eq, List.mem_singleton, Set.mem_singleton_iff, Prod.mk.injEq]
  constructor
  · rintro ⟨rfl, rfl⟩
    exact ⟨rfl, hsize⟩
  · rintro ⟨rfl, rfl⟩
    exact ⟨rfl, hsize.symm⟩

/-- No two free blocks are the halves of one block, so the live blocks
determine the free ones: the order in which blocks are freed does not matter,
and when all are freed the heap is one block again. -/
theorem buddy_canonical {memory memory' : MemoryManager} {tr tr' : List (State × Call)}
    (hs : Run (Step L) (boot L memory) tr s) (ht : Run (Step L) (boot L memory') tr' t) :
    (∀ F, FreeList L s.manager F → Canonical L s.manager F) ∧
      (liveBlocks s = liveBlocks t → freeBlocks L s.manager = freeBlocks L t.manager) ∧
      (∀ ps qs u v, ps.Perm qs → Freed L s ps u → Freed L s qs v →
        freeBlocks L u.manager = freeBlocks L v.manager) ∧
      (s.live = [] → freeBlocks L s.manager = {(L.managedMemory, totalHeapSize)}) := by
  obtain ⟨A, F, h⟩ := run_holds hs
  obtain ⟨A', F', h'⟩ := run_holds ht
  refine ⟨fun F₁ hF₁ ↦ ?_, freeBlocks_congr h h', fun ps qs u v hp hu hv ↦ ?_, fun hnil ↦ ?_⟩
  · rw [← (freeList_of h.wellformed).unique hF₁]
    exact h.canonical
  · obtain ⟨A₁, F₁, h₁, -⟩ := hu.spec h
    obtain ⟨A₂, F₂, h₂, -⟩ := hv.spec h
    exact freeBlocks_congr h₁ h₂ (liveBlocks_freed hp h hu hv)
  · obtain ⟨A₀, F₀, h₀⟩ := boot_holds (L := L) memory
    rw [freeBlocks_congr h h₀ (liveBlocks_nil hnil rfl)]
    exact freeBlocks_boot memory

theorem freed_of_foldlM {fuel : ℕ} {ps : List ℕ}
    (h : ps.foldlM (fun s p ↦ if p ∈ s.live then perform L fuel s (.free p) else none) s =
      some t) : Freed L s ps t := by
  induction ps generalizing s with
  | nil =>
    cases h
    exact .nil _
  | cons p ps ih =>
    rw [List.foldlM_cons] at h
    obtain ⟨u, hu, h⟩ := Option.bind_eq_some_iff.mp h
    obtain ⟨hp, hu⟩ := Option.ite_none_right_eq_some.mp hu
    exact .cons hp (step_perform hu) (ih h)

def threeBlocks : List Call := [.alloc 1000, .alloc 1000, .alloc 70000]

def freeAll (s : State) (ps : List ℕ) : Option State :=
  ps.foldlM (fun s p ↦ if p ∈ s.live then perform kernelHeap 20 s (.free p) else none) s

theorem buddy_canonical_two_orders : ∃ tr s u v,
    Run (Step kernelHeap) (boot kernelHeap blank) tr s ∧ tr.map Prod.snd = threeBlocks ∧
      Freed kernelHeap s [0x600018, 0x600418] u ∧ Freed kernelHeap s [0x600418, 0x600018] v ∧
      freeBlocks kernelHeap u.manager = freeBlocks kernelHeap v.manager := by
  have hend : ((threeBlocks.foldlM (perform kernelHeap 20) (boot kernelHeap blank)).bind fun s ↦
      (freeAll s [0x600018, 0x600418]).bind fun _ ↦ freeAll s [0x600418, 0x600018]).isSome := by
    decide +kernel
  obtain ⟨v, hend⟩ := Option.isSome_iff_exists.mp hend
  obtain ⟨s, hs, hend⟩ := Option.bind_eq_some_iff.mp hend
  obtain ⟨u, hu, hv⟩ := Option.bind_eq_some_iff.mp hend
  obtain ⟨tr, hrun, hcalls⟩ := run_of_perform hs
  have hu := freed_of_foldlM hu
  have hv := freed_of_foldlM hv
  obtain ⟨-, -, horders, -⟩ := buddy_canonical hrun hrun
  exact ⟨tr, s, u, v, hrun, hcalls, hu, hv, horders _ _ u v (.swap _ _ _) hu hv⟩

end ShellOS.Memory.BuddyCanonical
