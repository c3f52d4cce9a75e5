import ShellOS.Library.Matching
import ShellOS.Memory.Heap2Run

namespace ShellOS.Memory.Heap2Replay

open Library.Links Library.Matching Library.Runs Region Heap2 Heap2Invariant Heap2Run

variable (L : Layout cdtSize)

/-- Requests made one after another that all succeed, with the pointers they
return. Clients may write to their blocks in between. -/
inductive Granted : State → List ℕ → List ℕ → State → Prop
  | nil (s : State) : Granted s [] [] s
  | alloc {s u t : State} {r p : ℕ} {rs ps : List ℕ} :
      Step L s (.alloc r) u → u.live = p :: s.live → Granted u rs ps t →
      Granted s (r :: rs) (p :: ps) t
  | write {s u t : State} {p : ℕ} {rs ps : List ℕ} :
      Step L s (.write p) u → Granted u rs ps t → Granted s rs ps t

inductive Freed : State → List ℕ → State → Prop
  | nil (s : State) : Freed s [] s
  | free {s u t : State} {p : ℕ} {ps : List ℕ} :
      p ∈ s.live → Step L s (.free p) u → Freed u ps t → Freed s (p :: ps) t
  | write {s u t : State} {p : ℕ} {ps : List ℕ} :
      Step L s (.write p) u → Freed u ps t → Freed s ps t

def need (r : ℕ) : ℕ := requestSize structSize r

def size (s : State) (p : ℕ) : ℕ := s.manager.size (header p)

variable {L}

structure Holds (s : State) (A F : List ℕ) : Prop where
  live : ∀ p ∈ s.live, structSize < p
  wellformed : Wellformed L s.manager (s.live.map header) A F

def sizes (s : State) (F : List ℕ) : List ℕ := F.map s.manager.size

variable {s t u v : State} {A F rs ps qs more : List ℕ} {r p : ℕ}

theorem request_lt {fuel : ℕ} {m m' : MemoryManager} (h : allocMem L fuel m r = some (m', p))
    (hp : p ≠ 0) : r ≠ 0 ∧ need r < totalHeapSize := by
  have hr : r ≠ 0 := by
    rintro rfl
    cases h
    exact hp rfl
  refine ⟨hr, ?_⟩
  by_contra hlt
  unfold need at hlt
  simp only [allocMem, if_neg hr, if_neg hlt, Option.some.injEq, Prod.mk.injEq] at h
  exact hp h.2.symm

theorem free_pos (h : Holds (L := L) s A F) (p : ℕ) (hp : p ∈ s.live) :
    header p + structSize = p := Nat.sub_add_cancel (h.live p hp).le

theorem taken_subperm {m m' : MemoryManager} {live F₁ F₂ A' F' : List ℕ} {b need : ℕ}
    (w : Wellformed L m live A (F₁ ++ b :: F₂)) (ht : Taken m m' need b F₁ F₂ A A' F') :
    (((F₁ ++ b :: F₂).map m.size).erase (m.size b)).Subperm (F'.map m'.size) := by
  have herase : (((F₁ ++ b :: F₂).map m.size).erase (m.size b)).Perm ((F₁ ++ F₂).map m.size) := by
    have hperm : ((F₁ ++ b :: F₂).map m.size).Perm (m.size b :: (F₁ ++ F₂).map m.size) := by
      rw [← List.map_cons]
      exact List.perm_middle.map _
    have h := hperm.erase (m.size b)
    rwa [List.erase_cons_head] at h
  have hkeep : (F₁ ++ F₂).map m.size = (F₁ ++ F₂).map m'.size :=
    List.map_congr_left (fun a ha ↦ (ht.size_ne a (rest_mem w ha).1 (rest_mem w ha).2).symm)
  have hsub : (F₁ ++ F₂).Subperm F' := by
    rcases ht.whole_or_cut with ⟨-, -, -, rfl⟩ | ⟨-, -, -, -, hF'⟩
    · exact .refl _
    · exact (List.Subperm.cons_right _ (.refl _)).trans hF'.symm.subperm
  obtain ⟨l, hl, hlF⟩ := hsub
  refine herase.subperm.trans ?_
  rw [hkeep]
  exact ⟨l.map m'.size, hl.map _, hlF.map _⟩

/-- A request that succeeds takes the smallest free block that is large
enough and leaves all the others, and perhaps a part of it. -/
theorem alloc_effect (h : Holds (L := L) s A F) (hs : Step L s (.alloc r) u)
    (hu : u.live = p :: s.live) :
    ∃ A' F' c, Holds (L := L) u A' F' ∧ need r < totalHeapSize ∧ need r ≤ size u p ∧
      (∀ q ∈ s.live, size u q = size s q) ∧
      (∀ x ∈ sizes s F, need r ≤ x → c ≤ x) ∧ ((sizes s F).erase c).Subperm (sizes u F') := by
  obtain ⟨fuel, q, m, hr, ha, rfl⟩ : ∃ fuel q m, r ≤ totalHeapSize ∧
      allocMem L fuel s.manager r = some (m, q) ∧ u = ⟨m, if q = 0 then s.live else q :: s.live⟩ := by
    cases hs with
    | alloc hr ha => exact ⟨_, _, _, hr, ha, rfl⟩
  have hq : q ≠ 0 := by
    rintro rfl
    exact absurd (congrArg List.length hu) (by simp)
  simp only [if_neg hq] at hu ⊢
  obtain rfl : q = p := (List.cons.inj hu).1
  have hlt := (request_lt ha hq).2
  have hfuel := (allocMem_mono L _ _ (Nat.le_max_left fuel (F.length + 1))).eq ha
  have w := h.wellformed
  rcases alloc_spec w (inRange hr) with
    ⟨-, hnone⟩ | ⟨F₁, b, F₂, m', A', F', rfl, hF₁, hb, hw, ht, hsome⟩
  · rw [hnone _ (by omega)] at hfuel
    cases hfuel
    exact absurd rfl hq
  rw [hsome _ (by omega)] at hfuel
  cases hfuel
  have hb16 : structSize < b + structSize := by
    have hbounds := (w.tiles.bounds.2 b (w.free_mem (by simp))).1
    have hnull := L.memory_ne_null
    omega
  have hnd := w.nodup
  refine ⟨A', F', s.manager.size b, ⟨?_, ?_⟩, hlt, ?_, ?_,
    fun x hx hneed ↦ ?_, ?_⟩
  · intro q hq'
    rcases List.mem_cons.mp hq' with rfl | hq'
    · exact hb16
    · exact h.live q hq'
  · rw [List.map_cons, header_add]
    exact hw
  · simp only [size, header_add, MemoryManager.size_setFreeBytes]
    rcases ht.whole_or_cut with ⟨hsz, -⟩ | ⟨hsz, -⟩
    · rw [hsz]
      exact hb
    · exact hsz.ge
  · intro q hq'
    have hqlive : header q ∈ s.live.map header := List.mem_map_of_mem hq'
    simp only [size, MemoryManager.size_setFreeBytes]
    refine ht.size_ne _ (w.live_mem hqlive) ?_
    rintro heq
    exact List.disjoint_of_nodup_append hnd (show b ∈ F₁ ++ b :: F₂ by simp) (heq ▸ hqlive)
  · obtain ⟨a, ha, rfl⟩ := List.mem_map.mp hx
    exact first_le_of_sorted w.sorted hF₁ ha hneed
  · have hsub := taken_subperm w ht
    simpa only [sizes, MemoryManager.size_setFreeBytes] using hsub

theorem free_effect (h : Holds (L := L) s A F) (hp : p ∈ s.live) (hs : Step L s (.free p) u) :
    ∃ F', Holds (L := L) u A F' ∧ u.live = s.live.erase p ∧ (∀ q, size u q = size s q) ∧
      (sizes u F').Perm (size s p :: sizes s F) := by
  obtain ⟨fuel, m, hf, rfl⟩ : ∃ fuel m, freeMem L fuel s.manager p = some m ∧
      u = ⟨m, s.live.erase p⟩ := by
    cases hs with
    | free _ hf => exact ⟨_, _, hf, rfl⟩
  have hfuel := (freeMem_mono L _ _ (Nat.le_max_left fuel (F.length + 1))).eq hf
  obtain ⟨m', hsome, hsize, hw⟩ := free_spec h.wellformed (live_perm header hp)
  rw [free_pos h p hp] at hsome
  rw [hsome _ (by omega)] at hfuel
  cases hfuel
  refine ⟨_, ⟨fun q hq ↦ h.live q (List.mem_of_mem_erase hq), hw⟩, rfl, fun q ↦ ?_, ?_⟩
  · simp only [size, hsize]
  · rw [sizes, hsize]
    exact (List.perm_orderedInsert _ _ _).map _

theorem write_effect (h : Holds (L := L) s A F) (hs : Step L s (.write p) u) :
    Holds (L := L) u A F ∧ u.live = s.live ∧ (∀ q ∈ s.live, size u q = size s q) ∧
      sizes u F = sizes s F := by
  cases hs with
  | write hp hkeep =>
    have w := h.wellformed
    have hpA : header p ∈ A := w.live_mem (List.mem_map_of_mem hp)
    obtain ⟨hw, hA⟩ := write_wellformed w hpA hkeep
    refine ⟨⟨h.live, hw⟩, rfl, fun q hq ↦ ?_, List.map_congr_left (fun a ha ↦ ?_)⟩
    · simp only [size, MemoryManager.size]
      rw [hA _ (w.live_mem (List.mem_map_of_mem hq))]
    · simp only [MemoryManager.size]
      rw [hA _ (w.free_mem ha)]

theorem Granted.spec (more : List ℕ) (hg : Granted L s rs ps t) (h : Holds (L := L) s A F) :
    ∃ A' F', Holds (L := L) t A' F' ∧ t.live = ps.reverse ++ s.live ∧
      (∀ q ∈ s.live, size t q = size s q) ∧
      List.Forall₂ (fun r p ↦ need r ≤ size t p) rs ps ∧ (∀ r ∈ rs, need r < totalHeapSize) ∧
      (Fits (rs.map need ++ more) (sizes s F) → Fits more (sizes t F')) := by
  induction hg generalizing A F with
  | nil s => exact ⟨A, F, h, by simp, fun _ _ ↦ rfl, .nil, by simp, by simp⟩
  | @alloc s u t r p rs ps hs hu hg ih =>
    obtain ⟨A₁, F₁, c, h₁, hlt, hneed, hold, hmin, hsub⟩ := alloc_effect h hs hu
    obtain ⟨A', F', h', hlive, hold', hfit, hlts, himp⟩ := ih h₁
    refine ⟨A', F', h', ?_, fun q hq ↦ ?_, .cons ?_ hfit, ?_, fun hfits ↦ himp ?_⟩
    · rw [hlive, hu]
      simp
    · rw [hold' q (by rw [hu]; exact List.mem_cons_of_mem _ hq), hold q hq]
    · rw [hold' p (by rw [hu]; exact List.mem_cons_self)]
      exact hneed
    · intro x hx
      rcases List.mem_cons.mp hx with rfl | hx
      · exact hlt
      · exact hlts x hx
    · exact (hfits.best_fit hmin).mono hsub
  | @write s u t p rs ps hs hg ih =>
    obtain ⟨h₁, hlive₁, hold, hsizes⟩ := write_effect h hs
    obtain ⟨A', F', h', hlive, hold', hfit, hlts, himp⟩ := ih h₁
    refine ⟨A', F', h', by rw [hlive, hlive₁], fun q hq ↦ ?_, hfit, hlts, ?_⟩
    · rw [hold' q (by rw [hlive₁]; exact hq), hold q hq]
    · rw [← hsizes]
      exact himp

theorem Freed.spec (hf : Freed L t qs u) (h : Holds (L := L) t A F) :
    ∃ F', Holds (L := L) u A F' ∧ (∀ q ∈ qs, q ∈ t.live) ∧
      (sizes u F').Perm (qs.map (size t) ++ sizes t F) := by
  induction hf generalizing F with
  | nil t => exact ⟨F, h, by simp, .refl _⟩
  | @free t v u p qs hp hs hf ih =>
    obtain ⟨F₁, h₁, hlive, hsize, hperm⟩ := free_effect h hp hs
    obtain ⟨F', h', hsub, hperm'⟩ := ih h₁
    refine ⟨F', h', ?_, ?_⟩
    · intro q hq
      rcases List.mem_cons.mp hq with rfl | hq
      · exact hp
      · exact List.mem_of_mem_erase (hlive ▸ hsub q hq)
    · have hsame : qs.map (size v) = qs.map (size t) :=
        List.map_congr_left (fun q _ ↦ hsize q)
      rw [hsame] at hperm'
      refine hperm'.trans ((hperm.append_left _).trans ?_)
      rw [List.map_cons]
      exact List.perm_middle
  | @write t v u p qs hs hf ih =>
    obtain ⟨h₁, hlive, hsize, hsizes⟩ := write_effect h hs
    obtain ⟨F', h', hsub, hperm⟩ := ih h₁
    rw [hlive] at hsub
    have hsame : qs.map (size v) = qs.map (size t) :=
      List.map_congr_left (fun q hq ↦ hsize q (hsub q hq))
    rw [hsame, hsizes] at hperm
    exact ⟨F', h', hsub, hperm⟩

theorem fits_granted {f : ℕ → ℕ} (h : List.Forall₂ (fun r p ↦ need r ≤ f p) rs ps)
    (hq : qs.Perm ps) (extra : List ℕ) : Fits (rs.map need) (qs.map f ++ extra) := by
  refine ⟨ps.map f, ?_, ?_⟩
  · rw [List.forall₂_map_left_iff, List.forall₂_map_right_iff]
    exact h
  · refine (hq.symm.map f).subperm.trans ?_
    exact (List.sublist_append_left _ _).subperm

theorem alloc_of_fits (h : Holds (L := L) s A F) (hr : r ≠ 0) (hle : r ≤ totalHeapSize)
    (hlt : need r < totalHeapSize) (hfit : Fits (need r :: more) (sizes s F)) :
    ∃ n, ∀ fuel, n < fuel → ∃ m p, allocMem L fuel s.manager r = some (m, p) ∧ p ≠ 0 := by
  refine ⟨F.length, fun fuel hn ↦ ?_⟩
  rcases alloc_spec h.wellformed (inRange hle) with
    ⟨hnot, -⟩ | ⟨F₁, b, F₂, m', A', F', -, -, -, -, -, hsome⟩
  · obtain ⟨c, hc, hneed⟩ := hfit.exists_le
    obtain ⟨b, hb, rfl⟩ := List.mem_map.mp hc
    unfold need at hlt hneed
    rcases hnot with rfl | hbig | hsmall
    · exact absurd rfl hr
    · omega
    · exact absurd hneed (Nat.not_le.mpr (hsmall b hb))
  · exact ⟨_, _, hsome fuel hn, by rw [structSize_eq]; omega⟩

/-- A batch of requests that succeeded succeeds again, in any order, after its
blocks and nothing else have been freed, in any order: whatever part of it has
been served, the next request returns a block. -/
theorem heap2_replay {memory : ℕ → MemoryBlock} {tr : List (State × Call)}
    {rs' before after qs' : List ℕ} (h : Run (Step L) (boot L memory) tr s)
    (hg : Granted L s rs ps t) (hrs : ∀ r ∈ rs, r ≠ 0 ∧ r ≤ totalHeapSize)
    (hf : Freed L t qs u) (hqs : qs.Perm ps) (hperm : rs'.Perm rs)
    (hsplit : rs' = before ++ r :: after) (hagain : Granted L u before qs' v) :
    ∃ n, ∀ fuel, n < fuel → ∃ m p, allocMem L fuel v.manager r = some (m, p) ∧ p ≠ 0 := by
  obtain ⟨hlive, A, F, w⟩ := h.invariant (I := Invariant L)
    (fun _ _ _ ha hs ↦ step_invariant ha hs) (boot_invariant memory)
  obtain ⟨A₁, F₁, h₁, -, -, hgranted, hlts, -⟩ := hg.spec [] ⟨hlive, w⟩
  obtain ⟨F₂, h₂, -, hsizes⟩ := hf.spec h₁
  have hfits : Fits (before.map need ++ (r :: after).map need) (sizes u F₂) := by
    rw [← List.map_append, ← hsplit]
    have hfit := (fits_granted hgranted hqs (sizes t F₁)).perm (hperm.map need)
    exact hfit.mono hsizes.symm.subperm
  obtain ⟨A₃, F₃, h₃, -, -, -, -, himp⟩ := hagain.spec ((r :: after).map need) h₂
  have hr : r ∈ rs := hperm.mem_iff.mp (by rw [hsplit]; simp)
  exact alloc_of_fits h₃ (hrs r hr).1 (hrs r hr).2 (hlts r hr) (himp hfits)

theorem heap2_replay_two_blocks :
    ∃ t u v, Granted kernelHeap (boot kernelHeap fun _ ↦ ⟨0, 0⟩) [184, 24] [0x600010, 0x6000d8] t ∧
      Freed kernelHeap t [0x600010, 0x6000d8] u ∧ Granted kernelHeap u [24] [0x6000d8] v ∧
      ∃ n, ∀ fuel, n < fuel → ∃ m p, allocMem kernelHeap fuel v.manager 184 = some (m, p) ∧
        p ≠ 0 := by
  let go := perform kernelHeap 4
  have hend : ((go (boot kernelHeap fun _ ↦ ⟨0, 0⟩) (.alloc 184)).bind fun s₁ ↦
      (go s₁ (.alloc 24)).bind fun t ↦ (go t (.free 0x600010)).bind fun s₂ ↦
        (go s₂ (.free 0x6000d8)).bind fun u ↦ (go u (.alloc 24)).map fun v ↦
          (s₁.live, t.live, s₂.live, u.live, v.live)) =
      some ([0x600010], [0x6000d8, 0x600010], [0x6000d8], [], [0x6000d8]) := by decide +kernel
  obtain ⟨s₁, h₁, hend⟩ := Option.bind_eq_some_iff.mp hend
  obtain ⟨t, ht, hend⟩ := Option.bind_eq_some_iff.mp hend
  obtain ⟨s₂, h₂, hend⟩ := Option.bind_eq_some_iff.mp hend
  obtain ⟨u, hu, hend⟩ := Option.bind_eq_some_iff.mp hend
  obtain ⟨v, hv, hlive⟩ := Option.map_eq_some_iff.mp hend
  simp only [Prod.mk.injEq] at hlive
  obtain ⟨hlive₁, hlivet, hlive₂, hliveu, hlivev⟩ := hlive
  have hg : Granted kernelHeap (boot kernelHeap fun _ ↦ ⟨0, 0⟩) [184, 24] [0x600010, 0x6000d8] t :=
    .alloc (step_perform h₁) hlive₁ (.alloc (step_perform ht) (by rw [hlivet, hlive₁]) (.nil _))
  have hf : Freed kernelHeap t [0x600010, 0x6000d8] u :=
    .free (by simp [hlivet]) (step_perform h₂) (.free (by simp [hlive₂]) (step_perform hu) (.nil _))
  have hagain : Granted kernelHeap u [24] [0x6000d8] v :=
    .alloc (step_perform hv) (by rw [hlivev, hliveu]) (.nil _)
  exact ⟨t, u, v, hg, hf, hagain, heap2_replay (Run.nil _) hg (by decide) hf (.refl _)
    (.swap 184 24 []) (List.singleton_append).symm hagain⟩

end ShellOS.Memory.Heap2Replay
