import ShellOS.Memory.BuddyRun

namespace ShellOS.Memory.BuddyAccounting

open Library.Links Library.Runs Library.Tiling Library.Words Region Buddy BuddyInvariant BuddySpec
  BuddyRun

variable (L : Layout cdtSize)

def Balanced (s : State) : Prop :=
  ∃ F, FreeList L s.manager F ∧
    s.manager.freeBytesRemaining = (F.map s.manager.blockSize).sum ∧
    heapLeft s.manager ≤ heapSize ∧
    usedHeap s.manager = ((s.live.map header).map s.manager.blockSize).sum

def Lonely (s : State) (c : Call) : Prop :=
  match c with
  | .free p => p = 0 ∨ ∀ F, FreeList L s.manager F → ∀ x ∈ F,
      ¬ Buddies L s.manager x (header p) ∧ ¬ Buddies L s.manager (header p) x
  | _ => True

variable {L} {s t : State} {A F : List ℕ} {c : Call}

theorem sizes_sum {m : MemoryManager} {live : List ℕ} (w : Wellformed L m [] live A F) :
    (F.map m.blockSize).sum + (live.map m.blockSize).sum = totalHeapSize := by
  have h := w.tiles.sum
  rw [(w.perm.map m.blockSize).sum_nat, List.nil_append, List.map_append, List.sum_append] at h
  simp only [heapEnd] at h
  omega

def liveSum (m : MemoryManager) (live : List ℕ) : ℕ := ((live.map header).map m.blockSize).sum

theorem balanced_iff (w : Wellformed L s.manager [] (s.live.map header) A F) :
    Balanced L s ↔ s.manager.freeBytesRemaining + liveSum s.manager s.live = totalHeapSize := by
  have hsum := sizes_sum w
  have htotal : totalHeapSize < 2 ^ 32 := by decide
  constructor
  · rintro ⟨F', hF', hleft, -⟩
    rw [← (freeList_of w).unique hF'] at hleft
    rw [hleft]
    exact hsum
  · intro hleft
    unfold liveSum at hleft
    refine ⟨F, freeList_of w, by omega, ?_, ?_⟩
    · unfold heapLeft heapSize
      omega
    · unfold usedHeap heapLeft heapSize
      rw [u32Sub_of_le (by omega) htotal]
      omega

theorem liveSum_alloc {m m' : MemoryManager} {live F' : List ℕ} {b : ℕ}
    (hk : Kept L m m' (live.map header) F F') :
    liveSum m' ((b + structSize) :: live) = m'.blockSize b + liveSum m live := by
  have hsame : (live.map header).map m'.blockSize = (live.map header).map m.blockSize :=
    List.map_congr_left hk.size
  simp only [liveSum, List.map_cons, List.sum_cons, header_add, hsame]

theorem liveSum_free {m m' : MemoryManager} {live F' : List ℕ} {p : ℕ} (hp : p ∈ live)
    (hk : Kept L m m' ((live.erase p).map header) F F') :
    liveSum m live = m.blockSize (header p) + liveSum m' (live.erase p) := by
  have hsame : ((live.erase p).map header).map m'.blockSize =
      ((live.erase p).map header).map m.blockSize := List.map_congr_left hk.size
  have hperm := ((live_perm header hp).map m.blockSize).sum_nat
  rw [List.map_cons, List.sum_cons] at hperm
  simp only [liveSum, hsame]
  exact hperm

theorem alloc_balanced {r fuel p : ℕ} {m : MemoryManager} (hs : Invariant L s)
    (hb : Balanced L s) (ha : allocMem L fuel s.manager r = some (m, p)) :
    Balanced L ⟨m, if p = 0 then s.live else p :: s.live⟩ := by
  obtain ⟨hlive, A, F, w⟩ := hs
  have hfuel := (allocMem_mono L _ _ (Nat.le_max_left fuel (F.length + 19))).eq ha
  rcases alloc_spec w r with
    ⟨-, hnone⟩ | ⟨F₁, b, F₂, m', A', F', rfl, -, -, hle, -, -, hw, hkept, hleft, hsome⟩
  · rw [hnone _ (by omega)] at hfuel
    cases hfuel
    exact hb
  · rw [hsome _ (by omega)] at hfuel
    obtain ⟨rfl, rfl⟩ := Prod.mk.inj (Option.some.inj hfuel)
    rw [if_neg (add_structSize_ne_null b)]
    have hleft₀ := (balanced_iff w).mp hb
    refine (balanced_iff (by rw [List.map_cons, header_add]; exact hw)).mpr ?_
    have hsum := sizes_sum hw
    have hall := liveSum_alloc (b := b) hkept
    have htotal : totalHeapSize < 2 ^ 32 := by decide
    have hlow : m'.blockSize b ≤ s.manager.freeBytesRemaining := by
      have hliveSum : liveSum m' ((b + structSize) :: s.live) ≤ totalHeapSize := by
        unfold liveSum
        simp only [List.map_cons, header_add] at hsum ⊢
        omega
      omega
    rw [hleft, u32Sub_of_le hlow (by omega), hall]
    omega

theorem free_balanced_iff {fuel p : ℕ} {m : MemoryManager} (hs : Invariant L s)
    (hb : Balanced L s) (hp : p ∈ s.live ∨ p = 0) (hf : freeMem L fuel s.manager p = some m) :
    Balanced L ⟨m, s.live.erase p⟩ ↔ Lonely L s (.free p) := by
  obtain ⟨hlive, A, F, w⟩ := hs
  rcases hp with hp | rfl
  · have hfuel := (freeMem_mono L _ _ (Nat.le_max_left fuel (F.length + 19))).eq hf
    obtain ⟨m', v, A', F', hsome, hw, hkept, hleft, hv, hle, hmerge⟩ :=
      free_spec w (live_perm header hp) (header_ne_null w hp)
    have hpp : header p + structSize = p := Nat.sub_add_cancel (hlive p hp).le
    rw [hpp] at hsome
    rw [hsome _ (by omega)] at hfuel
    obtain rfl := Option.some.inj hfuel
    have hp0 : p ≠ 0 := by
      have hpos := hlive p hp
      omega
    have hleft₀ := (balanced_iff w).mp hb
    have hall := liveSum_free hp hkept
    have htotal : totalHeapSize + totalHeapSize < 2 ^ 32 := by decide
    have hlonely : Lonely L s (.free p) ↔ ¬ Merges s.manager (header p) := by
      rw [merges_iff (take_back w (live_perm header hp))]
      simp only [Lonely, hp0, false_or]
      constructor
      · rintro h ⟨x, hx, hxy⟩
        have hno := h F (freeList_of w) x hx
        exact hxy.elim hno.1 hno.2
      · intro h F' hF' x hx
        rw [← (freeList_of w).unique hF'] at hx
        exact ⟨fun hxy ↦ h ⟨x, hx, Or.inl hxy⟩, fun hxy ↦ h ⟨x, hx, Or.inr hxy⟩⟩
    rw [hlonely, ← hmerge, balanced_iff hw, hleft, u32_of_lt (by omega)]
    change _ + liveSum m' (s.live.erase p) = _ ↔ _
    omega
  · rw [freeMem_null, Option.some_inj] at hf
    rw [← hf, erase_null hlive]
    exact ⟨fun _ ↦ Or.inl rfl, fun _ ↦ hb⟩

theorem write_balanced {p : ℕ} {m : MemoryManager} (hs : Invariant L s) (hb : Balanced L s)
    (hp : p ∈ s.live) (hw : Within s.manager m (header p)) : Balanced L ⟨m, s.live⟩ := by
  obtain ⟨hlive, A, F, w⟩ := hs
  have hpA : header p ∈ A := w.live_mem (List.mem_map_of_mem hp)
  obtain ⟨w', hA⟩ := write_wellformed w hpA hw
  have hsame : liveSum m s.live = liveSum s.manager s.live := by
    refine congrArg List.sum (List.map_congr_left (fun a ha ↦ ?_))
    exact hA a (w.live_mem ha)
  refine (balanced_iff w').mpr ?_
  change m.freeBytesRemaining + liveSum m s.live = _
  rw [hw.1, hsame]
  exact (balanced_iff w).mp hb

theorem step_balanced_iff (hs : Invariant L s) (hb : Balanced L s) (h : Step L s c t) :
    Balanced L t ↔ Lonely L s c := by
  cases h with
  | alloc _ ha => exact ⟨fun _ ↦ trivial, fun _ ↦ alloc_balanced hs hb ha⟩
  | free hp hf => exact free_balanced_iff hs hb hp hf
  | write hp hw => exact ⟨fun _ ↦ trivial, fun _ ↦ write_balanced hs hb hp hw⟩

/-- The counter stays right exactly as long as no freed block is merged. -/
theorem accounting_iff (memory : MemoryManager) {tr : List (State × Call)}
    (h : Run (Step L) (boot L memory) tr s) :
    Always (Balanced L) tr s ↔ ∀ e ∈ tr, Lonely L e.1 e.2 := by
  have hboot := boot_invariant (L := L) memory
  refine h.always_iff (I := Invariant L) (fun _ _ _ ha _ hs _ ↦ step_invariant ha hs)
    (fun _ _ _ ha hb hs ↦ step_balanced_iff ha hb hs) hboot ?_
  obtain ⟨-, A, F, w⟩ := hboot
  exact (balanced_iff w).mpr rfl

theorem lonely_of_live {s : State} {p q : ℕ} (h : Invariant L s) (hq : q ∈ s.live)
    (hp : header p = L.managedMemory) (hhalf : header q = header p + s.manager.blockSize (header p)) :
    Lonely L s (.free p) := by
  obtain ⟨-, A, F, w⟩ := h
  refine .inr fun F' hF' x hx ↦ ⟨fun hbuddies ↦ ?_, fun hbuddies ↦ ?_⟩
  · obtain rfl := (freeList_of w).unique hF'
    have hbounds := w.tiles.bounds.2 x (w.free_mem hx)
    have hpos : 0 < s.manager.blockSize x :=
      Nat.lt_of_lt_of_le (by decide) (w.shape x (w.free_mem hx)).size_pos
    have hadd := hbuddies.2.1
    omega
  · obtain rfl := (freeList_of w).unique hF'
    have hx' : x = header q := hbuddies.2.1.trans hhalf.symm
    refine List.disjoint_of_nodup_append w.nodup hx ?_
    rw [hx']
    exact List.mem_map_of_mem hq

theorem accounting_two_halves : ∃ tr s t,
    Run (Step kernelHeap) (boot kernelHeap blank) tr s ∧
      Step kernelHeap s (.free 0x600018) t ∧ Balanced kernelHeap t := by
  have hend : (([.alloc 1000, .alloc 1000].foldlM (perform kernelHeap 20)
      (boot kernelHeap blank)).bind fun s ↦ (perform kernelHeap 20 s (.free 0x600018)).map fun t ↦
        (s.live, s.manager.blockSize 0x600000)) = some ([0x600418, 0x600018], 1024) := by
    decide +kernel
  obtain ⟨s, hs, hend⟩ := Option.bind_eq_some_iff.mp hend
  obtain ⟨t, ht, heq⟩ := Option.map_eq_some_iff.mp hend
  obtain ⟨hlive, hsize⟩ := Prod.mk.inj heq
  obtain ⟨tr, hrun, hcalls⟩ := run_of_perform hs
  have hfree := step_perform ht
  have hinv : Invariant kernelHeap s :=
    hrun.invariant (fun _ _ _ ha hs ↦ step_invariant ha hs) (boot_invariant blank)
  have hlonely : Lonely kernelHeap s (.free 0x600018) :=
    lonely_of_live hinv (hlive ▸ List.mem_cons_self) rfl (congrArg (0x600000 + ·) hsize).symm
  refine ⟨tr, s, t, hrun, hfree, ?_⟩
  refine ((accounting_iff blank (hrun.trans (.one hfree))).mpr fun e he ↦ ?_).2
  rcases List.mem_append.mp he with he | he
  · have hmem : e.2 ∈ [Call.alloc 1000, .alloc 1000] := hcalls ▸ List.mem_map_of_mem he
    rcases e with ⟨u, c⟩
    cases c with
    | free p => simp at hmem
    | _ => trivial
  · rw [List.mem_singleton.mp he]
    exact hlonely

/-- Freeing the only block merges it up to the whole heap, all of which is
added to the counter. -/
theorem free_counts_twice :
    ¬ ∀ tr s, Run (Step kernelHeap) (boot kernelHeap blank) tr s → Balanced kernelHeap s := by
  intro hall
  have hboth : ((allocMem kernelHeap 20 (boot kernelHeap blank).manager 1000).bind fun r ↦
      (freeMem kernelHeap 20 r.1 6291480).map fun m ↦ (r.2, m.freeBytesRemaining)) =
        some (6291480, 268434432) := by decide +kernel
  obtain ⟨⟨m, p⟩, hm, hfree⟩ := Option.bind_eq_some_iff.mp hboth
  obtain ⟨m', hm', hres⟩ := Option.map_eq_some_iff.mp hfree
  obtain ⟨rfl, hleft⟩ := Prod.mk.inj hres
  have halloc : Step kernelHeap (boot kernelHeap blank) (.alloc 1000) ⟨m, [6291480]⟩ :=
    Step.alloc (by decide) hm
  have hfree : Step kernelHeap ⟨m, [6291480]⟩ (.free 6291480) ⟨m', []⟩ :=
    Step.free (Or.inl List.mem_cons_self) hm'
  obtain ⟨F, -, -, hle, -⟩ := hall _ _ ((Run.one halloc).trans (Run.one hfree))
  rw [heapLeft, hleft] at hle
  exact absurd hle (by decide)

end ShellOS.Memory.BuddyAccounting
