import ShellOS.Memory.BuddyInvariant

namespace ShellOS.Memory.BuddySpec

open Library.Links Library.Tiling Library.Words Region Buddy BuddyInvariant Function

variable {L : Layout cdtSize} {m : MemoryManager} {transit live A F : List ℕ} {b : ℕ}

/-- Any header whose buddy test succeeds is read at the start of a free block. -/
theorem buddy_free (w : Wellformed L m [b] live A F) {buddy : ℕ} (hb : buddy ∈ A)
    (hne : buddy ≠ b) (hfree : m.free buddy ≠ 0) : buddy ∈ F := by
  have hmem := w.perm.mem_iff.mp hb
  simp only [List.mem_append, List.mem_singleton] at hmem
  rcases hmem with (h | h) | h
  · exact absurd h hne
  · exact h
  · exact absurd (w.live_flag buddy h) hfree

theorem tryMerge_spec (w : Wellformed L m [b] live A F) (hne : m.blockSize b ≠ totalHeapSize)
    {m₁ : MemoryManager} {lo buddy : ℕ} (h : tryMerge m b = some (m₁, lo, buddy)) :
    ∃ hi, buddy ∈ F ∧ (lo = b ∧ hi = buddy ∨ lo = buddy ∧ hi = b) ∧ hi = lo + m.blockSize lo ∧
      m.blockSize hi = m.blockSize lo ∧ m.history lo % 2 = 0 ∧
      m.blockSize lo = m.blockSize b ∧ m₁ = m.setSize lo (u32 (m.blockSize lo * 2)) := by
  have hbA : b ∈ A := w.transit_mem List.mem_cons_self
  have hbound := w.tiles.bounds.2 b hbA
  have hpos := w.tiles.pos b hbA
  simp only [heapEnd] at hbound
  obtain ⟨k, hk9, hk27, hk, hoff⟩ := log_lt (w.shape b hbA) hne
  simp only [tryMerge, Nat.and_one_is_mod] at h
  split at h
  · rename_i hodd
    split at h
    · rename_i hbuddy
      cases h
      obtain ⟨hfree, hsize⟩ := hbuddy
      obtain ⟨h', hh'⟩ : ∃ h', m.history b = h' + 1 := ⟨m.history b - 1, by omega⟩
      have hmul : m.history b * 2 ^ k = h' * 2 ^ k + 2 ^ k := by rw [hh', Nat.succ_mul]
      obtain ⟨hdvd, hfit⟩ := even_fits (h := h') hk27 (by omega) (by omega)
      have hA : b - m.blockSize b ∈ A := by
        refine w.tiles.buddy_mem w.aligned hbA (p := b - m.blockSize b) (by omega) ?_ ?_
          (Or.inr (by omega)) (Or.inl rfl)
        · rw [hk, show b - 2 ^ k - L.managedMemory = h' * 2 ^ k by omega]
          exact hdvd
        · simp only [heapEnd]
          omega
      obtain ⟨-, -, -, -, hoff'⟩ := w.shape _ hA
      rw [hsize, hk] at hoff'
      have heq : m.history (b - 2 ^ k) = h' := by
        refine Nat.eq_of_mul_eq_mul_right (Nat.two_pow_pos k) ?_
        omega
      refine ⟨b, buddy_free w hA (by omega) hfree, Or.inr ⟨rfl, rfl⟩, by omega, hsize.symm,
        ?_, hsize, rfl⟩
      rw [hk, heq]
      omega
    · cases h
  · rename_i heven
    split at h
    · rename_i hbuddy
      cases h
      obtain ⟨hfree, hsize⟩ := hbuddy
      obtain ⟨hdvd, hfit⟩ := even_fits (h := m.history b) hk27 (by omega) (by omega)
      have hA : b + m.blockSize b ∈ A := by
        refine w.tiles.buddy_mem w.aligned hbA (p := b) hbound.1 ?_ ?_ (Or.inl rfl) (Or.inr rfl)
        · rw [hk, show b - L.managedMemory = m.history b * 2 ^ k by omega]
          exact hdvd
        · simp only [heapEnd]
          omega
      exact ⟨b + m.blockSize b, buddy_free w hA (by omega) hfree, Or.inl ⟨rfl, rfl⟩, rfl,
        hsize, by omega, rfl, rfl⟩
    · cases h

theorem no_buddy (w : Wellformed L m (b :: transit) live A F)
    (hne : m.blockSize b ≠ totalHeapSize) (hnone : tryMerge m b = none) :
    ∀ x ∈ F, ¬ Buddies L m x b ∧ ¬ Buddies L m b x := by
  intro x hx
  have hbA : b ∈ A := w.transit_mem List.mem_cons_self
  have hfree : m.free x ≠ 0 := by rw [w.free_flag x hx]; decide
  obtain ⟨k, -, -, hk, hoff⟩ := log_lt (w.shape b hbA) hne
  have hpos := Nat.two_pow_pos k
  simp only [tryMerge, Nat.and_one_is_mod] at hnone
  constructor
  · rintro ⟨hs, hadd, c, hc⟩
    have hxbase := (w.tiles.bounds.2 x (w.free_mem hx)).1
    rw [← hs, hk] at hadd hc
    have hodd : m.history b = 2 * c + 1 := by
      refine Nat.eq_of_mul_eq_mul_right hpos ?_
      rw [Nat.succ_mul, Nat.mul_assoc, Nat.mul_comm c, ← Nat.mul_assoc]
      omega
    have hbuddy : b - m.blockSize b = x := by omega
    rw [if_pos (by omega), hbuddy, if_pos ⟨hfree, hs.symm⟩] at hnone
    cases hnone
  · rintro ⟨hs, hadd, hdvd⟩
    have hbase : b - L.managedMemory = m.history b * 2 ^ k := by omega
    rw [hk, hbase] at hdvd
    have heven : 2 ∣ m.history b := Nat.dvd_of_mul_dvd_mul_right hpos hdvd
    rw [if_neg (by omega), ← hadd, if_pos ⟨hfree, hs⟩] at hnone
    cases hnone

theorem whole_heap (w : Wellformed L m [b] live A F) (hb : m.blockSize b = totalHeapSize) :
    A = [b] ∧ F = [] ∧ live = [] := by
  have hbA : b ∈ A := w.transit_mem List.mem_cons_self
  have hbound := w.tiles.bounds.2 b hbA
  simp only [heapEnd] at hbound
  have hall : ∀ x ∈ A, x = b := by
    intro x hx
    by_contra hne
    have hx' := w.tiles.bounds.2 x hx
    have hpos := w.tiles.pos x hx
    have hd := w.tiles.disjoint hx hbA hne
    simp only [heapEnd] at hx'
    omega
  have hA : A = [b] := by
    obtain ⟨n, hn⟩ : ∃ n, A = List.replicate n b := ⟨A.length, List.eq_replicate_iff.mpr ⟨rfl, hall⟩⟩
    have hnd := w.tiles.nodup
    rw [hn, List.nodup_replicate] at hnd
    rcases Nat.le_one_iff_eq_zero_or_eq_one.mp hnd with rfl | rfl
    · rw [hn] at hbA
      cases hbA
    · exact hn
  have hlen := w.perm.length_eq
  rw [hA] at hlen
  simp only [List.length_append, List.length_cons, List.length_nil] at hlen
  exact ⟨hA, List.eq_nil_of_length_eq_zero (by omega), List.eq_nil_of_length_eq_zero (by omega)⟩

theorem insert_whole_spec (w : Wellformed L m [b] live A F) (hb : m.blockSize b = totalHeapSize)
    (checkMerge : Bool) :
    ∃ m', (∀ n d, insertBlockIntoFreeList L n (d + 1) m b checkMerge =
        some (m', m.blockSize b)) ∧
      Wellformed L m' [] live A [b] ∧ Kept L m m' live F [b] ∧
      m'.freeBytesRemaining = m.freeBytesRemaining := by
  obtain ⟨rfl, rfl, rfl⟩ := whole_heap w hb
  have hbs : start L ≠ b := fun h ↦ w.start_not_mem (by simp [h])
  have hbe : endBlock L ≠ b := fun h ↦ w.end_not_mem (by simp [h])
  have hse : endBlock L ≠ start L := by simp [endBlock, start]
  have hpos := w.tiles.pos b (w.transit_mem List.mem_cons_self)
  refine ⟨((m.setNext (start L) b).setNext b (endBlock L)).setFree b 1, fun n d ↦ ?_, ?_,
    ⟨fun _ _ ↦ rfl, fun _ ↦ canonical_singleton hpos⟩, rfl⟩
  · rw [insertBlockIntoFreeList, if_pos hb]
    rfl
  · constructor
    · exact w.tiles
    · simp
    · exact w.shape
    · simp
    · simp
    · simp [hbs]
    · simp
    · exact w.end_size
    · simpa [hbe, hse] using w.end_next

theorem link_kept (w : Wellformed L m (b :: transit) live A F) {m' : MemoryManager}
    (hsize : m'.blockSize = m.blockSize)
    (hb : ∀ x ∈ F, ¬ Buddies L m x b ∧ ¬ Buddies L m b x) :
    Kept L m m' live F (F.orderedInsert (fun x y ↦ m.blockSize x ≤ m.blockSize y) b) := by
  have hpos := w.tiles.pos b (w.transit_mem List.mem_cons_self)
  have hperm := List.perm_orderedInsert (fun x y ↦ m.blockSize x ≤ m.blockSize y) b F
  refine ⟨fun a _ ↦ by rw [hsize], fun hc ↦ ?_⟩
  have hinsert := (hc.insert hpos hb).sublist (fun a ha ↦ hperm.mem_iff.mp ha)
  exact hinsert.congr (fun a _ ↦ by rw [hsize])

theorem join_kept (w : Wellformed L m [b] live A F) {m' : MemoryManager} {lo buddy size : ℕ}
    (hlo : lo = b ∨ lo = buddy) (hbuddy : buddy ∈ F)
    (hsize : m'.blockSize = update m.blockSize lo size) :
    Kept L m m' live F (F.erase buddy) := by
  have hFnd : F.Nodup := (List.nodup_cons.mp w.list_nodup).2
  have hbF : b ∉ F := fun h ↦
    w.transit_not_mem_list List.mem_cons_self (List.mem_cons_of_mem _ h)
  have hlive : ∀ a ∈ live, a ≠ lo := by
    rintro a ha rfl
    refine List.disjoint_of_nodup_append w.nodup ?_ ha
    rcases hlo with rfl | rfl
    · exact List.mem_append_left _ List.mem_cons_self
    · exact List.mem_append_right _ hbuddy
  have hF : ∀ a ∈ F.erase buddy, a ≠ lo := by
    rintro a ha rfl
    rcases hlo with rfl | rfl
    · exact hbF (List.mem_of_mem_erase ha)
    · exact (hFnd.mem_erase_iff.mp ha).1 rfl
  refine ⟨fun a ha ↦ by rw [hsize, update_of_ne (hlive a ha)], fun hc ↦ ?_⟩
  have hsub : Canonical L m (F.erase buddy) := hc.sublist (fun a ha ↦ List.mem_of_mem_erase ha)
  exact hsub.congr (fun a ha ↦ by rw [hsize, update_of_ne (hF a ha)])

def Merges (m : MemoryManager) (b : ℕ) : Prop :=
  m.blockSize b ≠ totalHeapSize ∧ (tryMerge m b).isSome

theorem merges_iff (w : Wellformed L m [b] live A F) :
    Merges m b ↔ ∃ x ∈ F, Buddies L m x b ∨ Buddies L m b x := by
  constructor
  · rintro ⟨hne, hsome⟩
    obtain ⟨⟨m₁, lo, buddy⟩, hmerge⟩ := Option.isSome_iff_exists.mp hsome
    obtain ⟨hi, hbuddy, hpair, hhi, hs, heven, -, -⟩ := tryMerge_spec w hne hmerge
    have hloA : lo ∈ A := by
      rcases hpair with ⟨rfl, -⟩ | ⟨rfl, -⟩
      · exact w.transit_mem List.mem_cons_self
      · exact w.free_mem hbuddy
    obtain ⟨k, -, -, hk, hoff⟩ := w.shape lo hloA
    have hpos := w.tiles.pos lo hloA
    have hhalves : Buddies L m lo hi := by
      refine ⟨hs, hhi, ?_⟩
      rw [hoff, Nat.add_sub_cancel_left, ← hoff]
      exact Nat.mul_dvd_mul_right (Nat.dvd_of_mod_eq_zero heven) _
    rcases hpair with ⟨rfl, rfl⟩ | ⟨rfl, rfl⟩
    · exact ⟨_, hbuddy, Or.inr hhalves⟩
    · exact ⟨_, hbuddy, Or.inl hhalves⟩
  · rintro ⟨x, hx, hhalves⟩
    have hne : m.blockSize b ≠ totalHeapSize := by
      intro hb
      rw [(whole_heap w hb).2.1] at hx
      cases hx
    refine ⟨hne, Option.isSome_iff_ne_none.mpr (fun hnone ↦ ?_)⟩
    have hno := no_buddy w hne hnone x hx
    exact hhalves.elim hno.1 hno.2

/-- What an insertion of `b` does, with the size `v` that it returns. -/
structure Inserted (L : Layout cdtSize) (m m' : MemoryManager) (v b : ℕ) (live F F' : List ℕ) :
    Prop where
  left : m'.freeBytesRemaining = m.freeBytesRemaining
  kept : Kept L m m' live F F'
  size_le : v ≤ totalHeapSize
  le_size : m.blockSize b ≤ v
  size_eq : v = m.blockSize b ↔ ¬ Merges m b

theorem insert_whole_inserted (w : Wellformed L m [b] live A F)
    (hb : m.blockSize b = totalHeapSize) :
    ∃ m', (∀ n d, 0 < d → insertBlockIntoFreeList L n d m b true = some (m', m.blockSize b)) ∧
      Wellformed L m' [] live A [b] ∧ Inserted L m m' (m.blockSize b) b live F [b] := by
  obtain ⟨m', hins, hw, hkept, hfr⟩ := insert_whole_spec w hb true
  refine ⟨m', fun n d hd ↦ ?_, hw,
    ⟨hfr, hkept, hb.le, Nat.le_refl _, ⟨fun _ hm ↦ hm.1 hb, fun _ ↦ rfl⟩⟩⟩
  obtain ⟨d, rfl⟩ : ∃ e, d = e + 1 := ⟨d - 1, by omega⟩
  exact hins n d

theorem insert_spec (w : Wellformed L m [b] live A F) {j : ℕ}
    (hj : totalHeapSize ≤ m.blockSize b * 2 ^ j) :
    ∃ m' v A' F', (∀ n d, F.length < n → j < d →
        insertBlockIntoFreeList L n d m b true = some (m', v)) ∧
      Wellformed L m' [] live A' F' ∧ Inserted L m m' v b live F F' := by
  induction j generalizing m b A F with
  | zero =>
    have hle := w.size_le (w.transit_mem List.mem_cons_self)
    obtain ⟨m', hins, hw, hi⟩ := insert_whole_inserted w (by omega)
    exact ⟨m', _, A, [b], fun n d _ hd ↦ hins n d hd, hw, hi⟩
  | succ j ih =>
    by_cases hb : m.blockSize b = totalHeapSize
    · obtain ⟨m', hins, hw, hi⟩ := insert_whole_inserted w hb
      exact ⟨m', _, A, [b], fun n d _ hd ↦ hins n d (by omega), hw, hi⟩
    cases hmerge : tryMerge m b with
    | none =>
      obtain ⟨m', hlink, hsz, -, hfr, hw⟩ := link_spec w
      have hle := w.size_le (w.transit_mem List.mem_cons_self)
      have hno : ¬ Merges m b := by simp [Merges, hmerge]
      refine ⟨m', m.blockSize b, A, _, fun n d hn hd ↦ ?_, hw,
        ⟨hfr, link_kept w hsz (no_buddy w hb hmerge), hle, Nat.le_refl _, ⟨fun _ ↦ hno, fun _ ↦ rfl⟩⟩⟩
      obtain ⟨d, rfl⟩ : ∃ e, d = e + 1 := ⟨d - 1, by omega⟩
      rw [insertBlockIntoFreeList, if_neg hb, if_pos rfl, hmerge]
      exact hlink n hn
    | some r =>
      obtain ⟨m₁, lo, buddy⟩ := r
      obtain ⟨hi, hbuddy, hpair, hhi, hs, heven, hlob, rfl⟩ := tryMerge_spec w hb hmerge
      obtain ⟨m₂, hremove, hw₂, hsz, hfr⟩ :=
        join_spec w hbuddy hpair hhi hs heven (by rw [hlob]; exact hb)
      have hlo : lo = b ∨ lo = buddy := hpair.imp And.left And.left
      have hsize : m₂.blockSize lo = 2 * m.blockSize b := by rw [hsz, update_self, hlob]
      have hpos := w.tiles.pos b (w.transit_mem List.mem_cons_self)
      have hmerges : Merges m b := ⟨hb, by rw [hmerge]; rfl⟩
      have hj₂ : totalHeapSize ≤ m₂.blockSize lo * 2 ^ j := by
        rw [hsize, Nat.mul_comm 2, Nat.mul_assoc, ← Nat.pow_succ']
        exact hj
      obtain ⟨m', v, A', F', hins, hw, hi₂⟩ := ih hw₂ hj₂
      have hvle := hi₂.le_size
      refine ⟨m', v, A', F', fun n d hn hd ↦ ?_, hw, ⟨hi₂.left.trans hfr,
        (join_kept w hlo hbuddy hsz).trans hi₂.kept, hi₂.size_le, by omega,
        ⟨fun hvb ↦ by omega, fun hno ↦ absurd hmerges hno⟩⟩⟩
      obtain ⟨d, rfl⟩ : ∃ e, d = e + 1 := ⟨d - 1, by omega⟩
      have hlen : (F.erase buddy).length < n :=
        Nat.lt_of_le_of_lt List.length_erase_le hn
      rw [insertBlockIntoFreeList, if_neg hb, if_pos rfl, hmerge]
      change (removeBlockFromFreeList L n _ buddy).bind _ = _
      rw [show (m.setSize lo (u32 (m.blockSize lo * 2))).history lo = m.history lo from rfl,
        hremove n hn, Option.bind_some]
      exact hins n d hlen (by omega)

theorem lor_one_of_even {h : ℕ} (hh : h % 2 = 0) : h ||| 1 = h + 1 := by
  obtain ⟨k, rfl⟩ : ∃ k, h = 2 ^ 1 * k := ⟨h / 2, by omega⟩
  exact (Nat.two_pow_add_eq_or_of_lt (by omega) k).symm

theorem halve_fields (m : MemoryManager) (b : ℕ) {size : ℕ} (hsize : m.blockSize b = 2 * size)
    (hpos : 0 < size) (hh : m.history b * 2 < 2 ^ 32) :
    (halve m b).blockSize = update (update m.blockSize b size) (b + size) size ∧
      (halve m b).history =
        update (update m.history b (2 * m.history b)) (b + size) (2 * m.history b + 1) ∧
      (halve m b).free = update m.free (b + size) 1 ∧
      (halve m b).nextFreeBlock = m.nextFreeBlock ∧
      (halve m b).freeBytesRemaining = m.freeBytesRemaining := by
  have hdiv : m.blockSize b / 2 = size := by omega
  have hshift : u32 (m.history b <<< 1) = 2 * m.history b := by
    rw [Nat.shiftLeft_eq, Nat.pow_one, u32_of_lt hh, Nat.mul_comm]
  have hlor := lor_one_of_even (Nat.mul_mod_right 2 (m.history b))
  have hne : b ≠ b + size := by omega
  refine ⟨?_, ?_, ?_, rfl, rfl⟩
  · simp [halve, hdiv]
  · simp [halve, hdiv, hshift, hlor]
  · simp [halve, hdiv]

theorem halve_spec (w : Wellformed L m (b :: transit) live A F) {size : ℕ}
    (hsize : m.blockSize b = 2 * size) (hmin : minimumBlockSize ≤ size) :
    ∃ A', Wellformed L (halve m b) ((b + size) :: b :: transit) live A' F ∧
      (halve m b).blockSize b = size ∧ (halve m b).blockSize (b + size) = size ∧
      (halve m b).freeBytesRemaining = m.freeBytesRemaining := by
  have hbA : b ∈ A := w.transit_mem List.mem_cons_self
  have hbound := w.tiles.bounds.2 b hbA
  have hpos : 0 < size := Nat.lt_of_lt_of_le (by decide) hmin
  obtain ⟨k, hk9, hk27, hk, hoff⟩ := w.shape b hbA
  obtain ⟨j, rfl⟩ : ∃ j, k = j + 1 := ⟨k - 1, by omega⟩
  have hj : size = 2 ^ j := by
    rw [hsize, Nat.pow_succ'] at hk
    omega
  have hj9 : 9 ≤ j := by
    rw [hj] at hmin
    exact (Nat.pow_le_pow_iff_right (a := 2) (by omega)).mp hmin
  have hhist : m.history b * 2 < 2 ^ 32 := by
    have hle : m.history b ≤ m.history b * m.blockSize b :=
      Nat.le_mul_of_pos_right _ (by omega)
    simp only [heapEnd, totalHeapSize] at hbound
    omega
  obtain ⟨hbs, hhs, hfr, hnx, hrem⟩ := halve_fields m b hsize hpos hhist
  have hnew : b + size ∉ A := w.tiles.not_mem_inside hbA (by omega) (by omega)
  have hends : b + size ≠ endBlock L := by
    have ha := L.apart
    simp only [endBlock, heapEnd, cdtSize] at hbound ha ⊢
    omega
  have hne : b + size ≠ b := by omega
  have hold : ∀ a ∈ A, a ≠ b → (halve m b).blockSize a = m.blockSize a := by
    intro a ha hab
    have han : a ≠ b + size := fun h ↦ hnew (h ▸ ha)
    rw [hbs, update_of_ne han, update_of_ne hab]
  have hb : (halve m b).blockSize b = size := by rw [hbs, update_of_ne hne.symm, update_self]
  have hn : (halve m b).blockSize (b + size) = size := by rw [hbs, update_self]
  have hFb : ∀ a ∈ F, a ≠ b := fun a ha h ↦
    w.transit_not_mem_list List.mem_cons_self (List.mem_cons_of_mem _ (h ▸ ha))
  obtain ⟨A', hperm, htiles⟩ := w.tiles.split_mem (y := b + size) hbA (by rw [hb, hn]; omega)
    (by rw [hb]) (by rw [hb]; exact hpos) (by rw [hn]; exact hpos) hold
  refine ⟨A', ⟨htiles, hperm.trans (w.perm.cons _), fun x hx ↦ ?_, fun a ha ↦ ?_, fun a ha ↦ ?_,
    ?_, ?_, ?_, ?_⟩, hb, hn, hrem⟩
  · rcases List.mem_cons.mp (hperm.mem_iff.mp hx) with rfl | hx
    · refine ⟨j, hj9, by omega, hn.trans hj, ?_⟩
      rw [hn, hhs, update_self, Nat.succ_mul, Nat.mul_comm 2, Nat.mul_assoc, ← hsize]
      omega
    · by_cases hxb : x = b
      · subst hxb
        refine ⟨j, hj9, by omega, hb.trans hj, ?_⟩
        rw [hb, hhs, update_of_ne hne.symm, update_self, Nat.mul_comm 2, Nat.mul_assoc, ← hsize]
        exact hoff
      · have hxn : x ≠ b + size := fun h ↦ hnew (h ▸ hx)
        have hhx : (halve m b).history x = m.history x := by
          rw [hhs, update_of_ne hxn, update_of_ne hxb]
        unfold Shaped
        rw [hold x hx hxb, hhx]
        exact w.shape x hx
  · have han : a ≠ b + size := fun h ↦ hnew (h ▸ w.free_mem ha)
    rw [hfr, update_of_ne han]
    exact w.free_flag a ha
  · have han : a ≠ b + size := fun h ↦ hnew (h ▸ w.live_mem ha)
    rw [hfr, update_of_ne han]
    exact w.live_flag a ha
  · rw [hnx]
    exact w.list
  · refine w.sorted.imp_of_mem (fun {x y} hx hy hxy ↦ ?_)
    rw [hold x (w.free_mem hx) (hFb x hx), hold y (w.free_mem hy) (hFb y hy)]
    exact hxy
  · have hbe : endBlock L ≠ b := fun h ↦ w.end_not_mem (h ▸ hbA)
    rw [hbs, update_of_ne hends.symm, update_of_ne hbe]
    exact w.end_size
  · rw [hnx]
    exact w.end_next

theorem halve_size (w : Wellformed L m (b :: transit) live A F) {size : ℕ}
    (hsize : m.blockSize b = 2 * size) (hmin : minimumBlockSize ≤ size) {a : ℕ} (ha : a ∈ A)
    (hab : a ≠ b) : (halve m b).blockSize a = m.blockSize a := by
  have hbA : b ∈ A := w.transit_mem List.mem_cons_self
  have hpos : 0 < size := Nat.lt_of_lt_of_le (by decide) hmin
  have han : a ≠ b + size := by
    rintro rfl
    exact w.tiles.not_mem_inside hbA (by omega) (by omega) ha
  have hdiv : m.blockSize b / 2 = size := by omega
  simp [halve, hdiv, hab, han]

theorem halve_kept (w : Wellformed L m (b :: transit) live A F) {size : ℕ}
    (hsize : m.blockSize b = 2 * size) (hmin : minimumBlockSize ≤ size) :
    Kept L m (halve m b) live F F := by
  refine ⟨fun a ha ↦ halve_size w hsize hmin (w.live_mem ha) ?_,
    fun hc ↦ hc.congr (fun a ha ↦ halve_size w hsize hmin (w.free_mem ha) ?_)⟩
  · rintro rfl
    exact List.disjoint_of_nodup_append w.nodup (by simp) ha
  · rintro rfl
    exact w.transit_not_mem_list List.mem_cons_self (List.mem_cons_of_mem _ ha)

theorem halves_apart (w : Wellformed L m (b :: transit) live A F) {size : ℕ}
    (hsize : m.blockSize b = 2 * size) (hmin : minimumBlockSize ≤ size) :
    ∀ x ∈ F, ¬ Buddies L (halve m b) x (b + size) ∧ ¬ Buddies L (halve m b) (b + size) x := by
  intro x hx
  have hbA : b ∈ A := w.transit_mem List.mem_cons_self
  have hpos : 0 < size := Nat.lt_of_lt_of_le (by decide) hmin
  have hdiv : m.blockSize b / 2 = size := by omega
  have hn : (halve m b).blockSize (b + size) = size := by simp [halve, hdiv]
  constructor
  · rintro ⟨hs, hadd, -⟩
    obtain rfl : x = b := by omega
    exact w.transit_not_mem_list List.mem_cons_self (List.mem_cons_of_mem _ hx)
  · rintro ⟨-, -, hdvd⟩
    have hbase := (w.tiles.bounds.2 b hbA).1
    have hal := (w.aligned b hbA).2
    rw [hn, Nat.sub_add_comm hbase] at hdvd
    rw [hsize] at hal
    have hle := Nat.le_of_dvd hpos ((Nat.dvd_add_right hal).mp hdvd)
    omega

/-- The block `b` was cut in two `j` times: one half of each size is free. -/
structure Halved (m m' : MemoryManager) (b : ℕ) (F F' : List ℕ) (j : ℕ) : Prop where
  size_eq : m.blockSize b = m'.blockSize b * 2 ^ j
  halves : F'.Perm ((List.range j).map (fun i ↦ b + m'.blockSize b * 2 ^ i) ++ F)
  half_size : ∀ i < j, m'.blockSize (b + m'.blockSize b * 2 ^ i) = m'.blockSize b * 2 ^ i
  kept : ∀ a ∈ F, m'.blockSize a = m.blockSize a

theorem Halved.zero (m : MemoryManager) (b : ℕ) (F : List ℕ) : Halved m m b F F 0 :=
  ⟨by simp, by simp, fun i hi ↦ absurd hi (Nat.not_lt_zero i), fun _ _ ↦ rfl⟩

theorem Halved.succ {m₁ m' : MemoryManager} {F₁ F' : List ℕ} {size j : ℕ}
    (h : Halved m₁ m' b F₁ F' j) (hb : m.blockSize b = 2 * size) (hb₁ : m₁.blockSize b = size)
    (hhalf : m₁.blockSize (b + size) = size) (hF₁ : F₁.Perm ((b + size) :: F))
    (hkept : ∀ a ∈ F, m₁.blockSize a = m.blockSize a) : Halved m m' b F F' (j + 1) := by
  have hlast : m'.blockSize b * 2 ^ j = size := h.size_eq.symm.trans hb₁
  refine ⟨?_, ?_, fun i hi ↦ ?_, fun a ha ↦ ?_⟩
  · rw [hb, ← hlast, Nat.pow_succ']
    exact Nat.mul_left_comm _ _ _
  · rw [List.range_succ, List.map_append, List.map_singleton, hlast, List.append_assoc]
    exact h.halves.trans (hF₁.append_left _)
  · rcases Nat.lt_succ_iff_lt_or_eq.mp hi with hi | rfl
    · exact h.half_size i hi
    · rw [hlast, h.kept _ (hF₁.mem_iff.mpr List.mem_cons_self), hhalf]
  · rw [h.kept a (hF₁.mem_iff.mpr (List.mem_cons_of_mem _ ha)), hkept a ha]

theorem splitLoop_spec (w : Wellformed L m [b] live A F) (need : ℕ) {j : ℕ}
    (hj : m.blockSize b < 2 * minimumBlockSize * 2 ^ j) :
    ∃ m' A' F', (∀ n d, F.length + j < n → j < d → splitLoop L n d m b need = some m') ∧
      Wellformed L m' [b] live A' F' ∧ m'.freeBytesRemaining = m.freeBytesRemaining ∧
      Kept L m m' live F F' ∧ m'.blockSize b ≤ m.blockSize b ∧
      (need ≤ m.blockSize b → need ≤ m'.blockSize b) ∧
      ¬ (minimumBlockSize ≤ m'.blockSize b / 2 ∧ need ≤ m'.blockSize b / 2) ∧
      ∃ i, Halved m m' b F F' i := by
  induction j generalizing m A F with
  | zero =>
    have hstop : ¬ (minimumBlockSize ≤ m.blockSize b / 2 ∧ need ≤ m.blockSize b / 2) := by omega
    refine ⟨m, A, F, fun n d _ hd ↦ ?_, w, rfl, .refl, le_rfl, id, hstop, 0, .zero m b F⟩
    obtain ⟨d, rfl⟩ : ∃ e, d = e + 1 := ⟨d - 1, by omega⟩
    rw [splitLoop, if_neg hstop]
  | succ j ih =>
    by_cases hcut : minimumBlockSize ≤ m.blockSize b / 2 ∧ need ≤ m.blockSize b / 2
    · have hbA : b ∈ A := w.transit_mem List.mem_cons_self
      have hle := w.size_le hbA
      have hpos := w.tiles.pos b hbA
      have hsize : m.blockSize b = 2 * (m.blockSize b / 2) := by
        obtain ⟨k, hk9, -, hk, -⟩ := w.shape b hbA
        obtain ⟨i, rfl⟩ : ∃ i, k = i + 1 := ⟨k - 1, by omega⟩
        rw [hk, Nat.pow_succ']
        omega
      obtain ⟨A₁, w₁, hb₁, hn₁, hr₁⟩ := halve_spec w hsize hcut.1
      obtain ⟨m₂, hlink, hs₂, -, hr₂, w₂⟩ := link_spec w₁
      have hj₂ : m₂.blockSize b < 2 * minimumBlockSize * 2 ^ j := by
        rw [Nat.pow_succ', Nat.mul_left_comm] at hj
        rw [hs₂, hb₁]
        omega
      obtain ⟨m', A', F', hloop, hw, hr, hkept, hsle, hneed, hstop, i, hhalved⟩ := ih w₂ hj₂
      rw [hs₂, hb₁] at hsle hneed
      have hold : ∀ a ∈ F, m₂.blockSize a = m.blockSize a := by
        intro a ha
        rw [hs₂]
        refine halve_size w hsize hcut.1 (w.free_mem ha) ?_
        rintro rfl
        exact w.transit_not_mem_list List.mem_cons_self (List.mem_cons_of_mem _ ha)
      have hall := hhalved.succ hsize (by rw [hs₂, hb₁]) (by rw [hs₂, hn₁])
        (List.perm_orderedInsert _ _ _) hold
      have hhalf := halve_kept w hsize hcut.1
      have hlinked := link_kept w₁ hs₂ (halves_apart w hsize hcut.1)
      refine ⟨m', A', F', fun n d hn hd ↦ ?_, hw, hr.trans (hr₂.trans hr₁),
        (hhalf.trans hlinked).trans hkept, by omega, fun _ ↦ hneed hcut.2, hstop, _, hall⟩
      obtain ⟨d, rfl⟩ : ∃ e, d = e + 1 := ⟨d - 1, by omega⟩
      obtain ⟨n, rfl⟩ : ∃ e, n = e + 1 := ⟨n - 1, by omega⟩
      have hsmall : (halve m b).blockSize (b + m.blockSize b / 2) ≠ totalHeapSize := by omega
      have hlen := List.orderedInsert_length
        (fun x y ↦ (halve m b).blockSize x ≤ (halve m b).blockSize y) F (b + m.blockSize b / 2)
      have hins : insertBlockIntoFreeList L (n + 1) (n + 1) (halve m b) (b + m.blockSize b / 2)
          false = some (m₂, (halve m b).blockSize (b + m.blockSize b / 2)) := by
        rw [insertBlockIntoFreeList, if_neg hsmall, if_neg (by decide)]
        exact hlink _ (by omega)
      simp only [splitLoop, if_pos hcut, hins, Option.bind_some]
      exact hloop _ d (by omega) (by omega)
    · refine ⟨m, A, F, fun n d _ hd ↦ ?_, w, rfl, .refl, le_rfl, id, hcut, 0, .zero m b F⟩
      obtain ⟨d, rfl⟩ : ∃ e, d = e + 1 := ⟨d - 1, by omega⟩
      rw [splitLoop, if_neg hcut]

theorem findBlock_spec (w : Wellformed L m [] live A F) (need : ℕ) (hneed : need ≤ totalHeapSize) :
    (∀ b ∈ F, m.blockSize b < need) ∧
      (∃ q, ∀ n, F.length < n → findBlock L n m need = some (q, endBlock L)) ∨
    ∃ F₁ b F₂, F = F₁ ++ b :: F₂ ∧ (∀ x ∈ F₁, m.blockSize x < need) ∧ need ≤ m.blockSize b ∧
      ∃ l₁ q, start L :: F₁ = l₁ ++ [q] ∧
        ∀ n, F.length < n → findBlock L n m need = some (q, b) := by
  have hend : need ≤ m.blockSize (endBlock L) := by
    rw [w.end_size]
    exact hneed
  have h := w.list.seek_first (fun x ↦ decide (m.nextFreeBlock x = 0))
    (fun x hx ↦ by simpa using w.next_ne_null (List.mem_cons_of_mem _ hx)) hend
  simpa only [findBlock, decide_not] using h

theorem take_spec {F₁ F₂ l₁ : List ℕ} {q : ℕ} (w : Wellformed L m transit live A (F₁ ++ b :: F₂))
    (hq : start L :: F₁ = l₁ ++ [q]) :
    m.nextFreeBlock q = b ∧
      Wellformed L (m.setNext q (m.nextFreeBlock b)) (b :: transit) live A (F₁ ++ F₂) := by
  obtain ⟨hqb, hpath⟩ := w.list.unlink (b := b) w.list_nodup hq
  have hsub : (F₁ ++ F₂).Sublist (F₁ ++ b :: F₂) := by simp
  refine ⟨hqb, ?_⟩
  constructor
  · exact w.tiles
  · refine List.perm_iff_count.mpr (fun a ↦ ?_)
    have h := w.perm.count_eq a
    simp only [List.count_append, List.count_cons] at h ⊢
    omega
  · exact w.shape
  · exact fun a ha ↦ w.free_flag a (hsub.subset ha)
  · exact w.live_flag
  · exact hpath
  · exact w.sorted.sublist hsub
  · exact w.end_size
  · have hqe : endBlock L ≠ q := by
      rintro rfl
      apply w.end_not_mem_list
      have hmem : endBlock L ∈ start L :: F₁ := by simp [hq]
      exact List.mem_append_left (b :: F₂) hmem
    simpa [hqe] using w.end_next

theorem hand_out (w : Wellformed L m [b] live A F) (left : ℕ) :
    Wellformed L (({ m with freeBytesRemaining := left } : MemoryManager).setFree b 0) [] (b :: live)
      A F := by
  have hbF := w.transit_not_mem_list List.mem_cons_self
  constructor
  · exact w.tiles
  · refine w.perm.trans (List.perm_iff_count.mpr (fun a ↦ ?_))
    simp only [List.count_append, List.count_cons, List.count_nil]
    omega
  · exact w.shape
  · intro a ha
    have hab : a ≠ b := fun h ↦ hbF (List.mem_cons_of_mem _ (h ▸ ha))
    simpa [hab] using w.free_flag a ha
  · intro a ha
    by_cases hab : a = b
    · simp [hab]
    · have ha' := (List.mem_cons.mp ha).resolve_left hab
      simpa [hab] using w.live_flag a ha'
  · exact w.list
  · exact w.sorted
  · exact w.end_size
  · exact w.end_next

theorem take_back {live' : List ℕ} (w : Wellformed L m [] live A F) (hl : live.Perm (b :: live')) :
    Wellformed L m [b] live' A F := by
  constructor
  · exact w.tiles
  · refine List.perm_iff_count.mpr (fun a ↦ ?_)
    have h := w.perm.count_eq a
    have h' := hl.count_eq a
    simp only [List.count_append, List.count_cons, List.count_nil] at h h' ⊢
    omega
  · exact w.shape
  · exact w.free_flag
  · exact fun a ha ↦ w.live_flag a (hl.mem_iff.mpr (List.mem_cons_of_mem _ ha))
  · exact w.list
  · exact w.sorted
  · exact w.end_size
  · exact w.end_next

theorem setLeft (w : Wellformed L m transit live A F) (left : ℕ) :
    Wellformed L { m with freeBytesRemaining := left } transit live A F := by
  constructor
  · exact w.tiles
  · exact w.perm
  · exact w.shape
  · exact w.free_flag
  · exact w.live_flag
  · exact w.list
  · exact w.sorted
  · exact w.end_size
  · exact w.end_next

/-- A call of `allocMem` returns, for any request. Either nothing changes, or
the first block of the list that is large enough, or a part of it, is taken. -/
theorem alloc_spec (w : Wellformed L m [] live A F) (r : ℕ) :
    ((r = 0 ∨ totalHeapSize < requestSize structSize r ∨
        ∀ b ∈ F, m.blockSize b < requestSize structSize r) ∧
      ∀ n, F.length < n → allocMem L n m r = some (m, 0)) ∨
    ∃ F₁ b F₂ m' A' F', F = F₁ ++ b :: F₂ ∧
      (∀ x ∈ F₁, m.blockSize x < requestSize structSize r) ∧
      requestSize structSize r ≤ m'.blockSize b ∧ m'.blockSize b ≤ m.blockSize b ∧
      ¬ (minimumBlockSize ≤ m'.blockSize b / 2 ∧ requestSize structSize r ≤ m'.blockSize b / 2) ∧
      (∃ i, Halved m m' b (F₁ ++ F₂) F' i) ∧
      Wellformed L m' [] (b :: live) A' F' ∧ Kept L m m' live F F' ∧
      m'.freeBytesRemaining = u32Sub m.freeBytesRemaining (m'.blockSize b) ∧
      ∀ n, F.length + 18 < n → allocMem L n m r = some (m', b + structSize) := by
  by_cases hr : r = 0
  · exact Or.inl ⟨Or.inl hr, fun n _ ↦ by simp [allocMem, hr]⟩
  by_cases hbig : totalHeapSize < requestSize structSize r
  · exact Or.inl ⟨Or.inr (Or.inl hbig), fun n _ ↦ by simp [allocMem, hr, hbig]⟩
  rcases findBlock_spec w (requestSize structSize r) (by omega) with
    ⟨hsmall, q, hfind⟩ | ⟨F₁, b, F₂, rfl, hfirst, hlarge, l₁, q, hq, hfind⟩
  · refine Or.inl ⟨Or.inr (Or.inr hsmall), fun n hn ↦ ?_⟩
    rw [allocMem, if_neg hr, if_neg hbig, hfind n hn]
    exact if_pos rfl
  · right
    have hbA : b ∈ A := w.free_mem (by simp)
    have hbe : b ≠ endBlock L := fun h ↦ w.end_not_mem (h ▸ hbA)
    obtain ⟨hqb, w₁⟩ := take_spec w hq
    have hj : (m.setNext q (m.nextFreeBlock b)).blockSize b < 2 * minimumBlockSize * 2 ^ 18 :=
      Nat.lt_of_le_of_lt (w.size_le hbA) (by decide)
    obtain ⟨m', A', F', hloop, hw, hfr, hkept, hle, hneed, hstop, i, hhalved⟩ :=
      splitLoop_spec w₁ (requestSize structSize r) hj
    have htaken : Kept L m (m.setNext q (m.nextFreeBlock b)) live (F₁ ++ b :: F₂) (F₁ ++ F₂) := by
      refine ⟨fun _ _ ↦ rfl, fun hc ↦ Canonical.congr ?_ (fun _ _ ↦ rfl)⟩
      refine hc.sublist (fun a ha ↦ ?_)
      rcases List.mem_append.mp ha with ha | ha <;> simp [ha]
    have hall := htaken.trans hkept
    let left := u32Sub m'.freeBytesRemaining (m'.blockSize b)
    refine ⟨F₁, b, F₂, ({ m' with freeBytesRemaining := left } : MemoryManager).setFree b 0, A', F',
      rfl, hfirst, hneed hlarge, hle, hstop,
      ⟨i, hhalved.size_eq, hhalved.halves, hhalved.half_size, hhalved.kept⟩, hand_out hw left,
      ⟨hall.size, fun hc ↦ (hall.canonical hc).congr (fun _ _ ↦ rfl)⟩, ?_, fun n hn ↦ ?_⟩
    · exact congrArg (u32Sub · (m'.blockSize b)) hfr
    have hlen : (F₁ ++ F₂).length + 18 < n := by
      simp only [List.length_append, List.length_cons] at hn ⊢
      omega
    simp only [allocMem, if_neg hr, if_neg hbig, hfind n (by omega), Option.bind_eq_bind,
      Option.bind_some, if_neg hbe, hqb, hloop n n hlen (by omega)]
    rfl

theorem free_spec {live' : List ℕ} (w : Wellformed L m [] live A F)
    (hl : live.Perm (b :: live')) (hb : b ≠ 0) :
    ∃ m' v A' F', (∀ n, F.length + 18 < n → freeMem L n m (b + structSize) = some m') ∧
      Wellformed L m' [] live' A' F' ∧ Kept L m m' live' F F' ∧
      m'.freeBytesRemaining = u32 (m.freeBytesRemaining + v) ∧ v ≤ totalHeapSize ∧
      m.blockSize b ≤ v ∧ (v = m.blockSize b ↔ ¬ Merges m b) := by
  have w₁ := take_back w hl
  have hj : totalHeapSize ≤ m.blockSize b * 2 ^ 18 := by
    have h := (w₁.shape b (w₁.transit_mem List.mem_cons_self)).size_pos
    unfold minimumBlockSize at h
    unfold totalHeapSize
    omega
  obtain ⟨m', v, A', F', hins, hw, hi⟩ := insert_spec w₁ hj
  refine ⟨_, v, A', F', fun n hn ↦ ?_, setLeft hw (u32 (m'.freeBytesRemaining + v)),
    ⟨hi.kept.size, fun hc ↦ (hi.kept.canonical hc).congr (fun _ _ ↦ rfl)⟩,
    congrArg (u32 <| · + v) hi.left, hi.size_le, hi.le_size, hi.size_eq⟩
  have hpos : b + structSize ≠ 0 := by omega
  simp only [freeMem, if_neg hpos, Nat.add_sub_cancel, hins n n (by omega) (by omega),
    Option.map_some]

end ShellOS.Memory.BuddySpec
