import ShellOS.Library.Links

namespace ShellOS.Library.StableInsert

open Links Function

variable {α : Type} {key key' : α → ℕ} {v : ℕ} {x : α} {T : List α}

/-- `x` behind the cells with a key of at most `v` that begin the list. -/
def insertBehind (key : α → ℕ) (v : ℕ) (x : α) (T : List α) : List α :=
  T.takeWhile (fun y ↦ key y ≤ v) ++ x :: T.dropWhile (fun y ↦ key y ≤ v)

theorem insertBehind_perm : (insertBehind key v x T).Perm (x :: T) := by
  have h : (insertBehind key v x T).Perm
      (x :: (T.takeWhile (fun y ↦ key y ≤ v) ++ T.dropWhile (fun y ↦ key y ≤ v))) :=
    List.perm_middle
  rwa [List.takeWhile_append_dropWhile] at h

theorem mem_insertBehind {y : α} : y ∈ insertBehind key v x T ↔ y = x ∨ y ∈ T := by
  rw [insertBehind_perm.mem_iff, List.mem_cons]

theorem insertBehind_congr (h : ∀ y ∈ T, key' y = key y) :
    insertBehind key' v x T = insertBehind key v x T := by
  induction T with
  | nil => rfl
  | cons y T ih =>
    have hy := h y List.mem_cons_self
    have ih := ih (fun z hz ↦ h z (List.mem_cons_of_mem _ hz))
    unfold insertBehind at ih ⊢
    by_cases hv : key y ≤ v
    · simpa [List.takeWhile_cons, List.dropWhile_cons, hy, hv] using ih
    · simp [hy, hv]

theorem sorted_insertBehind (h : T.Pairwise (fun y z ↦ key y ≤ key z)) (hx : key x = v) :
    (insertBehind key v x T).Pairwise (fun y z ↦ key y ≤ key z) := by
  induction T with
  | nil => exact List.pairwise_singleton _ _
  | cons y T ih =>
    obtain ⟨hy, hT⟩ := List.pairwise_cons.mp h
    have ih := ih hT
    unfold insertBehind at ih ⊢
    by_cases hv : key y ≤ v
    · simp only [List.takeWhile_cons, List.dropWhile_cons, hv, decide_true, if_true,
        List.cons_append, List.pairwise_cons]
      refine ⟨fun z hz ↦ ?_, ih⟩
      rcases mem_insertBehind.mp hz with rfl | hz
      · exact hx ▸ hv
      · exact hy z hz
    · simp only [List.takeWhile_cons, List.dropWhile_cons, hv, decide_false, Bool.false_eq_true,
        if_false, List.nil_append, List.pairwise_cons]
      refine ⟨fun z hz ↦ ?_, List.pairwise_cons.mp h⟩
      rcases List.mem_cons.mp hz with rfl | hz
      · omega
      · have hz := hy z hz
        omega

variable [DecidableEq α] {next : α → α} {s e : α} {F : List α}

theorem seek_behind (keep : α → Bool) (h : Path next s (s :: F) e) (he : e ∉ F) :
    ∃ l₁ q, s :: F.takeWhile keep = l₁ ++ [q] ∧ ∀ n, F.length < n →
      seek (fun a ↦ !(decide (next a ≠ e) && keep (next a))) next n s = some q := by
  induction F generalizing s with
  | nil =>
    have hs : next s = e := h.2
    refine ⟨[], s, rfl, fun n hn ↦ ?_⟩
    obtain ⟨n, rfl⟩ : ∃ i, n = i + 1 := ⟨n - 1, by omega⟩
    simp [seek, hs]
  | cons y F ih =>
    have hs : next s = y := h.2.1
    have hye : y ≠ e := (List.ne_of_not_mem_cons he).symm
    cases hy : keep y with
    | false =>
      refine ⟨[], s, by simp [hy], fun n hn ↦ ?_⟩
      obtain ⟨n, rfl⟩ : ∃ i, n = i + 1 := ⟨n - 1, by omega⟩
      simp [seek, hs, hy]
    | true =>
      obtain ⟨l₁, q, hq, hseek⟩ := ih ⟨rfl, h.2.2⟩ (List.not_mem_of_not_mem_cons he)
      refine ⟨s :: l₁, q, by simp [hy, hq], fun n hn ↦ ?_⟩
      obtain ⟨n, rfl⟩ : ∃ i, n = i + 1 := ⟨n - 1, by omega⟩
      simp only [seek, hs, hy, hye, ne_eq, not_false_eq_true, decide_true, Bool.and_self,
        Bool.not_true, Bool.false_eq_true, if_false]
      exact hseek n (by simpa using hn)

theorem link_behind (key : α → ℕ) (v : ℕ) (h : Path next s (s :: F) e) (hnd : (s :: F).Nodup)
    (hx : x ∉ s :: F) (he : e ∉ F) :
    ∃ q ∈ s :: F, (∀ n, F.length < n →
        seek (fun a ↦ !(decide (next a ≠ e) && decide (key (next a) ≤ v))) next n s = some q) ∧
      Path (update (update next q x) x (next q)) s (s :: insertBehind key v x F) e := by
  obtain ⟨l₁, q, hq, hseek⟩ := seek_behind (fun a ↦ key a ≤ v) h he
  have hsplit : s :: F = l₁ ++ q :: F.dropWhile (fun a ↦ key a ≤ v) := by
    rw [List.append_cons, ← hq, List.cons_append, List.takeWhile_append_dropWhile]
  have hins : s :: insertBehind key v x F = l₁ ++ q :: x :: F.dropWhile (fun a ↦ key a ≤ v) := by
    rw [List.append_cons, ← hq]
    rfl
  have hqm : q ∈ s :: F := by rw [hsplit]; simp
  have hxq : x ≠ q := fun heq ↦ hx (heq ▸ hqm)
  refine ⟨q, hqm, hseek, ?_⟩
  rw [hsplit] at h hnd hx
  rw [hins]
  refine h.insert (by simp [update_of_ne hxq.symm]) (by simp) (fun y hy ↦ ?_)
  have hyq : y ≠ q := by
    rintro rfl
    exact (List.nodup_middle.mp hnd).notMem hy
  have hyx : y ≠ x := by
    rintro rfl
    apply hx
    rcases List.mem_append.mp hy with hy | hy <;> simp [hy]
  rw [update_of_ne hyx, update_of_ne hyq]

end ShellOS.Library.StableInsert
