import Mathlib.Data.List.Sort
import Mathlib.Logic.Function.Basic

namespace ShellOS.Library.Links

variable {α : Type}

/-- Following `next` from `a` visits exactly the cells of `l`, in order, and
then arrives at `b`. -/
def Path (next : α → α) : α → List α → α → Prop
  | a, [], b => a = b
  | a, x :: l, b => a = x ∧ Path next (next x) l b

variable {next next' : α → α} {a b e p x : α} {l l₁ l₂ : List α}

@[simp] theorem path_nil : Path next a [] b ↔ a = b := Iff.rfl

@[simp] theorem path_cons : Path next a (x :: l) b ↔ a = x ∧ Path next (next x) l b := Iff.rfl

theorem path_append :
    Path next a (l₁ ++ l₂) b ↔ ∃ c, Path next a l₁ c ∧ Path next c l₂ b := by
  induction l₁ generalizing a with
  | nil => simp
  | cons x l₁ ih => simp only [List.cons_append, path_cons, ih, and_assoc, exists_and_left]

theorem path_snoc : Path next a (l ++ [x]) b ↔ Path next a l x ∧ next x = b := by
  rw [path_append]
  constructor
  · rintro ⟨c, hc, rfl, hb⟩
    exact ⟨hc, hb⟩
  · rintro ⟨hc, hb⟩
    exact ⟨x, hc, rfl, hb⟩

theorem Path.congr (h : Path next a l b) (hl : ∀ x ∈ l, next' x = next x) :
    Path next' a l b := by
  induction l generalizing a with
  | nil => exact h
  | cons x l ih =>
    obtain ⟨rfl, h⟩ := h
    refine ⟨rfl, ?_⟩
    rw [hl _ List.mem_cons_self]
    exact ih h (fun y hy ↦ hl y (List.mem_cons_of_mem _ hy))

theorem Path.start_mem (h : Path next a l b) (hl : l ≠ []) : a ∈ l := by
  cases l with
  | nil => exact absurd rfl hl
  | cons x l => rw [h.1]; exact List.mem_cons_self

theorem Path.unique (h₁ : Path next a l₁ b) (h₂ : Path next a l₂ b)
    (hb₁ : b ∉ l₁) (hb₂ : b ∉ l₂) : l₁ = l₂ := by
  induction l₁ generalizing a l₂ with
  | nil =>
    cases h₁
    cases l₂ with
    | nil => rfl
    | cons y l₂ => exact absurd (h₂.1 ▸ List.mem_cons_self) hb₂
  | cons x l₁ ih =>
    obtain ⟨rfl, h₁⟩ := h₁
    cases l₂ with
    | nil => exact absurd (h₂ ▸ List.mem_cons_self) hb₁
    | cons y l₂ =>
      obtain ⟨rfl, h₂⟩ := h₂
      rw [ih h₁ h₂ (fun h ↦ hb₁ (List.mem_cons_of_mem _ h))
        (fun h ↦ hb₂ (List.mem_cons_of_mem _ h))]

theorem Path.next_mem (h : Path next a l b) (hx : x ∈ l) : next x ∈ l ∨ next x = b := by
  induction l generalizing a with
  | nil => cases hx
  | cons y l ih =>
    obtain ⟨rfl, h⟩ := h
    rcases List.mem_cons.mp hx with rfl | hx
    · cases l with
      | nil => exact Or.inr h
      | cons z l => exact Or.inl (by rw [h.1]; simp)
    · rcases ih h hx with hm | hm
      · exact Or.inl (List.mem_cons_of_mem _ hm)
      · exact Or.inr hm

theorem Path.next_eq_end_iff {s e : α} {F : List α} (h : Path next s (s :: F) e) (he : e ∉ F) :
    next s = e ↔ F = [] := by
  cases F with
  | nil => simpa using h
  | cons b F =>
    have hb : next s = b := h.2.1
    have hbe : b ≠ e := fun heq ↦ he (heq ▸ List.mem_cons_self)
    simpa [hb] using hbe

theorem Path.next_ne_start (h : Path next a l b) (hnd : l.Nodup) (hb : b ∉ l) (hx : x ∈ l) :
    next x ≠ a := by
  cases l with
  | nil => cases hx
  | cons y l =>
    obtain ⟨rfl, h⟩ := h
    obtain ⟨hal, -⟩ := List.nodup_cons.mp hnd
    have hnext : next x ∈ l ∨ next x = b := by
      rcases List.mem_cons.mp hx with rfl | hx
      · cases l with
        | nil => exact Or.inr h
        | cons z l => exact Or.inl (h.start_mem (List.cons_ne_nil z l))
      · exact h.next_mem hx
    rcases hnext with hm | hm
    · exact ne_of_mem_of_not_mem hm hal
    · rw [hm]
      exact List.ne_of_not_mem_cons hb

theorem Path.insert (h : Path next a (l₁ ++ p :: l₂) e) (hp : next' p = b)
    (hb : next' b = next p) (hl : ∀ x ∈ l₁ ++ l₂, next' x = next x) :
    Path next' a (l₁ ++ p :: b :: l₂) e := by
  obtain ⟨c, h₁, rfl, h₂⟩ := path_append.mp h
  have h₁' := h₁.congr (fun x hx ↦ hl x (List.mem_append_left _ hx))
  have h₂' := h₂.congr (fun x hx ↦ hl x (List.mem_append_right _ hx))
  refine path_append.mpr ⟨c, h₁', rfl, hp, ?_⟩
  rw [hb]
  exact h₂'

theorem Path.remove (h : Path next a (l₁ ++ p :: b :: l₂) e) (hp : next' p = next b)
    (hl : ∀ x ∈ l₁ ++ l₂, next' x = next x) : Path next' a (l₁ ++ p :: l₂) e := by
  obtain ⟨c, h₁, rfl, -, h₂⟩ := path_append.mp h
  have h₁' := h₁.congr (fun x hx ↦ hl x (List.mem_append_left _ hx))
  have h₂' := h₂.congr (fun x hx ↦ hl x (List.mem_append_right _ hx))
  refine path_append.mpr ⟨c, h₁', rfl, ?_⟩
  rw [hp]
  exact h₂'

/-- A loop that follows `next` until `stop` holds. It is cut off, without a
result, when it has not stopped after the given number of tests. -/
def seek (stop : α → Bool) (next : α → α) : ℕ → α → Option α
  | 0, _ => none
  | n + 1, a => if stop a then some a else seek stop next n (next a)

variable {stop : α → Bool} {n m : ℕ}

theorem exists_succ (h : m < n) : ∃ k, n = k + 1 :=
  Nat.exists_eq_add_one_of_ne_zero (Nat.ne_of_gt (Nat.zero_lt_of_lt h))

theorem seek_mono (h : seek stop next n a = some x) (hm : n ≤ m) :
    seek stop next m a = some x := by
  induction n generalizing a m with
  | zero => cases h
  | succ n ih =>
    obtain ⟨m, rfl⟩ : ∃ k, m = k + 1 := ⟨m - 1, by omega⟩
    simp only [seek] at h ⊢
    split at h
    · rename_i hs
      rw [if_pos hs]
      exact h
    · rename_i hs
      rw [if_neg hs]
      exact ih h (by omega)

theorem seek_congr {stop' : α → Bool} {P : α → Prop} (hstop : ∀ c, P c → stop' c = stop c)
    (hnext : ∀ c, P c → stop c = false → next' c = next c ∧ P (next c)) (ha : P a) :
    seek stop' next' n a = seek stop next n a := by
  induction n generalizing a with
  | zero => rfl
  | succ n ih =>
    rw [seek, seek, hstop a ha]
    cases hs : stop a with
    | true => rfl
    | false =>
      obtain ⟨hn, hP⟩ := hnext a ha hs
      simp only [Bool.false_eq_true, if_false, hn]
      exact ih hP

theorem seek_mem {P : α → Prop} (hnext : ∀ c, P c → stop c = false → P (next c)) (ha : P a)
    (h : seek stop next n a = some x) : P x := by
  induction n generalizing a with
  | zero => cases h
  | succ n ih =>
    rw [seek] at h
    cases hs : stop a with
    | true =>
      rw [if_pos hs] at h
      cases h
      exact ha
    | false =>
      rw [if_neg (by simp [hs])] at h
      exact ih (hnext a ha hs) h

theorem seek_path (h : Path next a l b) (hl : ∀ x ∈ l, stop x = false) (hb : stop b = true)
    (hn : l.length < n) : seek stop next n a = some b := by
  induction l generalizing a n with
  | nil =>
    cases h
    obtain ⟨n, rfl⟩ : ∃ k, n = k + 1 := ⟨n - 1, by omega⟩
    simp only [seek, hb, if_true]
  | cons x l ih =>
    obtain ⟨rfl, h⟩ := h
    obtain ⟨n, rfl⟩ : ∃ k, n = k + 1 := ⟨n - 1, by omega⟩
    have hx := hl _ List.mem_cons_self
    simp only [seek, hx, Bool.false_eq_true, if_false]
    exact ih h (fun y hy ↦ hl y (List.mem_cons_of_mem _ hy)) (by simpa using hn)

theorem Path.seek_spec (stop : α → Bool) (h : Path next a l e) (he : stop e = true) :
    ∃ b, (∀ n, l.length < n → seek stop next n a = some b) ∧
      (b = e ∧ (∀ x ∈ l, stop x = false) ∨ b ∈ l ∧ stop b = true) := by
  induction l generalizing a with
  | nil =>
    refine ⟨e, fun n hn ↦ ?_, Or.inl ⟨rfl, by simp⟩⟩
    exact seek_path h (by simp) he hn
  | cons x l ih =>
    obtain ⟨rfl, h⟩ := h
    cases hx : stop a with
    | true =>
      refine ⟨a, fun n hn ↦ ?_, Or.inr ⟨List.mem_cons_self, hx⟩⟩
      obtain ⟨n, rfl⟩ : ∃ k, n = k + 1 := ⟨n - 1, by omega⟩
      simp only [seek, hx, if_true]
    | false =>
      obtain ⟨b, hseek, hb⟩ := ih h
      refine ⟨b, fun n hn ↦ ?_, ?_⟩
      · obtain ⟨n, rfl⟩ : ∃ k, n = k + 1 := ⟨n - 1, by omega⟩
        simp only [seek, hx, Bool.false_eq_true, if_false]
        exact hseek n (by simpa using hn)
      · exact hb.imp (fun hb ↦ ⟨hb.1, by simpa [hx] using hb.2⟩)
          (fun hb ↦ ⟨List.mem_cons_of_mem _ hb.1, hb.2⟩)

theorem seek_pair (stop : α → Bool) (h : Path next x l b) (hl : ∀ y ∈ l, stop y = false)
    (hb : stop b = true) (p : α) :
    ∃ l₁ q, p :: l = l₁ ++ [q] ∧ ∀ n, l.length < n →
      seek (fun w ↦ stop w.2) (fun w ↦ (w.2, next w.2)) n (p, x) = some (q, b) := by
  induction l generalizing x p with
  | nil =>
    cases h
    refine ⟨[], p, rfl, fun n hn ↦ ?_⟩
    obtain ⟨n, rfl⟩ : ∃ k, n = k + 1 := ⟨n - 1, by omega⟩
    simp only [seek, hb, if_true]
  | cons y l ih =>
    obtain ⟨rfl, h⟩ := h
    have hx := hl _ List.mem_cons_self
    obtain ⟨l₁, q, hq, hseek⟩ := ih h (fun z hz ↦ hl z (List.mem_cons_of_mem _ hz)) x
    refine ⟨p :: l₁, q, by rw [hq]; rfl, fun n hn ↦ ?_⟩
    obtain ⟨n, rfl⟩ : ∃ k, n = k + 1 := ⟨n - 1, by omega⟩
    simp only [seek, hx, Bool.false_eq_true, if_false]
    exact hseek n (by simpa using hn)

def trail (stop : α → Bool) (next : α → α) : ℕ → α → List α
  | 0, _ => []
  | n + 1, a => if stop a then [a] else a :: trail stop next n (next a)

theorem Path.trail_mem (h : Path next a (a :: l) e)
    (hstop : ∀ y ∈ a :: l, next y = e → stop y = true) (n : ℕ) :
    ∀ y ∈ trail stop next n a, y ∈ a :: l := by
  induction l generalizing a n with
  | nil =>
    have ha : stop a = true := hstop a List.mem_cons_self h.2
    cases n with
    | zero => simp [trail]
    | succ n => simp [trail, ha]
  | cons b l ih =>
    have hb : next a = b := h.2.1
    have hrest : Path next b (b :: l) e := ⟨rfl, h.2.2⟩
    have ih := ih hrest (fun y hy ↦ hstop y (List.mem_cons_of_mem _ hy))
    cases n with
    | zero => simp [trail]
    | succ n =>
      intro y hy
      rw [trail] at hy
      split at hy
      · rw [List.mem_singleton.mp hy]
        exact List.mem_cons_self
      · rcases List.mem_cons.mp hy with rfl | hy
        · exact List.mem_cons_self
        · exact List.mem_cons_of_mem _ (ih n y (hb ▸ hy))

theorem Path.trail_last (h : Path next a (a :: l) e)
    (hgo : ∀ y ∈ a :: l, next y ∈ l → stop y = false) (hn : l.length < n) :
    ∃ y ∈ trail stop next n a, next y = e := by
  induction l generalizing a n with
  | nil =>
    obtain ⟨n, rfl⟩ : ∃ i, n = i + 1 := ⟨n - 1, by omega⟩
    refine ⟨a, ?_, h.2⟩
    rw [trail]
    split <;> exact List.mem_cons_self
  | cons b l ih =>
    obtain ⟨n, rfl⟩ : ∃ i, n = i + 1 := ⟨n - 1, by omega⟩
    have hb : next a = b := h.2.1
    have hrest : Path next b (b :: l) e := ⟨rfl, h.2.2⟩
    have ha : stop a = false := hgo a List.mem_cons_self (hb ▸ List.mem_cons_self)
    obtain ⟨y, hy, hye⟩ := ih hrest
      (fun y hy hm ↦ hgo y (List.mem_cons_of_mem _ hy) (List.mem_cons_of_mem _ hm))
      (by simpa using hn)
    refine ⟨y, ?_, hye⟩
    rw [trail, ha, hb]
    exact List.mem_cons_of_mem _ hy

/-- The walk that looks for the first cell of size at least `need`, and keeps
the cell before it, up to the end cell `e`, which is large enough. -/
theorem Path.seek_first {size : α → ℕ} {need : ℕ} {s : α} {F : List α}
    (h : Path next s (s :: F) e) (last : α → Bool) (hlast : ∀ x ∈ F, last x = false)
    (he : need ≤ size e) :
    (∀ b ∈ F, size b < need) ∧
      (∃ q, ∀ n, F.length < n → seek (fun w ↦ !(decide (size w.2 < need) && !last w.2))
        (fun w ↦ (w.2, next w.2)) n (s, next s) = some (q, e)) ∨
    ∃ F₁ b F₂, F = F₁ ++ b :: F₂ ∧ (∀ x ∈ F₁, size x < need) ∧ need ≤ size b ∧
      ∃ l₁ q, s :: F₁ = l₁ ++ [q] ∧ ∀ n, F.length < n →
        seek (fun w ↦ !(decide (size w.2 < need) && !last w.2))
          (fun w ↦ (w.2, next w.2)) n (s, next s) = some (q, b) := by
  have hgo : ∀ (F₁ : List α) (c : α), Path next (next s) F₁ c →
      (∀ x ∈ F₁, x ∈ F ∧ size x < need) → need ≤ size c →
      ∃ l₁ q, s :: F₁ = l₁ ++ [q] ∧ ∀ n, F₁.length < n →
        seek (fun w ↦ !(decide (size w.2 < need) && !last w.2))
          (fun w ↦ (w.2, next w.2)) n (s, next s) = some (q, c) := by
    intro F₁ c hp hF hc
    refine seek_pair (fun x ↦ !(decide (size x < need) && !last x)) hp (fun x hx ↦ ?_) ?_ s
    · simp [(hF x hx).2, hlast x (hF x hx).1]
    · have hlt : ¬ size c < need := by omega
      simp [hlt]
  by_cases hall : ∀ b ∈ F, size b < need
  · obtain ⟨-, q, -, hq⟩ := hgo F e h.2 (fun x hx ↦ ⟨hx, hall x hx⟩) he
    exact Or.inl ⟨hall, q, hq⟩
  · right
    obtain ⟨F₁, b, F₂, hF, hlt, hb⟩ : ∃ F₁ b F₂, F = F₁ ++ b :: F₂ ∧
        (∀ x ∈ F₁, size x < need) ∧ need ≤ size b := by
      obtain ⟨b, hbF, hb⟩ := not_forall₂.mp hall
      obtain ⟨b', F₁, F₂, hF₁, hb', hF, -⟩ := List.exists_of_eraseP hbF
        (p := fun x ↦ decide (need ≤ size x)) (by simpa using hb)
      exact ⟨F₁, b', F₂, hF, fun x hx ↦ by simpa using hF₁ x hx, by simpa using hb'⟩
    have hp := h.2
    rw [hF] at hp
    obtain ⟨c, hp, hcb, -⟩ := path_append.mp hp
    rw [hcb] at hp
    obtain ⟨l₁, q, hq, hseek⟩ := hgo F₁ b hp
      (fun x hx ↦ ⟨by rw [hF]; simp [hx], hlt x hx⟩) hb
    refine ⟨F₁, b, F₂, hF, hlt, hb, l₁, q, hq, fun n hn ↦ hseek n ?_⟩
    rw [hF, List.length_append] at hn
    omega

/-- In a list linked in key order, the walk that looks for the first cell
whose successor has a key no smaller than that of `b` stops exactly where
`orderedInsert` puts `b`. -/
theorem seek_orderedInsert {key : α → ℕ} {s : α} {F : List α} (b : α)
    (h : Path next s (s :: F) e) (he : key b ≤ key e) :
    ∃ l₁ q l₂, s :: F = l₁ ++ q :: l₂ ∧
      s :: F.orderedInsert (fun x y ↦ key x ≤ key y) b = l₁ ++ q :: b :: l₂ ∧
      ∀ n, F.length < n →
        seek (fun p ↦ !decide (key (next p) < key b)) next n s = some q := by
  induction F generalizing s with
  | nil =>
    have hs : next s = e := h.2
    have hlt : ¬ key e < key b := by omega
    refine ⟨[], s, [], rfl, rfl, fun n hn ↦ ?_⟩
    obtain ⟨n, rfl⟩ : ∃ k, n = k + 1 := ⟨n - 1, by omega⟩
    simp [seek, hs, hlt]
  | cons x F ih =>
    have hs : next s = x := h.2.1
    by_cases hx : key x < key b
    · have hrest : Path next x (x :: F) e := ⟨rfl, h.2.2⟩
      obtain ⟨l₁, q, l₂, hF, hI, hq⟩ := ih hrest
      refine ⟨s :: l₁, q, l₂, by rw [hF]; rfl, ?_, fun n hn ↦ ?_⟩
      · rw [List.orderedInsert_cons, if_neg (by omega), hI]
        rfl
      · obtain ⟨n, rfl⟩ : ∃ k, n = k + 1 := ⟨n - 1, by omega⟩
        simp only [seek, hs, hx, decide_true, Bool.not_true, Bool.false_eq_true, if_false]
        exact hq n (by simpa using hn)
    · refine ⟨[], s, x :: F, rfl, ?_, fun n hn ↦ ?_⟩
      · rw [List.orderedInsert_cons, if_pos (by omega)]
        rfl
      · obtain ⟨n, rfl⟩ : ∃ k, n = k + 1 := ⟨n - 1, by omega⟩
        simp [seek, hs, hx]

theorem sorted_orderedInsert {key : α → ℕ} {F : List α} (b : α)
    (h : F.Pairwise (fun x y ↦ key x ≤ key y)) :
    (F.orderedInsert (fun x y ↦ key x ≤ key y) b).Pairwise (fun x y ↦ key x ≤ key y) := by
  have htotal : Std.Total (fun x y ↦ key x ≤ key y) := ⟨fun x y ↦ Nat.le_total _ _⟩
  have htrans : IsTrans α (fun x y ↦ key x ≤ key y) := ⟨fun _ _ _ ↦ Nat.le_trans⟩
  exact h.orderedInsert b F

theorem first_le_of_sorted {key : α → ℕ} {n : ℕ}
    (h : (l₁ ++ b :: l₂).Pairwise (fun x y ↦ key x ≤ key y)) (hl : ∀ x ∈ l₁, key x < n)
    (hx : x ∈ l₁ ++ b :: l₂) (hn : n ≤ key x) : key b ≤ key x := by
  rcases List.mem_append.mp hx with hx | hx
  · exact absurd hn (Nat.not_le.mpr (hl x hx))
  · rcases List.mem_cons.mp hx with rfl | hx
    · exact Nat.le_refl _
    · exact (List.pairwise_cons.mp (List.pairwise_append.mp h).2.1).1 x hx

theorem erase_middle [DecidableEq α] (h : (l₁ ++ b :: l₂).Nodup) :
    (l₁ ++ b :: l₂).erase b = l₁ ++ l₂ := by
  have hb : b ∉ l₁ := fun hm ↦ (List.nodup_middle.mp h).notMem (List.mem_append_left _ hm)
  rw [List.erase_append_right _ hb, List.erase_cons_head]

variable [DecidableEq α] {s : α} {F F₁ F₂ : List α}

open Function

/-- Sorted insertion: the walk finds a predecessor, and linking `b` in there
keeps the list in key order. -/
theorem Path.insert_sorted {key : α → ℕ} (h : Path next s (s :: F) e) (hnd : (s :: F).Nodup)
    (hb : b ∉ s :: F) (he : key b ≤ key e) :
    ∃ q ∈ s :: F, (∀ n, F.length < n →
        seek (fun p ↦ !decide (key (next p) < key b)) next n s = some q) ∧
      Path (update (update next b (next q)) q b) s
        (s :: F.orderedInsert (fun x y ↦ key x ≤ key y) b) e := by
  obtain ⟨l₁, q, l₂, hF, hI, hq⟩ := seek_orderedInsert b h he
  have hqm : q ∈ s :: F := by rw [hF]; simp
  have hbq : b ≠ q := fun heq ↦ hb (heq ▸ hqm)
  refine ⟨q, hqm, hq, ?_⟩
  rw [hI]
  rw [hF] at h hnd hb
  refine h.insert (by simp) (by simp [update_of_ne hbq]) (fun x hx ↦ ?_)
  have hxq : x ≠ q := by
    rintro rfl
    exact (List.nodup_middle.mp hnd).notMem hx
  have hxb : x ≠ b := by
    rintro rfl
    apply hb
    rcases List.mem_append.mp hx with hx | hx <;> simp [hx]
  rw [update_of_ne hxq, update_of_ne hxb]

theorem Path.unlink (h : Path next s (s :: F₁ ++ b :: F₂) e) (hnd : (s :: F₁ ++ b :: F₂).Nodup)
    {q : α} (hq : s :: F₁ = l₁ ++ [q]) : next q = b ∧
      Path (update next q (next b)) s (s :: F₁ ++ F₂) e := by
  rw [hq, List.append_assoc, List.singleton_append] at h hnd
  have hqb : next q = b := by
    obtain ⟨c, -, -, hb, -⟩ := path_append.mp h
    exact hb
  refine ⟨hqb, ?_⟩
  rw [hq, List.append_assoc, List.singleton_append]
  refine h.remove (by simp) (fun x hx ↦ update_of_ne ?_ _ _)
  rintro rfl
  apply (List.nodup_middle.mp hnd).notMem
  rcases List.mem_append.mp hx with hx | hx <;> simp [hx]

theorem Path.seek_pred (h : Path next s (s :: F₁ ++ b :: F₂) e)
    (hnd : (s :: F₁ ++ b :: F₂).Nodup)
    (hstop : ∀ p ∈ s :: F₁, stop p = decide (next p = b)) :
    ∃ l₁ q, s :: F₁ = l₁ ++ [q] ∧ ∀ n, F₁.length < n → seek stop next n s = some q := by
  induction F₁ generalizing s with
  | nil =>
    have hs : next s = b := h.2.1
    refine ⟨[], s, rfl, fun n hn ↦ ?_⟩
    obtain ⟨n, rfl⟩ : ∃ k, n = k + 1 := ⟨n - 1, by omega⟩
    simp [seek, hstop s List.mem_cons_self, hs]
  | cons x F₁ ih =>
    have hs : next s = x := h.2.1
    have hxb : x ≠ b := by
      rintro rfl
      simp at hnd
    have hrest : Path next x (x :: F₁ ++ b :: F₂) e := ⟨rfl, h.2.2⟩
    obtain ⟨l₁, q, hq, hseek⟩ := ih hrest (List.nodup_cons.mp hnd).2
      (fun p hp ↦ hstop p (List.mem_cons_of_mem _ hp))
    refine ⟨s :: l₁, q, by rw [hq]; rfl, fun n hn ↦ ?_⟩
    obtain ⟨n, rfl⟩ : ∃ k, n = k + 1 := ⟨n - 1, by omega⟩
    simp only [seek, hstop s List.mem_cons_self, hs, hxb, decide_false, Bool.false_eq_true,
      if_false]
    exact hseek n (by simpa using hn)

end ShellOS.Library.Links
