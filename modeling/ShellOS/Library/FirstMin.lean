import Mathlib.Data.List.Basic

namespace ShellOS.Library.FirstMin

variable {α : Type} (ready : α → Bool) (key : α → ℕ)

/-- A ready element with the smallest key of all ready ones, if there is one. -/
structure Best (l : List α) (x : α) : Prop where
  mem : x ∈ l
  isReady : (∃ y ∈ l, ready y) → ready x
  le : ∀ y ∈ l, ready y → key x ≤ key y

/-- One turn of a search for the first ready element with the smallest key. -/
def better (x a : α) : α :=
  let x := if ready x then x else a
  if key a < key x ∧ ready a then a else x

/-- The same turn, except that it looks at whether the element found so far is
ready, where `better` looks at the new one. -/
def better' (x a : α) : α :=
  let x := if ready x then x else a
  if key a < key x ∧ ready x then a else x

/-- No element that is not ready is ahead of all ready ones before it. -/
def NoOvertaking (l : List α) : Prop :=
  ∀ l₁ y l₂, l = l₁ ++ y :: l₂ → ready y = false → ∀ x ∈ l₁, ready x →
    ∃ z ∈ l₁, ready z ∧ key z ≤ key y

variable {ready key} {ready' : α → Bool} {key' : α → ℕ} {l m : List α} {x a : α}

theorem NoOvertaking.congr (h : NoOvertaking ready key l) (hready : ∀ y ∈ l, ready' y = ready y)
    (hkey : ∀ y ∈ l, key' y = key y) : NoOvertaking ready' key' l := by
  intro l₁ y l₂ hl hy x hx hr
  have hmem : ∀ z ∈ l₁, z ∈ l := fun z hz ↦ hl ▸ List.mem_append_left _ hz
  have hyl : y ∈ l := hl ▸ List.mem_append_right _ List.mem_cons_self
  rw [hready y hyl] at hy
  rw [hready x (hmem x hx)] at hr
  obtain ⟨z, hz, hzr, hle⟩ := h l₁ y l₂ hl hy x hx hr
  refine ⟨z, hz, ?_, ?_⟩
  · rw [hready z (hmem z hz)]
    exact hzr
  · rw [hkey z (hmem z hz), hkey y hyl]
    exact hle

theorem best_singleton : Best ready key [x] x := by
  refine ⟨List.mem_singleton_self x, fun h ↦ ?_, fun y hy _ ↦ ?_⟩
  · obtain ⟨y, hy, hr⟩ := h
    rwa [List.mem_singleton.mp hy] at hr
  · obtain rfl := List.mem_singleton.mp hy
    exact Nat.le_refl _

theorem Best.not_ready (h : Best ready key l x) (hx : ready x = false) :
    ∀ y ∈ l, ready y = false := by
  intro y hy
  by_contra hr
  have hx' := h.isReady ⟨y, hy, by simpa using hr⟩
  rw [hx] at hx'
  cases hx'

theorem Best.step (h : Best ready key l x) (a : α) :
    Best ready key (l ++ [a]) (better ready key x a) := by
  have hmem : ∀ y, y ∈ l ++ [a] ↔ y ∈ l ∨ y = a := by simp
  cases hx : ready x with
  | false =>
    have hnone := h.not_ready hx
    have hbetter : better ready key x a = a := by simp [better, hx]
    rw [hbetter]
    refine ⟨by simp, fun hex ↦ ?_, fun y hy hr ↦ ?_⟩
    · obtain ⟨y, hy, hr⟩ := hex
      rcases (hmem y).mp hy with hy | rfl
      · rw [hnone y hy] at hr
        cases hr
      · exact hr
    · rcases (hmem y).mp hy with hy | rfl
      · rw [hnone y hy] at hr
        cases hr
      · exact Nat.le_refl _
  | true =>
    by_cases ha : key a < key x ∧ ready a
    · have hbetter : better ready key x a = a := by simp [better, hx, ha]
      rw [hbetter]
      refine ⟨by simp, fun _ ↦ ha.2, fun y hy hr ↦ ?_⟩
      rcases (hmem y).mp hy with hy | rfl
      · exact Nat.le_trans (Nat.le_of_lt ha.1) (h.le y hy hr)
      · exact Nat.le_refl _
    · have hbetter : better ready key x a = x := by simp [better, hx, ha]
      rw [hbetter]
      refine ⟨(hmem x).mpr (Or.inl h.mem), fun _ ↦ hx, fun y hy hr ↦ ?_⟩
      rcases (hmem y).mp hy with hy | rfl
      · exact h.le y hy hr
      · exact Nat.not_lt.mp (fun hlt ↦ ha ⟨hlt, hr⟩)

theorem Best.foldl (h : Best ready key l x) (m : List α) :
    Best ready key (l ++ m) (m.foldl (better ready key) x) := by
  induction m generalizing l x with
  | nil => simpa using h
  | cons a m ih =>
    have hstep := ih (h.step a)
    rwa [List.append_assoc] at hstep

theorem best_foldl (x : α) (l : List α) :
    Best ready key (x :: l) ((x :: l).foldl (better ready key) x) := by
  have hself : better ready key x x = x := by
    unfold better
    split <;> simp
  rw [List.foldl_cons, hself]
  exact best_singleton.foldl l

theorem foldl_better_first (hx : ready x) (h : ∀ a ∈ l, key x ≤ key a) :
    l.foldl (better ready key) x = x := by
  induction l with
  | nil => rfl
  | cons a l ih =>
    have ha : ¬ key a < key x := Nat.not_lt.mpr (h a List.mem_cons_self)
    have hstep : better ready key x a = x := by simp [better, hx, ha]
    rw [List.foldl_cons, hstep]
    exact ih (fun b hb ↦ h b (List.mem_cons_of_mem _ hb))

theorem foldl_better'_first (hx : ready x) (h : ∀ a ∈ l, key x ≤ key a) :
    l.foldl (better' ready key) x = x := by
  induction l with
  | nil => rfl
  | cons a l ih =>
    have ha : ¬ key a < key x := Nat.not_lt.mpr (h a List.mem_cons_self)
    have hstep : better' ready key x a = x := by simp [better', hx, ha]
    rw [List.foldl_cons, hstep]
    exact ih (fun b hb ↦ h b (List.mem_cons_of_mem _ hb))

theorem better'_mem (ready : α → Bool) (key : α → ℕ) (x a : α) :
    better' ready key x a = x ∨ better' ready key x a = a := by
  unfold better'
  cases hx : ready x with
  | true => by_cases hlt : key a < key x <;> simp [hx, hlt]
  | false => simp

theorem better'_eq (h : ¬ (ready x ∧ ready a = false ∧ key a < key x)) :
    better' ready key x a = better ready key x a := by
  unfold better better'
  cases hx : ready x with
  | false => simp
  | true =>
    cases ha : ready a with
    | true => simp [hx]
    | false =>
      have hlt : ¬ key a < key x := fun hlt ↦ h ⟨hx, ha, hlt⟩
      simp [hlt]

theorem Best.step' (h : Best ready key l x) (hno : NoOvertaking ready key (l ++ a :: m)) :
    Best ready key (l ++ [a]) (better' ready key x a) := by
  rw [better'_eq]
  · exact h.step a
  · rintro ⟨hx, ha, hlt⟩
    obtain ⟨z, hz, hr, hle⟩ := hno l a m rfl ha x h.mem hx
    have hxz := h.le z hz hr
    omega

theorem Best.foldl' (h : Best ready key l x) (m : List α)
    (hno : NoOvertaking ready key (l ++ m)) :
    Best ready key (l ++ m) (m.foldl (better' ready key) x) := by
  induction m generalizing l x with
  | nil => simpa using h
  | cons a m ih =>
    have hstep := h.step' hno
    rw [List.append_cons] at hno ⊢
    exact ih hstep hno

theorem best_foldl' (x : α) (l : List α) (hno : NoOvertaking ready key (x :: l)) :
    Best ready key (x :: l) ((x :: l).foldl (better' ready key) x) := by
  have hself : better' ready key x x = x := by
    unfold better'
    split <;> simp
  rw [List.foldl_cons, hself]
  exact best_singleton.foldl' l hno

end ShellOS.Library.FirstMin
