import Mathlib.Data.List.TakeWhile

namespace ShellOS.Library.Tokens

variable {α : Type} {sep : α → Bool} {a : α} {l : List α}

/-- The maximal runs without a separator, in order. -/
def words (sep : α → Bool) (l : List α) : List (List α) :=
  (l.splitOnP sep).filter fun w ↦ !w.isEmpty

def word (sep : α → Bool) (l : List α) : List α := l.takeWhile fun a ↦ !sep a

def afterWord (sep : α → Bool) (l : List α) : List α := l.dropWhile fun a ↦ !sep a

theorem word_append_afterWord (sep : α → Bool) (l : List α) :
    word sep l ++ afterWord sep l = l := List.takeWhile_append_dropWhile

theorem sep_of_mem_word (h : a ∈ word sep l) : sep a = false := by
  simpa using List.mem_takeWhile_imp h

theorem afterWord_cases (sep : α → Bool) (l : List α) :
    afterWord sep l = [] ∨ ∃ a rest, afterWord sep l = a :: rest ∧ sep a = true := by
  cases h : afterWord sep l with
  | nil => exact Or.inl rfl
  | cons a rest =>
    refine Or.inr ⟨a, rest, rfl, ?_⟩
    have hhead := List.head?_dropWhile_not (fun a ↦ !sep a) l
    unfold afterWord at h
    rw [h] at hhead
    simpa using hhead

theorem words_sep (ha : sep a = true) (l : List α) : words sep (a :: l) = words sep l := by
  have hsplit := List.splitOnP_append_cons (p := sep) [] l ha
  rw [List.nil_append, List.splitOnP_nil] at hsplit
  unfold words
  rw [hsplit]
  rfl

theorem words_dropWhile (sep : α → Bool) (l : List α) :
    words sep (l.dropWhile sep) = words sep l := by
  induction l with
  | nil => rfl
  | cons a l ih =>
    by_cases ha : sep a = true
    · rw [List.dropWhile_cons_of_pos ha, ih, words_sep ha]
    · rw [List.dropWhile_cons_of_neg ha]

theorem words_cons (ha : sep a = false) (l : List α) :
    words sep (a :: l) = word sep (a :: l) :: words sep (afterWord sep (a :: l)) := by
  have hword : word sep (a :: l) ≠ [] := by
    rw [word, List.takeWhile_cons_of_pos (by simp [ha])]
    exact List.cons_ne_nil _ _
  have hrun : ∀ b ∈ word sep (a :: l), sep b = false := fun b hb ↦ sep_of_mem_word hb
  have hkept : ∀ ws, (word sep (a :: l) :: ws).filter (fun w ↦ !w.isEmpty) =
      word sep (a :: l) :: ws.filter fun w ↦ !w.isEmpty :=
    fun ws ↦ List.filter_cons_of_pos (by simpa using hword)
  conv => lhs; rw [← word_append_afterWord sep (a :: l)]
  unfold words
  rcases afterWord_cases sep (a :: l) with hnil | ⟨b, rest, hrest, hb⟩
  · rw [hnil, List.append_nil, List.splitOnP_eq_singleton hrun, hkept]
    rfl
  · have hsplit := words_sep hb rest
    unfold words at hsplit
    rw [hrest, List.splitOnP_append_cons_of_forall_mem hrun b hb, hkept, hsplit]

end ShellOS.Library.Tokens
