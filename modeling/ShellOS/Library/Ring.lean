import Mathlib.Data.List.Basic
import Mathlib.Data.Nat.ModEq
import Mathlib.Logic.Function.Basic

namespace ShellOS.Library.Ring

open Function

variable {α : Type}

/-- The `n` cells of a ring that follow position `pos`. -/
def window (size : ℕ) (data : ℕ → α) (pos n : ℕ) : List α :=
  (List.range n).map fun j ↦ data ((pos + j) % size)

variable {size pos n : ℕ} {data : ℕ → α}

@[simp] theorem window_zero : window size data pos 0 = [] := rfl

theorem window_mod (data : ℕ → α) (pos : ℕ) :
    window size data (pos % size) n = window size data pos n := by
  simp [window, Nat.mod_add_mod]

theorem window_congr {data' : ℕ → α} (hsize : 0 < size) (h : ∀ i, i < size → data i = data' i) :
    window size data pos n = window size data' pos n := by
  apply List.map_congr_left
  intro j _
  exact h _ (Nat.mod_lt _ hsize)

theorem window_pop :
    window size data pos (n + 1) = data (pos % size) :: window size data (pos + 1) n := by
  simp only [window, List.range_succ_eq_map, List.map_cons, List.map_map, Nat.add_zero]
  congr 1
  apply List.map_congr_left
  intro j _
  simp only [comp_apply, Nat.succ_eq_add_one]
  rw [Nat.add_assoc, Nat.add_comm 1 j]

theorem mod_ne_of_lt {i j : ℕ} (hij : i < j) (hj : j < i + size) :
    (pos + i) % size ≠ (pos + j) % size := by
  intro h
  have hdvd : size ∣ pos + j - (pos + i) := (Nat.modEq_iff_dvd' (by omega)).mp h
  have hle := Nat.le_of_dvd (by omega) hdvd
  omega

theorem window_push (c : α) (hn : n < size) :
    window size (update data ((pos + n) % size) c) pos (n + 1) = window size data pos n ++ [c] := by
  simp only [window, List.range_succ, List.map_append, List.map_cons, List.map_nil, update_self]
  congr 1
  apply List.map_congr_left
  intro j hj
  have hjn := List.mem_range.mp hj
  exact update_of_ne (mod_ne_of_lt hjn (by omega)) _ _

end ShellOS.Library.Ring
