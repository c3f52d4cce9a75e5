import Mathlib.Data.List.GetD
import ShellOS.Userland.Libc

namespace ShellOS.Userland.Strings

open Function
open Ipc.PipeConsole (Buffer Text)
open Libc (sysWrite)

/-- `compareStrings` with a constant of the program, from byte `i` of `str1`
on. -/
def compareFrom (str1 : Buffer) : ℕ → List UInt8 → Bool
  | i, [] => str1 i = 0
  | i, c :: str2 =>
    if str1 i = 0 then false
    else if str1 i ≠ c then false
    else compareFrom str1 (i + 1) str2

def compareStrings (str1 : Buffer) (str2 : List UInt8) : Bool := compareFrom str1 0 str2

def put (buffer : Buffer) (i : ℕ) (bytes : List UInt8) : Buffer :=
  fun o ↦ if i ≤ o ∧ o < i + bytes.length then bytes.getD (o - i) 0 else buffer o

variable {buffer buffer' : Buffer} {line line' u v : List UInt8} {c : UInt8} {i j : ℕ}

section Text

theorem text_iff {text : List UInt8} : Text buffer i text ↔
    (∀ j (h : j < text.length), buffer (i + j) = text[j]) ∧ buffer (i + text.length) = 0 ∧
      ∀ c ∈ text, c ≠ 0 := by
  induction text generalizing i with
  | nil => simp [Text]
  | cons c text ih =>
    have hshift : ∀ j, i + 1 + j = i + (j + 1) := fun j ↦ by omega
    simp only [Text, ih, hshift, List.forall_mem_cons, List.length_cons]
    constructor
    · rintro ⟨hc, hne, hline, hnul, hall⟩
      refine ⟨fun j hj ↦ ?_, hnul, hne, hall⟩
      cases j with
      | zero => exact hc
      | succ j => exact hline j (Nat.lt_of_succ_lt_succ hj)
    · rintro ⟨hline, hnul, hne, hall⟩
      exact ⟨hline 0 (Nat.succ_pos _), hne, fun j hj ↦ hline (j + 1) (Nat.succ_lt_succ hj), hnul,
        hall⟩

theorem text_congr (h : Text buffer i line)
    (hsame : ∀ o, i ≤ o → o ≤ i + line.length → buffer' o = buffer o) : Text buffer' i line := by
  obtain ⟨hline, hnul, hne⟩ := text_iff.mp h
  refine text_iff.mpr ⟨fun j hj ↦ ?_, ?_, hne⟩
  · rw [hsame _ (by omega) (by omega), hline j hj]
  · rw [hsame _ (by omega) (by omega), hnul]

theorem text_drop (h : Text buffer i (u ++ v)) : Text buffer (i + u.length) v := by
  induction u generalizing i with
  | nil => exact h
  | cons c u ih =>
    have hrest := ih h.2.2
    rwa [Nat.add_assoc, Nat.add_comm 1] at hrest

theorem text_ne_nul (h : Text buffer i line) : ∀ c ∈ line, c ≠ 0 := (text_iff.mp h).2.2

theorem text_getD (hnul : 0 ∉ line) : Text (fun i ↦ line.getD i 0) 0 line := by
  have hne : ∀ c ∈ line, c ≠ 0 := List.forall_mem_ne'.mpr hnul
  refine text_iff.mpr ⟨fun j hj ↦ ?_, ?_, hne⟩
  · rw [Nat.zero_add, List.getD_eq_getElem _ _ hj]
  · rw [Nat.zero_add, List.getD_eq_default _ _ (Nat.le_refl _)]

end Text

section Compare

theorem compareFrom_text (h : Text buffer i line) (hne : ∀ c ∈ line', c ≠ 0) :
    compareFrom buffer i line' = true ↔ line = line' := by
  induction line' generalizing i line with
  | nil =>
    rw [compareFrom, decide_eq_true_iff]
    cases line with
    | nil => exact iff_of_true h rfl
    | cons c line => exact iff_of_false (by rw [h.1]; exact h.2.1) (List.cons_ne_nil _ _)
  | cons d line' ih =>
    obtain ⟨-, hne⟩ := List.forall_mem_cons.mp hne
    rw [compareFrom]
    cases line with
    | nil =>
      have hnul : buffer i = 0 := h
      rw [if_pos hnul]
      exact iff_of_false Bool.false_ne_true (List.cons_ne_nil _ _).symm
    | cons c line =>
      obtain ⟨hc, hcne, hrest⟩ := h
      rw [hc, if_neg hcne, List.cons.injEq]
      by_cases hcd : c = d
      · rw [if_neg (not_not.mpr hcd), ih hrest hne, and_iff_right hcd]
      · rw [if_pos hcd]
        exact iff_of_false Bool.false_ne_true (fun heq ↦ hcd heq.1)

theorem compareStrings_text (h : Text buffer 0 line) (hne : ∀ c ∈ line', c ≠ 0) :
    compareStrings buffer line' = true ↔ line = line' :=
  compareFrom_text h hne

end Compare

section Put

theorem put_nil (buffer : Buffer) (i : ℕ) : put buffer i [] = buffer := by
  funext o
  exact if_neg (by simp only [List.length_nil]; omega)

theorem put_update (buffer : Buffer) (i : ℕ) (c : UInt8) (line : List UInt8) :
    put (update buffer i c) (i + 1) line = put buffer i (c :: line) := by
  funext o
  unfold put
  rw [List.length_cons]
  by_cases hi : o = i
  · rw [if_neg (by omega), if_pos (by omega), hi, update_self, Nat.sub_self]
    rfl
  · by_cases hin : i + 1 ≤ o ∧ o < i + 1 + line.length
    · have hindex : o - i = o - (i + 1) + 1 := by omega
      rw [if_pos hin, if_pos (by omega), hindex]
      rfl
    · rw [if_neg hin, if_neg (by omega), update_of_ne hi]

theorem put_outside {o : ℕ} (h : o < i ∨ i + line.length ≤ o) : put buffer i line o = buffer o :=
  if_neg (by omega)

theorem put_text (hne : ∀ c ∈ line, c ≠ 0) :
    Text (update (put buffer i line) (i + line.length) 0) i line := by
  refine text_iff.mpr ⟨fun j hj ↦ ?_, update_self _ _ _, hne⟩
  rw [update_of_ne (by omega), put, if_pos (by omega), Nat.add_sub_cancel_left,
    List.getD_eq_getElem _ _ hj]

end Put

section Written

theorem getElem_sysWrite (buffer : Buffer) {n : ℕ} (h : i < (sysWrite buffer n).length) :
    (sysWrite buffer n)[i] = buffer i := by
  simp [sysWrite]

theorem text_of_sysWrite (hline : sysWrite buffer line.length = line)
    (hnul : buffer line.length = 0) (hne : ∀ c ∈ line, c ≠ 0) : Text buffer 0 line := by
  refine text_iff.mpr ⟨fun j hj ↦ ?_, by rwa [Nat.zero_add], hne⟩
  have hj' : j < (sysWrite buffer line.length).length := by simpa [sysWrite] using hj
  rw [Nat.zero_add, ← getElem_sysWrite buffer hj']
  simp only [hline]

end Written

end ShellOS.Userland.Strings
