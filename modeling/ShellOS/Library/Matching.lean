import Mathlib.Data.List.Perm.Basic
import Mathlib.Data.Nat.Notation

namespace ShellOS.Library.Matching

/-- Every need can be given a size of its own that is large enough. -/
def Fits (needs sizes : List ℕ) : Prop :=
  ∃ S, List.Forall₂ (· ≤ ·) needs S ∧ S.Subperm sizes

variable {n c : ℕ} {needs needs' sizes sizes' S : List ℕ}

theorem Fits.perm (h : Fits needs sizes) (hp : needs'.Perm needs) : Fits needs' sizes := by
  obtain ⟨S, hS, hsub⟩ := h
  obtain ⟨S', hS', hperm⟩ := List.perm_comp_forall₂ hp hS
  exact ⟨S', hS', hperm.subperm.trans hsub⟩

theorem Fits.mono (h : Fits needs sizes) (hsub : sizes.Subperm sizes') : Fits needs sizes' := by
  obtain ⟨S, hS, h⟩ := h
  exact ⟨S, hS, h.trans hsub⟩

theorem Fits.exists_le (h : Fits (n :: needs) sizes) : ∃ c ∈ sizes, n ≤ c := by
  obtain ⟨S, hS, hsub⟩ := h
  cases hS with
  | cons hn _ => exact ⟨_, hsub.subset List.mem_cons_self, hn⟩

theorem forall₂_exchange {X Y : List ℕ} {s : ℕ} (h : List.Forall₂ (· ≤ ·) needs (X ++ c :: Y))
    (hs : c ≤ s) : List.Forall₂ (· ≤ ·) needs (X ++ s :: Y) := by
  induction X generalizing needs with
  | nil =>
    cases h with
    | cons hc h => exact .cons (Nat.le_trans hc hs) h
  | cons x X ih =>
    cases h with
    | cons hx h => exact .cons hx (ih h)

/-- Giving a need the smallest size that is large enough leaves enough for the
other needs: whoever was to get that size gets the one it sets free. -/
theorem Fits.best_fit (h : Fits (n :: needs) sizes) (hmin : ∀ x ∈ sizes, n ≤ x → c ≤ x) :
    Fits needs (sizes.erase c) := by
  obtain ⟨S, hS, hsub⟩ := h
  cases hS with
  | @cons _ s _ S hn hS =>
    have hcs : c ≤ s := hmin s (hsub.subset List.mem_cons_self) hn
    by_cases hc : c ∈ S
    · obtain ⟨X, Y, rfl⟩ := List.append_of_mem hc
      refine ⟨X ++ s :: Y, forall₂_exchange hS hcs, ?_⟩
      have hperm : (s :: (X ++ c :: Y)).Perm (c :: (X ++ s :: Y)) := by
        refine List.perm_iff_count.mpr (fun a ↦ ?_)
        simp only [List.count_cons, List.count_append]
        omega
      have herase := (hperm.symm.subperm.trans hsub).erase c
      rwa [List.erase_cons_head] at herase
    · refine ⟨S, hS, ?_⟩
      have hcons : S.Subperm (s :: S) := .cons_right s (.refl S)
      have herase := (hcons.trans hsub).erase c
      rwa [List.erase_of_not_mem hc] at herase

end ShellOS.Library.Matching
