import ShellOS.Library.Links

namespace ShellOS.Library.Fuel

open Links

variable {α β : Type}

/-- A result of `o` is the result of `o'`: what a computation that was given
more fuel keeps. -/
def Extends (o o' : Option α) : Prop := ∀ r, o = some r → o' = some r

variable {o o' : Option α} {r : α}

theorem Extends.refl (o : Option α) : Extends o o := fun _ h ↦ h

theorem extends_none (o : Option α) : Extends none o := fun _ h ↦ nomatch h

theorem Extends.eq (h : Extends o o') (hr : o = some r) : o' = some r := h r hr

theorem Extends.bind {f f' : α → Option β} (h : Extends o o') (hf : ∀ a, Extends (f a) (f' a)) :
    Extends (o.bind f) (o'.bind f') := by
  intro r hr
  obtain ⟨a, ha, hfa⟩ := Option.bind_eq_some_iff.mp hr
  exact Option.bind_eq_some_iff.mpr ⟨a, h a ha, hf a r hfa⟩

theorem Extends.map (f : α → β) (h : Extends o o') : Extends (o.map f) (o'.map f) := by
  intro r hr
  obtain ⟨a, ha, hfa⟩ := Option.map_eq_some_iff.mp hr
  exact Option.map_eq_some_iff.mpr ⟨a, h a ha, hfa⟩

theorem Extends.ite {c : Prop} [Decidable c] {p p' : Option α} (h : Extends o o')
    (hp : Extends p p') : Extends (if c then o else p) (if c then o' else p') := by
  split
  · exact h
  · exact hp

theorem extends_seek {stop : α → Bool} {next : α → α} {n m : ℕ} (a : α) (h : n ≤ m) :
    Extends (seek stop next n a) (seek stop next m a) :=
  fun _ hr ↦ seek_mono hr h

theorem eq_of_enough {f : ℕ → Option α} (hmono : ∀ n m, n ≤ m → Extends (f n) (f m)) {n l : ℕ}
    {r' : α} (h : f n = some r) (henough : ∀ m, l < m → f m = some r') : r = r' := by
  have hn := hmono n (max n (l + 1)) (Nat.le_max_left _ _) r h
  rw [henough _ (by omega)] at hn
  exact (Option.some.inj hn).symm

section Rel

variable {R : α → β → Prop} {o : Option α} {o' : Option β} {a : α} {b : β}

theorem rel_refl (o : Option α) {P : α → Prop} (h : ∀ c, o = some c → P c) :
    Option.Rel (fun c d ↦ c = d ∧ P c) o o := by
  cases o with
  | none => exact .none
  | some c => exact .some ⟨rfl, h c rfl⟩

theorem rel_map {γ δ : Type} {Q : γ → δ → Prop} {f : α → γ} {g : β → δ} (h : Option.Rel R o o')
    (hQ : ∀ a b, R a b → Q (f a) (g b)) : Option.Rel Q (o.map f) (o'.map g) := by
  cases h with
  | some hab => exact .some (hQ _ _ hab)
  | none => exact .none

theorem rel_bind {γ δ : Type} {Q : γ → δ → Prop} {f : α → Option γ} {g : β → Option δ}
    (h : Option.Rel R o o') (hQ : ∀ a b, R a b → Option.Rel Q (f a) (g b)) :
    Option.Rel Q (o.bind f) (o'.bind g) := by
  cases h with
  | some hab => exact hQ _ _ hab
  | none => exact .none

theorem rel_left (h : Option.Rel R o o') (ho : o = some a) : ∃ b, o' = some b ∧ R a b := by
  cases h with
  | some hab =>
    cases ho
    exact ⟨_, rfl, hab⟩
  | none => cases ho

theorem rel_right (h : Option.Rel R o o') (ho : o' = some b) : ∃ a, o = some a ∧ R a b := by
  cases h with
  | some hab =>
    cases ho
    exact ⟨_, rfl, hab⟩
  | none => cases ho

theorem rel_mono {R' : α → β → Prop} (h : Option.Rel R o o') (hR : ∀ a b, R a b → R' a b) :
    Option.Rel R' o o' := by
  cases h with
  | some hab => exact .some (hR _ _ hab)
  | none => exact .none

end Rel

theorem Path.not_mem_of_seek {next : ℕ → ℕ} {s a n : ℕ} {l : List ℕ} (h : Path next s l 0)
    (h0 : 0 ∉ l) (ha : a ≠ 0) (hs : seek (fun y ↦ y = 0 || y = a) next n s = some 0) : a ∉ l := by
  obtain ⟨b, hseek, hb⟩ := h.seek_spec (fun y ↦ y = 0 || y = a) (by simp)
  have hb0 := eq_of_enough (fun n m h ↦ extends_seek _ h) hs hseek
  subst hb0
  rcases hb with ⟨-, hall⟩ | ⟨hmem, -⟩
  · intro hmem
    simpa [ha] using hall a hmem
  · exact absurd hmem h0

end ShellOS.Library.Fuel
