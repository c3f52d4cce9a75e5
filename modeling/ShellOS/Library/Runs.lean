import Mathlib.Data.List.Basic

namespace ShellOS.Library.Runs

variable {σ ι : Type}

/-- A run of a labelled transition system. Its trace records, for every
step, the state that was left and the label. -/
inductive Run (step : σ → ι → σ → Prop) : σ → List (σ × ι) → σ → Prop
  | nil (a : σ) : Run step a [] a
  | cons {a b c : σ} {i : ι} {tr : List (σ × ι)} :
      step a i b → Run step b tr c → Run step a ((a, i) :: tr) c

variable {step : σ → ι → σ → Prop} {a b c : σ} {tr : List (σ × ι)}

theorem Run.one {i : ι} (h : step a i b) : Run step a [(a, i)] b := .cons h (.nil b)

theorem Run.trans {tr' : List (σ × ι)} (h : Run step a tr b) (h' : Run step b tr' c) :
    Run step a (tr ++ tr') c := by
  induction h with
  | nil => exact h'
  | cons hs _ ih => exact .cons hs (ih h')

theorem Run.mono {step' : σ → ι → σ → Prop} (hstep : ∀ a i b, step a i b → step' a i b)
    (h : Run step a tr b) : Run step' a tr b := by
  induction h with
  | nil => exact .nil _
  | cons hs _ ih => exact .cons (hstep _ _ _ hs) ih

def Reaches (step : σ → ι → σ → Prop) (a b : σ) : Prop := ∃ tr, Run step a tr b

theorem Reaches.refl (a : σ) : Reaches step a a := ⟨[], .nil a⟩

theorem Reaches.one {i : ι} (h : step a i b) : Reaches step a b := ⟨_, .one h⟩

theorem Reaches.trans (h : Reaches step a b) (h' : Reaches step b c) : Reaches step a c := by
  obtain ⟨tr, hrun⟩ := h
  obtain ⟨tr', hrun'⟩ := h'
  exact ⟨tr ++ tr', hrun.trans hrun'⟩

/-- When every step of one system is matched by a step of another, so is every
run. The label of the match depends on the step. -/
theorem Run.simulate_along {σ' ι' : Type} {step' : σ' → ι' → σ' → Prop} {R : σ → σ' → Prop}
    (f : σ → ι → ι')
    (hstep : ∀ a i b a', R a a' → step a i b → ∃ b', step' a' (f a i) b' ∧ R b b')
    (h : Run step a tr b) {a' : σ'} (ha : R a a') :
    ∃ tr' b', Run step' a' tr' b' ∧ tr'.map Prod.snd = tr.map (fun e ↦ f e.1 e.2) ∧ R b b' := by
  induction h generalizing a' with
  | nil => exact ⟨[], a', .nil a', rfl, ha⟩
  | @cons a _ _ i _ hs _ ih =>
    obtain ⟨b', hs', hb⟩ := hstep _ _ _ _ ha hs
    obtain ⟨tr', c', hrun, hmap, hc⟩ := ih hb
    exact ⟨(a', f a i) :: tr', c', .cons hs' hrun, by rw [List.map_cons, List.map_cons, hmap], hc⟩

theorem Run.simulate {σ' : Type} {step' : σ' → ι → σ' → Prop} {R : σ → σ' → Prop}
    (hstep : ∀ a i b a', R a a' → step a i b → ∃ b', step' a' i b' ∧ R b b')
    (h : Run step a tr b) {a' : σ'} (ha : R a a') :
    ∃ tr' b', Run step' a' tr' b' ∧ tr'.map Prod.snd = tr.map Prod.snd ∧ R b b' :=
  h.simulate_along (fun _ i ↦ i) hstep ha

/-- A list of labels that a step function can follow is a run. -/
theorem run_of_foldlM {f : σ → ι → Option σ} {acts : List ι} {s t : σ}
    (h : acts.foldlM f s = some t) :
    ∃ tr, Run (fun s i t ↦ f s i = some t) s tr t ∧ tr.map Prod.snd = acts := by
  induction acts generalizing s with
  | nil =>
    cases h
    exact ⟨[], .nil _, rfl⟩
  | cons i acts ih =>
    rw [List.foldlM_cons] at h
    obtain ⟨u, hu, h⟩ := Option.bind_eq_some_iff.mp h
    obtain ⟨tr, hrun, hmap⟩ := ih h
    exact ⟨(s, i) :: tr, .cons hu hrun, by rw [List.map_cons, hmap]⟩

/-- The same with a condition that every label meets where it is taken. -/
theorem run_of_checked {f : σ → ι → Option σ} {ok : σ → ι → Prop} [∀ s i, Decidable (ok s i)]
    {acts : List ι} {s t : σ}
    (h : acts.foldlM (fun s i ↦ if ok s i then f s i else none) s = some t) :
    ∃ tr, Run (fun s i t ↦ f s i = some t) s tr t ∧ tr.map Prod.snd = acts ∧
      ∀ e ∈ tr, ok e.1 e.2 := by
  induction acts generalizing s with
  | nil =>
    cases h
    exact ⟨[], .nil _, rfl, fun e he ↦ absurd he List.not_mem_nil⟩
  | cons i acts ih =>
    rw [List.foldlM_cons] at h
    obtain ⟨u, hu, h⟩ := Option.bind_eq_some_iff.mp h
    obtain ⟨hok, hu⟩ := Option.ite_none_right_eq_some.mp hu
    obtain ⟨tr, hrun, hmap, hall⟩ := ih h
    exact ⟨(s, i) :: tr, .cons hu hrun, by rw [List.map_cons, hmap],
      List.forall_mem_cons.mpr ⟨hok, hall⟩⟩

theorem Run.invariant_of {I : σ → Prop} {ok : σ → ι → Prop}
    (hI : ∀ a i b, I a → ok a i → step a i b → I b)
    (h : Run step a tr b) (hok : ∀ e ∈ tr, ok e.1 e.2) (ha : I a) : I b := by
  induction h with
  | nil => exact ha
  | cons hs _ ih =>
    have hfirst := hok _ List.mem_cons_self
    exact ih (fun e he ↦ hok e (List.mem_cons_of_mem _ he)) (hI _ _ _ ha hfirst hs)

theorem Run.invariant {I : σ → Prop} (hI : ∀ a i b, I a → step a i b → I b)
    (h : Run step a tr b) (ha : I a) : I b := by
  have hstep : ∀ a i b, I a → True → step a i b → I b := fun a i b ha _ hs ↦ hI a i b ha hs
  exact h.invariant_of hstep (fun _ _ ↦ trivial) ha

theorem Run.history {I : List (σ × ι) → σ → Prop} {ok : σ → ι → Prop}
    (hI : ∀ pre a i b, I pre a → ok a i → step a i b → I (pre ++ [(a, i)]) b)
    (h : Run step a tr b) (hok : ∀ e ∈ tr, ok e.1 e.2) {pre : List (σ × ι)} (ha : I pre a) :
    I (pre ++ tr) b := by
  induction h generalizing pre with
  | nil => simpa using ha
  | cons hs _ ih =>
    have hfirst := hok _ List.mem_cons_self
    have hrest := ih (fun e he ↦ hok e (List.mem_cons_of_mem _ he)) (hI _ _ _ _ ha hfirst hs)
    simpa only [List.append_assoc, List.singleton_append] using hrest

theorem Run.restrict {ok : σ → ι → Prop} (h : Run step a tr b) (hok : ∀ e ∈ tr, ok e.1 e.2) :
    Run (fun a i b ↦ ok a i ∧ step a i b) a tr b := by
  induction h with
  | nil => exact .nil _
  | cons hs _ ih =>
    exact .cons ⟨hok _ List.mem_cons_self, hs⟩ (ih (fun e he ↦ hok e (List.mem_cons_of_mem _ he)))

/-- The steps of a system, with notes that are taken of each. -/
def Noted {γ : Type} (step : σ → ι → σ → Prop) (note : γ → σ → ι → σ → γ) (s : σ × γ) (i : ι)
    (t : σ × γ) : Prop :=
  step s.1 i t.1 ∧ t.2 = note s.2 s.1 i t.1

theorem noted_of_perform {γ : Type} (note : γ → σ → ι → σ → γ) (f : σ → ι → Option σ)
    (hf : ∀ a i b, f a i = some b → step a i b) {acts : List ι} {s t : σ × γ}
    (h : acts.foldlM (fun s i ↦ (f s.1 i).map fun b ↦ (b, note s.2 s.1 i b)) s = some t) :
    ∃ tr, Run (Noted step note) s tr t ∧ tr.map Prod.snd = acts := by
  obtain ⟨tr, hrun, hacts⟩ := run_of_foldlM h
  refine ⟨tr, hrun.mono (fun s i t hs ↦ ?_), hacts⟩
  obtain ⟨b, hb, rfl⟩ := Option.map_eq_some_iff.mp hs
  exact ⟨hf _ _ _ hb, rfl⟩

theorem Run.visited (h : Run step a tr b) {e : σ × ι} (he : e ∈ tr) :
    ∃ pre post c, tr = pre ++ e :: post ∧ Run step a pre e.1 ∧ step e.1 e.2 c ∧
      Run step c post b := by
  induction h with
  | nil => cases he
  | @cons a b c i tr hs hrest ih =>
    rcases List.mem_cons.mp he with rfl | he
    · exact ⟨[], tr, b, rfl, .nil _, hs, hrest⟩
    · obtain ⟨pre, post, d, htr, hpre, hd, hpost⟩ := ih he
      exact ⟨(a, i) :: pre, post, d, by rw [htr]; rfl, .cons hs hpre, hd, hpost⟩

def Always (P : σ → Prop) (tr : List (σ × ι)) (b : σ) : Prop :=
  (∀ e ∈ tr, P e.1) ∧ P b

theorem Run.always_of {I P : σ → Prop} {ok : σ → ι → Prop}
    (hI : ∀ a i b, I a → ok a i → step a i b → I b) (hP : ∀ a, I a → P a)
    (h : Run step a tr b) (hok : ∀ e ∈ tr, ok e.1 e.2) (ha : I a) : Always P tr b := by
  induction h with
  | nil => exact ⟨by simp, hP _ ha⟩
  | cons hs _ ih =>
    have hb := hI _ _ _ ha (hok _ List.mem_cons_self) hs
    obtain ⟨hall, hend⟩ := ih (fun e he ↦ hok e (List.mem_cons_of_mem _ he)) hb
    refine ⟨fun e he ↦ ?_, hend⟩
    rcases List.mem_cons.mp he with rfl | he
    · exact hP _ ha
    · exact hall e he

theorem Run.always {I P : σ → Prop} (hI : ∀ a i b, I a → step a i b → I b)
    (hP : ∀ a, I a → P a) (h : Run step a tr b) (ha : I a) : Always P tr b := by
  have hstep : ∀ a i b, I a → True → step a i b → I b := fun a i b ha _ hs ↦ hI a i b ha hs
  exact h.always_of hstep hP (fun _ _ ↦ trivial) ha

/-- When, under an invariant of the states that satisfy `P`, a step keeps `P`
exactly if it meets `ok`, a run keeps `P` throughout exactly if all of its
steps meet `ok`. -/
theorem Run.always_iff {I P : σ → Prop} {ok : σ → ι → Prop}
    (hI : ∀ a i b, I a → P a → step a i b → P b → I b)
    (hstep : ∀ a i b, I a → P a → step a i b → (P b ↔ ok a i))
    (h : Run step a tr b) (ha : I a) (hP : P a) :
    Always P tr b ↔ ∀ e ∈ tr, ok e.1 e.2 := by
  induction h with
  | nil => simp [Always, hP]
  | @cons a b c i tr hs hrest ih =>
    have hb := hstep a i b ha hP hs
    constructor
    · intro hall e he
      have hPb : P b := by
        cases hrest with
        | nil => exact hall.2
        | cons _ _ => exact hall.1 _ (List.mem_cons_of_mem _ List.mem_cons_self)
      rcases List.mem_cons.mp he with rfl | he
      · exact hb.mp hPb
      · have hrest' := (ih (hI _ _ _ ha hP hs hPb) hPb).mp
          ⟨fun e he ↦ hall.1 e (List.mem_cons_of_mem _ he), hall.2⟩
        exact hrest' e he
    · intro hok
      have hPb : P b := hb.mpr (hok _ List.mem_cons_self)
      have hrest' := (ih (hI _ _ _ ha hP hs hPb) hPb).mpr
        (fun e he ↦ hok e (List.mem_cons_of_mem _ he))
      refine ⟨fun e he ↦ ?_, hrest'.2⟩
      rcases List.mem_cons.mp he with rfl | he
      · exact hP
      · exact hrest'.1 e he

/-- When a step has the property `P` exactly if it meets `ok`, under an
invariant that the steps which meet `ok` keep, the same holds of runs. -/
theorem Run.steps_iff {I : σ → Prop} {P ok : σ → ι → Prop}
    (hI : ∀ a i b, I a → ok a i → step a i b → I b)
    (hstep : ∀ a i b, I a → step a i b → (P a i ↔ ok a i))
    (h : Run step a tr b) (ha : I a) : (∀ e ∈ tr, P e.1 e.2) ↔ ∀ e ∈ tr, ok e.1 e.2 := by
  induction h with
  | nil => simp
  | cons hs _ ih =>
    rw [List.forall_mem_cons, List.forall_mem_cons, hstep _ _ _ ha hs, and_congr_right_iff]
    exact fun hok ↦ ih (hI _ _ _ ha hok hs)

end ShellOS.Library.Runs
