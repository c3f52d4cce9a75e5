import ShellOS.Library.Runs
import ShellOS.Userland.Philo

namespace ShellOS.Userland.PhiloTable

open Library.Runs Philo Function

/-- What the philosophers and the main process do to the table. The main
process adds behind the last seat and deletes the last one. -/
inductive Op
  | take (index : ℤ)
  | put (index : ℤ)
  | add (opened : Option ℕ)
  | delete (closed : Bool)

def perform (T : Table) : Op → Option Table
  | .take index => if 0 ≤ index ∧ index < T.amountPh then takeChopsticks T index else none
  | .put index => if 0 ≤ index ∧ index < T.amountPh then putChopsticks T index else none
  | .add opened => (addPh T T.amountPh opened).map Prod.fst
  | .delete closed => (deletePh T (T.amountPh - 1) closed).map Prod.fst

def Quiet (T : Table) : Prop := 2 ≤ T.amountPh → Peaceful T.amountPh T.state

/-- The two that become neighbours when the last seat goes do not both eat. -/
def Parted (T : Table) : Op → Prop
  | .delete true => 3 ≤ T.amountPh →
      ¬ (T.state (T.amountPh - 2) = .eating ∧ T.state 0 = .eating)
  | _ => True

variable {T T' : Table} {op : Op} {index : ℤ} {v : State}

section Quiet

theorem Quiet.setState (h : Quiet T) (hv : v ≠ .eating) (index : ℤ) :
    Quiet (T.setState index v) :=
  fun hn ↦ (h hn).not_eating hv index

theorem Quiet.check (h : Quiet T) (hi : Seat T.amountPh index) :
    Quiet (checkAvailability T index) := by
  intro hn
  rw [checkAvailability_amountPh] at hn ⊢
  exact checkAvailability_peaceful (h hn) hn hi

theorem takeChopsticks_quiet (h : Quiet T) (hi : Seat T.amountPh index)
    (htake : takeChopsticks T index = some T') : T'.amountPh = T.amountPh ∧ Quiet T' := by
  obtain rfl := lock_map htake
  have hlocked : Quiet { T with mutex := T.mutex - 1 } := h
  have hhungry := hlocked.setState (by decide : State.hungry ≠ .eating) index
  exact ⟨checkAvailability_amountPh, hhungry.check hi⟩

theorem putChopsticks_quiet (h : Quiet T) (hi : Seat T.amountPh index)
    (hput : putChopsticks T index = some T') : T'.amountPh = T.amountPh ∧ Quiet T' := by
  obtain rfl := lock_map hput
  have hlocked : Quiet { T with mutex := T.mutex - 1 } := h
  have hthinks := hlocked.setState (by decide : State.thinking ≠ .eating) index
  let T₁ : Table := Table.setState { T with mutex := T.mutex - 1 } index .thinking
  let T₂ := checkAvailability T₁ (left T₁.amountPh index)
  have hleft : Quiet T₂ := hthinks.check hi.left
  have hsame : T₂.amountPh = T.amountPh := checkAvailability_amountPh
  have hright : Seat T₂.amountPh (right T₂.amountPh index) := by
    rw [hsame]
    exact hi.right
  exact ⟨checkAvailability_amountPh.trans hsame, hleft.check hright⟩

theorem addPh_quiet (h : Quiet T) (hpos : 0 ≤ T.amountPh) {opened : Option ℕ} {r : ℤ}
    (hadd : addPh T T.amountPh opened = some (T', r)) : 0 ≤ T'.amountPh ∧ Quiet T' := by
  have hthinks : Quiet (T.setState T.amountPh .thinking) :=
    h.setState (by decide) T.amountPh
  unfold addPh at hadd
  split at hadd
  · cases hadd
    exact ⟨hpos, h⟩
  obtain hadd := lock_map hadd
  split at hadd
  · cases hadd
    exact ⟨hpos, hthinks⟩
  · cases hadd
    refine ⟨?_, fun _ ↦ ?_⟩
    · change 0 ≤ T.amountPh + 1
      omega
    · have hnew : update T.state T.amountPh .thinking T.amountPh ≠ .eating := by
        rw [update_self]
        decide
      exact Peaceful.grow hthinks hnew

def EndsApart (T : Table) : Prop :=
  2 ≤ T.amountPh → ¬ (T.state (T.amountPh - 1) = .eating ∧ T.state 0 = .eating)

theorem Quiet.endsApart (h : Quiet T) : EndsApart T := fun hn ↦ (h hn).ends hn

theorem checks_quiet_iff (hsmall : EndsApart T → Quiet T) :
    Quiet (checkAvailability (checkAvailability T (T.amountPh - 1)) 0) ↔ EndsApart T := by
  let T₁ := checkAvailability T (T.amountPh - 1)
  have hsame : (checkAvailability T₁ 0).amountPh = T.amountPh := by
    rw [checkAvailability_amountPh, checkAvailability_amountPh]
  constructor
  · intro hquiet hn ⟨hlast, hfirst⟩
    have hends := hquiet.endsApart
    unfold EndsApart at hends
    rw [hsame] at hends
    exact hends hn ⟨checkAvailability_eating (checkAvailability_eating hlast),
      checkAvailability_eating (checkAvailability_eating hfirst)⟩
  · intro hends hn
    have hn : 2 ≤ T.amountPh := by rwa [hsame] at hn
    have h₁ : Quiet T₁ := (hsmall hends).check ⟨by omega, by omega⟩
    have hseat : Seat T₁.amountPh 0 := by
      rw [checkAvailability_amountPh]
      exact ⟨Int.le_refl 0, by omega⟩
    exact h₁.check hseat (by rwa [hsame])

theorem shrunk_quiet (h : Quiet T) (hstate : T'.state = T.state)
    (hamount : T'.amountPh + 1 = T.amountPh) (hends : EndsApart T') : Quiet T' := by
  intro hn
  have hpeace : Peaceful (T'.amountPh + 1) T'.state := by
    rw [hamount, hstate]
    exact h (by omega)
  exact hpeace.shrink (hends hn)

theorem deletePh_quiet_iff (h : Quiet T) (hpos : 0 ≤ T.amountPh) {closed : Bool} {r : ℤ}
    (hdelete : deletePh T (T.amountPh - 1) closed = some (T', r)) :
    0 ≤ T'.amountPh ∧ (Quiet T' ↔ Parted T (.delete closed)) := by
  unfold deletePh at hdelete
  split at hdelete
  · cases hdelete
    refine ⟨hpos, iff_of_true h ?_⟩
    cases closed with
    | false => trivial
    | true =>
      intro hn
      omega
  rename_i hsome
  obtain hdelete := lock_map hdelete
  cases closed with
  | false =>
    cases hdelete
    exact ⟨hpos, iff_of_true h trivial⟩
  | true =>
    cases hdelete
    let T₁ : Table := { T with
      mutex := T.mutex - 1
      philoSem := update T.philoSem (T.amountPh - 1) none
      amountPh := T.amountPh - 1 }
    have hsmall : EndsApart T₁ → Quiet T₁ := shrunk_quiet h rfl (Int.sub_add_cancel _ _)
    have hparted : Parted T (.delete true) ↔ EndsApart T₁ := by
      have hsize : 3 ≤ T.amountPh ↔ 2 ≤ T.amountPh - 1 := by omega
      have hlast : T.amountPh - 2 = T.amountPh - 1 - 1 := by omega
      unfold Parted
      rw [hsize, hlast]
      rfl
    have hnext : 0 ≤ T₁.amountPh := by
      change 0 ≤ T.amountPh - 1
      omega
    rw [hparted]
    split
    · let T₂ := checkAvailability (checkAvailability T₁ (T₁.amountPh - 1)) 0
      have hsame : T₂.amountPh = T₁.amountPh := by
        rw [checkAvailability_amountPh, checkAvailability_amountPh]
      exact ⟨Int.le_trans hnext (Int.le_of_eq hsame.symm), checks_quiet_iff hsmall⟩
    · exact ⟨hnext, Quiet.endsApart, hsmall⟩

end Quiet

theorem perform_quiet_iff (h : Quiet T) (hpos : 0 ≤ T.amountPh) (hop : perform T op = some T') :
    0 ≤ T'.amountPh ∧ (Quiet T' ↔ Parted T op) := by
  cases op with
  | take index =>
    obtain ⟨hi, htake⟩ := Option.ite_none_right_eq_some.mp hop
    obtain ⟨hsame, hquiet⟩ := takeChopsticks_quiet h hi htake
    exact ⟨Int.le_trans hpos (Int.le_of_eq hsame.symm), iff_of_true hquiet trivial⟩
  | put index =>
    obtain ⟨hi, hput⟩ := Option.ite_none_right_eq_some.mp hop
    obtain ⟨hsame, hquiet⟩ := putChopsticks_quiet h hi hput
    exact ⟨Int.le_trans hpos (Int.le_of_eq hsame.symm), iff_of_true hquiet trivial⟩
  | add opened =>
    obtain ⟨⟨T₁, r⟩, hadd, rfl⟩ := Option.map_eq_some_iff.mp hop
    obtain ⟨hpos', hquiet⟩ := addPh_quiet h hpos hadd
    exact ⟨hpos', iff_of_true hquiet trivial⟩
  | delete closed =>
    obtain ⟨⟨T₁, r⟩, hdelete, rfl⟩ := Option.map_eq_some_iff.mp hop
    exact deletePh_quiet_iff h hpos hdelete

/-- Of the philosophers at the table no two neighbours eat, as long as no last
seat is deleted between two that eat. -/
theorem table_quiet_iff {tr : List (Table × Op)}
    (hrun : Run (fun T op T' ↦ perform T op = some T') boot tr T) :
    Always Quiet tr T ↔ ∀ e ∈ tr, Parted e.1 e.2 := by
  have hstep : ∀ (a : Table) (op : Op) (b : Table), 0 ≤ a.amountPh → Quiet a →
      perform a op = some b → (Quiet b ↔ Parted a op) :=
    fun _ _ _ hpos hquiet hop ↦ (perform_quiet_iff hquiet hpos hop).2
  have hkeeps : ∀ (a : Table) (op : Op) (b : Table), 0 ≤ a.amountPh → Quiet a →
      perform a op = some b → Quiet b → 0 ≤ b.amountPh :=
    fun _ _ _ hpos hquiet hop _ ↦ (perform_quiet_iff hquiet hpos hop).1
  have hboot : Quiet boot := fun hn ↦ absurd hn (by decide)
  exact hrun.always_iff hkeeps hstep (Int.le_refl 0) hboot

theorem table_quiet_three : ∃ tr T, Run (fun T op T' ↦ perform T op = some T') boot tr T ∧
    T.amountPh = 2 ∧ T.state 0 = .eating ∧ Always Quiet tr T := by
  obtain ⟨tr, T, hrun, hamount, heats, hparted⟩ : ∃ tr T,
      Run (fun T op T' ↦ perform T op = some T') boot tr T ∧ T.amountPh = 2 ∧
        T.state 0 = .eating ∧ ∀ e ∈ tr, Parted e.1 e.2 := by
    refine ⟨_, _, .cons (i := .add (some 1)) rfl (.cons (i := .add (some 1)) rfl
      (.cons (i := .add (some 1)) rfl (.cons (i := .take 0) rfl (.one (i := .delete true) rfl)))),
      rfl, rfl, ?_⟩
    simp only [List.forall_mem_cons]
    exact ⟨trivial, trivial, trivial, trivial, fun _ ↦ by decide, nofun⟩
  exact ⟨tr, T, hrun, hamount, heats, (table_quiet_iff hrun).mpr hparted⟩

/-- Seats 0 and 2 of four eat while the last seat is deleted. -/
theorem first_and_last_eat : ∃ tr T, Run (fun T op T' ↦ perform T op = some T') boot tr T ∧
    ¬ Quiet T := by
  let acts : List Op := [.add (some 1), .add (some 1), .add (some 1), .add (some 1),
    .take 0, .take 2, .delete true]
  have hfold : acts.foldlM perform boot = some _ := rfl
  obtain ⟨tr, hrun, -⟩ := run_of_foldlM hfold
  refine ⟨tr, _, hrun, fun hquiet ↦ ?_⟩
  have hpeace := hquiet (by decide) 0 ⟨by decide, by decide⟩ (by decide)
  exact hpeace.1 (by decide)

end ShellOS.Userland.PhiloTable
