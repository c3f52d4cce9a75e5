import Mathlib.Logic.Function.Basic
import Mathlib.Data.Int.Init

namespace ShellOS.Userland.Philo

open Function

inductive State
  | thinking
  | eating
  | hungry
deriving DecidableEq

def maxPh : ℤ := 10

/-- `state` is the field of `philos`, `philoSem` the value of each semaphore
that is open, `mutex` the value of that one. -/
structure Table where
  state : ℤ → State
  philoSem : ℤ → Option ℕ
  mutex : ℕ
  amountPh : ℤ

def Table.setState (T : Table) (index : ℤ) (v : State) : Table :=
  { T with state := update T.state index v }

def semWait (T : Table) (index : ℤ) : Option Table :=
  match T.philoSem index with
  | some (value + 1) => some { T with philoSem := update T.philoSem index (some value) }
  | _ => none

def semPost (T : Table) (index : ℤ) : Table :=
  { T with philoSem := update T.philoSem index ((T.philoSem index).map (· + 1)) }

/-- `sys_semWait(mutex)`, when it does not block. -/
def lock (T : Table) : Option Table :=
  if T.mutex = 0 then none else some { T with mutex := T.mutex - 1 }

def unlock (T : Table) : Table := { T with mutex := T.mutex + 1 }

def left (amountPh index : ℤ) : ℤ := if index = 0 then amountPh - 1 else index - 1

def right (amountPh index : ℤ) : ℤ := if index = amountPh - 1 then 0 else index + 1

def checkAvailability (T : Table) (index : ℤ) : Table :=
  if T.state index = .hungry ∧ T.state (left T.amountPh index) ≠ .eating ∧
      T.state (right T.amountPh index) ≠ .eating then
    semPost (T.setState index .eating) index
  else T

/-- `takeChopsticks`, up to its wait for `philoSem[index]`. -/
def takeChopsticks (T : Table) (index : ℤ) : Option Table :=
  (lock T).map fun T ↦ unlock (checkAvailability (T.setState index .hungry) index)

def putChopsticks (T : Table) (index : ℤ) : Option Table :=
  (lock T).map fun T ↦
    let T := T.setState index .thinking
    let T := checkAvailability T (left T.amountPh index)
    unlock (checkAvailability T (right T.amountPh index))

/-- `opened` is the value of the semaphore that `sys_semOpen` returns, if it
returns one. -/
def addPh (T : Table) (index : ℤ) (opened : Option ℕ) : Option (Table × ℤ) :=
  if index ≥ maxPh then some (T, -1)
  else
    (lock T).map fun T ↦
      let T := { T.setState index .thinking with philoSem := update T.philoSem index opened }
      if opened = none then (T, -1) else (unlock { T with amountPh := T.amountPh + 1 }, 0)

/-- `closed` tells whether `sys_semClose` closes the semaphore. -/
def deletePh (T : Table) (index : ℤ) (closed : Bool) : Option (Table × ℤ) :=
  if index < 0 ∨ T.amountPh = 0 then some (T, -1)
  else
    (lock T).map fun T ↦
      let eating := T.state index = .eating
      if closed then
        let T := { T with
          philoSem := update T.philoSem index none
          amountPh := T.amountPh - 1 }
        (unlock (if eating then checkAvailability (checkAvailability T (index - 1)) 0 else T), 0)
      else (T, -1)

def boot : Table := ⟨fun _ ↦ .thinking, fun _ ↦ none, 1, 0⟩

variable {T T' : Table} {n i j : ℤ}

theorem lock_cases (h : lock T = some T') : T.mutex ≠ 0 ∧ T' = { T with mutex := T.mutex - 1 } := by
  unfold lock at h
  split at h
  · cases h
  · rename_i hne
    cases h
    exact ⟨hne, rfl⟩

theorem lock_map {β : Type} {f : Table → β} {b : β} (h : (lock T).map f = some b) :
    f { T with mutex := T.mutex - 1 } = b := by
  obtain ⟨T₁, hlock, rfl⟩ := Option.map_eq_some_iff.mp h
  obtain ⟨-, rfl⟩ := lock_cases hlock
  rfl

section Ring

def Seat (n i : ℤ) : Prop := 0 ≤ i ∧ i < n

theorem Seat.left (h : Seat n i) : Seat n (left n i) := by
  obtain ⟨h0, hn⟩ := h
  unfold Philo.left Seat
  split <;> omega

theorem Seat.right (h : Seat n i) : Seat n (right n i) := by
  obtain ⟨h0, hn⟩ := h
  unfold Philo.right Seat
  split <;> omega

theorem right_left (h : Seat n i) : right n (left n i) = i := by
  obtain ⟨h0, hn⟩ := h
  unfold right left
  split <;> split <;> omega

theorem left_right (h : Seat n i) : left n (right n i) = i := by
  obtain ⟨h0, hn⟩ := h
  unfold right left
  split <;> split <;> omega

theorem left_ne (hn : 2 ≤ n) (i : ℤ) : left n i ≠ i := by
  unfold left
  split <;> omega

theorem right_ne (h : Seat n i) (hn : 2 ≤ n) : right n i ≠ i := by
  obtain ⟨h0, hlt⟩ := h
  unfold right
  split <;> omega

end Ring

section Peaceful

variable {state : ℤ → State} {v : State}

def Peaceful (n : ℤ) (state : ℤ → State) : Prop :=
  ∀ i, Seat n i → state i = .eating → state (left n i) ≠ .eating ∧ state (right n i) ≠ .eating

theorem Peaceful.not_eating (h : Peaceful n state) (hv : v ≠ .eating) (i : ℤ) :
    Peaceful n (update state i v) := by
  have hbefore : ∀ j, update state i v j = .eating → state j = .eating := by
    intro j hj
    by_cases hji : j = i
    · rw [hji, update_self] at hj
      exact absurd hj hv
    · rwa [update_of_ne hji] at hj
  intro j hj heats
  obtain ⟨hleft, hright⟩ := h j hj (hbefore j heats)
  exact ⟨mt (hbefore _) hleft, mt (hbefore _) hright⟩

theorem Peaceful.eating (h : Peaceful n state) (hn : 2 ≤ n) (hi : Seat n i)
    (hleft : state (left n i) ≠ .eating) (hright : state (right n i) ≠ .eating) :
    Peaceful n (update state i .eating) := by
  intro j hj heats
  by_cases hji : j = i
  · rw [hji, update_of_ne (left_ne hn i), update_of_ne (right_ne hi hn)]
    exact ⟨hleft, hright⟩
  rw [update_of_ne hji] at heats
  have hleftj : left n j ≠ i := by
    intro heq
    apply hright
    rwa [← heq, right_left hj]
  have hrightj : right n j ≠ i := by
    intro heq
    apply hleft
    rwa [← heq, left_right hj]
  rw [update_of_ne hleftj, update_of_ne hrightj]
  exact h j hj heats

theorem Peaceful.grow (h : 2 ≤ n → Peaceful n state) (hnew : state n ≠ .eating) :
    Peaceful (n + 1) state := by
  intro i ⟨h0, hn⟩ heats
  have hne : i ≠ n := by
    intro heq
    rw [heq] at heats
    exact hnew heats
  have hi : Seat n i := ⟨h0, by omega⟩
  constructor
  · by_cases hfirst : i = 0
    · have hleft : left (n + 1) i = n := by
        unfold left
        rw [if_pos hfirst]
        omega
      rwa [hleft]
    · have hleft : left (n + 1) i = left n i := by
        unfold left
        rw [if_neg hfirst, if_neg hfirst]
      rw [hleft]
      exact (h (by omega) i hi heats).1
  · by_cases hlast : i = n - 1
    · have hright : right (n + 1) i = n := by
        unfold right
        split <;> omega
      rwa [hright]
    · have hright : right (n + 1) i = right n i := by
        unfold right
        rw [if_neg hlast, if_neg (by omega)]
      rw [hright]
      exact (h (by omega) i hi heats).2

theorem Peaceful.ends (h : Peaceful n state) (hn : 2 ≤ n) :
    ¬ (state (n - 1) = .eating ∧ state 0 = .eating) := by
  intro ⟨hlast, hfirst⟩
  exact (h 0 ⟨Int.le_refl 0, by omega⟩ hfirst).1 hlast

theorem Peaceful.shrink (h : Peaceful (n + 1) state)
    (hends : ¬ (state (n - 1) = .eating ∧ state 0 = .eating)) : Peaceful n state := by
  intro i hi heats
  obtain ⟨hleft, hright⟩ := h i ⟨hi.1, by have := hi.2; omega⟩ heats
  constructor
  · by_cases hfirst : i = 0
    · have hleft' : left n i = n - 1 := if_pos hfirst
      rw [hleft']
      intro hlast
      rw [hfirst] at heats
      exact hends ⟨hlast, heats⟩
    · have hleft' : left n i = left (n + 1) i := by
        unfold left
        rw [if_neg hfirst, if_neg hfirst]
      rwa [hleft']
  · by_cases hlast : i = n - 1
    · have hright' : right n i = 0 := if_pos hlast
      rw [hright']
      intro hfirst
      rw [hlast] at heats
      exact hends ⟨heats, hfirst⟩
    · have hlt := hi.2
      have hright' : right n i = right (n + 1) i := by
        unfold right
        rw [if_neg hlast, if_neg (by omega)]
      rwa [hright']

end Peaceful

section Check

theorem checkAvailability_cases (T : Table) (index : ℤ) :
    checkAvailability T index = T ∨
      T.state index = .hungry ∧ T.state (left T.amountPh index) ≠ .eating ∧
        T.state (right T.amountPh index) ≠ .eating ∧
        checkAvailability T index = semPost (T.setState index .eating) index := by
  unfold checkAvailability
  split
  · rename_i h
    exact Or.inr ⟨h.1, h.2.1, h.2.2, rfl⟩
  · exact Or.inl rfl

@[simp]
theorem checkAvailability_amountPh : (checkAvailability T i).amountPh = T.amountPh := by
  rcases checkAvailability_cases T i with h | ⟨-, -, -, h⟩
  · rw [h]
  · rw [h]
    rfl

@[simp]
theorem checkAvailability_mutex : (checkAvailability T i).mutex = T.mutex := by
  rcases checkAvailability_cases T i with h | ⟨-, -, -, h⟩
  · rw [h]
  · rw [h]
    rfl

theorem checkAvailability_peaceful (h : Peaceful T.amountPh T.state) (hn : 2 ≤ T.amountPh)
    (hi : Seat T.amountPh i) : Peaceful T.amountPh (checkAvailability T i).state := by
  rcases checkAvailability_cases T i with hcheck | ⟨-, hleft, hright, hcheck⟩
  · rw [hcheck]
    exact h
  · rw [hcheck]
    exact h.eating hn hi hleft hright

theorem checkAvailability_eating (h : T.state j = .eating) :
    (checkAvailability T i).state j = .eating := by
  rcases checkAvailability_cases T i with hcheck | ⟨hhungry, -, -, hcheck⟩
  · rwa [hcheck]
  · rw [hcheck]
    change update T.state i .eating j = .eating
    by_cases hji : j = i
    · rw [hji, update_self]
    · rwa [update_of_ne hji]

end Check

end ShellOS.Userland.Philo
