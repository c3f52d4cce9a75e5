import ShellOS.Userland.PhiloExclusion

namespace ShellOS.Userland.PhiloProgress

open Library.Runs Philo PhiloExclusion Function

/-- What a philosopher's place says about its state and the value of its
semaphore. The 1 that the semaphore was opened with may still be there. -/
def Credit : Point → State → ℕ → Prop
  | .checks, state, value | .posts, state, value | .waits, state, value =>
    state = .hungry ∧ value ≤ 1 ∨ state = .eating ∧ 1 ≤ value ∧ value ≤ 2
  | .eats, state, value | .puts, state, value | .rests, state, value =>
    state = .eating ∧ value ≤ 1 ∨ state = .hungry ∧ value = 0
  | _, state, value => state = .thinking ∧ value ≤ 1

/-- Somebody is still to check whether seat `i` can eat. -/
def Pending (n : ℤ) (point : ℤ → Point) (i : ℤ) : Prop :=
  point i = .checks ∨ point (right n i) = .checksLeft ∨ point (left n i) = .checksLeft ∨
    point (left n i) = .checksRight

/-- Who is hungry has a neighbour that eats, or will be checked. -/
def Served (n : ℤ) (state : ℤ → State) (point : ℤ → Point) : Prop :=
  ∀ i, Seat n i → state i = .hungry →
    state (left n i) = .eating ∨ state (right n i) = .eating ∨ Pending n point i

def Credited (T : Table) (point : ℤ → Point) (i : ℤ) : Prop :=
  ∃ value, T.philoSem i = some value ∧ Credit (point i) (T.state i) value

structure Sound (s : System) : Prop where
  credited : ∀ i, Seat s.table.amountPh i → Credited s.table s.point i
  served : Served s.table.amountPh s.table.state s.point
  locked : Locked s
  busy : s.table.mutex = 0 → ∃ i, Seat s.table.amountPh i ∧ (s.point i).holds = true

variable {T T' : Table} {p p' : Point} {s s' : System} {i j n : ℤ} {point : ℤ → Point}
  {state state' : ℤ → State}

section Credits

theorem Credit.posted {value : ℕ} (h : Credit p .hungry value) : Credit p .eating (value + 1) := by
  cases p with
  | checks | posts | waits =>
    rcases h with ⟨-, hle⟩ | ⟨hstate, -⟩
    · exact Or.inr ⟨rfl, by omega, by omega⟩
    · cases hstate
  | eats | puts | rests =>
    rcases h with ⟨hstate, -⟩ | ⟨-, h0⟩
    · cases hstate
    · exact Or.inl ⟨rfl, by omega⟩
  | thinks | takes | hungers | checksLeft | checksRight | leaves => cases h.1

theorem checkAvailability_credited (h : Credited T point j) (i : ℤ) :
    Credited (checkAvailability T i) point j := by
  rcases checkAvailability_cases T i with hcheck | ⟨hhungry, -, -, hcheck⟩
  · rwa [hcheck]
  · rw [hcheck]
    obtain ⟨value, hsem, hcredit⟩ := h
    by_cases hji : j = i
    · subst hji
      rw [hhungry] at hcredit
      refine ⟨value + 1, ?_, ?_⟩
      · change update T.philoSem j ((T.philoSem j).map (· + 1)) j = some (value + 1)
        rw [update_self, hsem]
        rfl
      · change Credit (point j) (update T.state j .eating j) (value + 1)
        rw [update_self]
        exact hcredit.posted
    · refine ⟨value, ?_, ?_⟩
      · change update T.philoSem i ((T.philoSem i).map (· + 1)) j = some value
        rwa [update_of_ne hji]
      · change Credit (point j) (update T.state i .eating j) value
        rwa [update_of_ne hji]

theorem Credited.congr {point' : ℤ → Point} (h : Credited T point j) (hp : point' j = point j)
    (hstate : T'.state j = T.state j) (hsem : T'.philoSem j = T.philoSem j) :
    Credited T' point' j := by
  unfold Credited
  rw [hp, hstate, hsem]
  exact h

theorem semWait_some (h : semWait T i = some T') : ∃ value, T.philoSem i = some (value + 1) ∧
    T' = { T with philoSem := update T.philoSem i (some value) } := by
  unfold semWait at h
  split at h
  · rename_i value hvalue
    cases h
    exact ⟨value, hvalue, rfl⟩
  · cases h

theorem next_credited_other (h : next T i p = some (T', p')) (hji : j ≠ i)
    (hj : Credited T point j) : Credited T' (update point i p') j := by
  have hpoint : update point i p' j = point j := update_of_ne hji _ _
  cases p with
  | thinks | eats | posts | leaves =>
    cases h
    exact hj.congr hpoint rfl rfl
  | takes | puts =>
    obtain ⟨T₁, hlock, heq⟩ := Option.map_eq_some_iff.mp h
    cases heq
    obtain ⟨-, rfl⟩ := lock_cases hlock
    exact hj.congr hpoint rfl rfl
  | hungers | rests =>
    cases h
    exact hj.congr hpoint (update_of_ne hji _ _) rfl
  | checks | checksLeft | checksRight =>
    cases h
    exact (checkAvailability_credited hj _).congr hpoint rfl rfl
  | waits =>
    obtain ⟨T₁, hwait, heq⟩ := Option.map_eq_some_iff.mp h
    cases heq
    obtain ⟨value, -, rfl⟩ := semWait_some hwait
    exact hj.congr hpoint rfl (update_of_ne hji _ _)

theorem next_credited_self (h : next T i p = some (T', p')) (hp : point i = p)
    (hi : Credited T point i) : Credited T' (update point i p') i := by
  have hpoint : update point i p' i = p' := update_self _ _ _
  obtain ⟨value, hsem, hcredit⟩ := id hi
  rw [hp] at hcredit
  cases p with
  | thinks | eats | posts | leaves =>
    cases h
    refine ⟨value, hsem, ?_⟩
    rw [hpoint]
    exact hcredit
  | takes | puts =>
    obtain ⟨T₁, hlock, heq⟩ := Option.map_eq_some_iff.mp h
    cases heq
    obtain ⟨-, rfl⟩ := lock_cases hlock
    refine ⟨value, hsem, ?_⟩
    rw [hpoint]
    exact hcredit
  | hungers =>
    cases h
    refine ⟨value, hsem, ?_⟩
    rw [hpoint]
    exact Or.inl ⟨update_self _ _ _, hcredit.2⟩
  | rests =>
    cases h
    refine ⟨value, hsem, ?_⟩
    rw [hpoint]
    refine ⟨update_self _ _ _, ?_⟩
    rcases hcredit with ⟨-, hle⟩ | ⟨-, h0⟩ <;> omega
  | checks | checksLeft | checksRight =>
    cases h
    refine checkAvailability_credited ⟨value, hsem, ?_⟩ _
    rw [hpoint]
    exact hcredit
  | waits =>
    obtain ⟨T₁, hwait, heq⟩ := Option.map_eq_some_iff.mp h
    cases heq
    obtain ⟨left, hleft, rfl⟩ := semWait_some hwait
    obtain rfl : value = left + 1 := by
      rw [hsem] at hleft
      exact Option.some.inj hleft
    refine ⟨left, update_self _ _ _, ?_⟩
    rw [hpoint]
    rcases hcredit with ⟨hhungry, hle⟩ | ⟨heats, -, hle⟩
    · exact Or.inr ⟨hhungry, by omega⟩
    · exact Or.inl ⟨heats, by omega⟩

end Credits

section Service

theorem point_kept {q : Point} (hj : point j = q) (hi : point i ≠ q) :
    update point i p' j = q := by
  rwa [update_of_ne]
  rintro rfl
  exact hi hj

theorem Pending.other (h : Pending n point j) (hi : point i ≠ .checks)
    (hleft : point i ≠ .checksLeft) (hright : point i ≠ .checksRight) :
    Pending n (update point i p') j := by
  rcases h with h | h | h | h
  · exact Or.inl (point_kept h hi)
  · exact Or.inr (Or.inl (point_kept h hleft))
  · exact Or.inr (Or.inr (Or.inl (point_kept h hleft)))
  · exact Or.inr (Or.inr (Or.inr (point_kept h hright)))

theorem Pending.checked (h : Pending n point j) (hi : point i = .checks) (hji : j ≠ i) :
    Pending n (update point i p') j := by
  rcases h with h | h | h | h
  · exact Or.inl ((update_of_ne hji _ _).trans h)
  · exact Or.inr (Or.inl (point_kept h (by simp [hi])))
  · exact Or.inr (Or.inr (Or.inl (point_kept h (by simp [hi]))))
  · exact Or.inr (Or.inr (Or.inr (point_kept h (by simp [hi]))))

theorem Pending.checkedLeft (h : Pending n point j) (hj : Seat n j) (hi : point i = .checksLeft)
    (hne : j ≠ left n i) : Pending n (update point i .checksRight) j := by
  rcases h with h | h | h | h
  · exact Or.inl (point_kept h (by simp [hi]))
  · have hright : right n j ≠ i := by
      rintro rfl
      exact hne (left_right hj).symm
    exact Or.inr (Or.inl ((update_of_ne hright _ _).trans h))
  · by_cases hleft : left n j = i
    · refine Or.inr (Or.inr (Or.inr ?_))
      rw [hleft, update_self]
    · exact Or.inr (Or.inr (Or.inl ((update_of_ne hleft _ _).trans h)))
  · exact Or.inr (Or.inr (Or.inr (point_kept h (by simp [hi]))))

theorem Pending.checkedRight (h : Pending n point j) (hj : Seat n j) (hi : point i = .checksRight)
    (hne : j ≠ right n i) : Pending n (update point i p') j := by
  rcases h with h | h | h | h
  · exact Or.inl (point_kept h (by simp [hi]))
  · exact Or.inr (Or.inl (point_kept h (by simp [hi])))
  · exact Or.inr (Or.inr (Or.inl (point_kept h (by simp [hi]))))
  · have hleft : left n j ≠ i := by
      rintro rfl
      exact hne (right_left hj).symm
    exact Or.inr (Or.inr (Or.inr ((update_of_ne hleft _ _).trans h)))

theorem checkAvailability_hungry (h : (checkAvailability T i).state i = .hungry) :
    (checkAvailability T i).state (left T.amountPh i) = .eating ∨
      (checkAvailability T i).state (right T.amountPh i) = .eating := by
  by_cases hfree : T.state i = .hungry ∧ T.state (left T.amountPh i) ≠ .eating ∧
      T.state (right T.amountPh i) ≠ .eating
  · have hcheck : checkAvailability T i = semPost (T.setState i .eating) i := if_pos hfree
    rw [hcheck] at h
    have heats : (semPost (T.setState i .eating) i).state i = .eating := update_self _ _ _
    rw [heats] at h
    cases h
  · have hcheck : checkAvailability T i = T := if_neg hfree
    rw [hcheck] at h ⊢
    by_contra hnone
    exact hfree ⟨h, fun heats ↦ hnone (Or.inl heats), fun heats ↦ hnone (Or.inr heats)⟩

theorem checkAvailability_served {point' : ℤ → Point} {c : ℤ}
    (h : Served T.amountPh T.state point)
    (hpending : ∀ j, Seat T.amountPh j → j ≠ c → Pending T.amountPh point j →
      Pending T.amountPh point' j) :
    Served T.amountPh (checkAvailability T c).state point' := by
  intro j hj hhungry
  by_cases hjc : j = c
  · subst hjc
    exact (checkAvailability_hungry hhungry).imp_right Or.inl
  · have hbefore : T.state j = .hungry := by
      rcases checkAvailability_cases T c with hcheck | ⟨-, -, -, hcheck⟩
      · rwa [hcheck] at hhungry
      · rw [hcheck] at hhungry
        rwa [← update_of_ne hjc State.eating T.state]
    rcases h j hj hbefore with heats | heats | hpend
    · exact Or.inl (checkAvailability_eating heats)
    · exact Or.inr (Or.inl (checkAvailability_eating heats))
    · exact Or.inr (Or.inr (hpending j hj hjc hpend))

theorem Served.stays (h : Served n state point) (hchecks : point i ≠ .checks)
    (hleft : point i ≠ .checksLeft) (hright : point i ≠ .checksRight) :
    Served n state (update point i p') :=
  fun j hj hhungry ↦ (h j hj hhungry).imp_right
    (Or.imp_right fun hpend ↦ hpend.other hchecks hleft hright)

theorem Served.hungers (h : Served n state point) (hp : point i = .hungers)
    (hthinks : state i ≠ .eating) :
    Served n (update state i .hungry) (update point i .checks) := by
  have hkept : ∀ j, state j = .eating → update state i .hungry j = .eating := by
    intro j heats
    rwa [update_of_ne]
    rintro rfl
    exact hthinks heats
  intro j hj hhungry
  by_cases hji : j = i
  · subst hji
    exact Or.inr (Or.inr (Or.inl (update_self _ _ _)))
  · rw [update_of_ne hji] at hhungry
    rcases h j hj hhungry with heats | heats | hpend
    · exact Or.inl (hkept _ heats)
    · exact Or.inr (Or.inl (hkept _ heats))
    · refine Or.inr (Or.inr (hpend.other ?_ ?_ ?_)) <;> simp [hp]

theorem Served.rests (h : Served n state point) (hp : point i = .rests) :
    Served n (update state i .thinking) (update point i .checksLeft) := by
  intro j hj hhungry
  have hji : j ≠ i := by
    rintro rfl
    rw [update_self] at hhungry
    cases hhungry
  rw [update_of_ne hji] at hhungry
  rcases h j hj hhungry with heats | heats | hpend
  · by_cases hleft : left n j = i
    · refine Or.inr (Or.inr (Or.inr (Or.inr (Or.inl ?_))))
      rw [hleft, update_self]
    · exact Or.inl ((update_of_ne hleft _ _).trans heats)
  · by_cases hright : right n j = i
    · refine Or.inr (Or.inr (Or.inr (Or.inl ?_)))
      rw [hright, update_self]
    · exact Or.inr (Or.inl ((update_of_ne hright _ _).trans heats))
  · refine Or.inr (Or.inr (hpend.other ?_ ?_ ?_)) <;> simp [hp]

theorem next_served (h : next T i p = some (T', p')) (hp : point i = p)
    (hi : Credited T point i) (hserved : Served T.amountPh T.state point) :
    Served T.amountPh T'.state (update point i p') := by
  cases p with
  | thinks | eats | posts | leaves =>
    cases h
    apply hserved.stays <;> simp [hp]
  | takes | puts =>
    obtain ⟨T₁, hlock, heq⟩ := Option.map_eq_some_iff.mp h
    cases heq
    obtain ⟨-, rfl⟩ := lock_cases hlock
    apply hserved.stays <;> simp [hp]
  | waits =>
    obtain ⟨T₁, hwait, heq⟩ := Option.map_eq_some_iff.mp h
    cases heq
    obtain ⟨value, -, rfl⟩ := semWait_some hwait
    apply hserved.stays <;> simp [hp]
  | hungers =>
    cases h
    obtain ⟨value, -, hcredit⟩ := hi
    rw [hp] at hcredit
    exact hserved.hungers hp (by simp [hcredit.1])
  | rests =>
    cases h
    exact hserved.rests hp
  | checks =>
    cases h
    exact checkAvailability_served hserved fun j _ hji hpend ↦ hpend.checked hp hji
  | checksLeft =>
    cases h
    exact checkAvailability_served hserved fun j hj hne hpend ↦ hpend.checkedLeft hj hp hne
  | checksRight =>
    cases h
    exact checkAvailability_served hserved fun j hj hne hpend ↦ hpend.checkedRight hj hp hne

end Service

theorem step_sound (h : Sound s) (hs : advance s i = some s') : Sound s' := by
  have hlocked := step_locked h.locked hs
  obtain ⟨hi, T, p, hnext, rfl⟩ := advance_cases hs
  have hsame := next_amountPh hnext
  refine ⟨fun j hj ↦ ?_, ?_, hlocked, fun hmutex ↦ ?_⟩
  · change Seat T.amountPh j at hj
    rw [hsame] at hj
    by_cases hji : j = i
    · rw [hji]
      exact next_credited_self hnext rfl (h.credited i hi)
    · exact next_credited_other hnext hji (h.credited j hj)
  · change Served T.amountPh T.state (update s.point i p)
    rw [hsame]
    exact next_served hnext rfl (h.credited i hi) h.served
  · change T.mutex = 0 at hmutex
    change ∃ j, Seat T.amountPh j ∧ (update s.point i p j).holds = true
    rw [hsame]
    rcases next_mutex hnext with ⟨-, htakes, -⟩ | ⟨-, -, hup⟩ | ⟨hholds, hkept⟩
    · refine ⟨i, hi, ?_⟩
      rwa [update_self]
    · omega
    · obtain ⟨j, hj, hjholds⟩ := h.busy (hkept.symm.trans hmutex)
      refine ⟨j, hj, ?_⟩
      by_cases hji : j = i
      · subst hji
        rwa [update_self, hholds]
      · rwa [update_of_ne hji]

theorem start_sound {m : ℕ} (hseated : seated m = some T) : Sound (start T) := by
  obtain ⟨T', hseated', -, hmutex, hthink, hsem⟩ := seated_spec m
  rw [hseated] at hseated'
  cases hseated'
  refine ⟨fun i hi ↦ ⟨1, hsem i hi, hthink i, Nat.le_refl 1⟩, fun i _ hhungry ↦ ?_,
    ⟨Nat.le_of_eq hmutex, nofun⟩, fun h0 ↦ ?_⟩
  · exact absurd ((hthink i).symm.trans hhungry) (by decide)
  · exact absurd (hmutex.symm.trans h0) (by decide)

abbrev Moves (s : System) (i : ℤ) (s' : System) : Prop := advance s i = some s'

theorem run_sound {m : ℕ} {tr : List (System × ℤ)} (hseated : seated m = some T)
    (hrun : Run Moves (start T) tr s) : Sound s :=
  hrun.invariant (fun _ _ _ h hs ↦ step_sound h hs) (start_sound hseated)

/-- With nobody in `takeChopsticks` or `putChopsticks`, who is hungry has a
neighbour that eats. -/
theorem Sound.hungry (h : Sound s) (hfree : s.table.mutex ≠ 0) (hi : Seat s.table.amountPh i)
    (hhungry : s.table.state i = .hungry) :
    s.table.state (left s.table.amountPh i) = .eating ∨
      s.table.state (right s.table.amountPh i) = .eating := by
  have hout : ∀ j p, Seat s.table.amountPh j → s.point j = p → p.holds = true → False := by
    rintro j p hj rfl hholds
    exact hfree (h.locked.one j hj hholds).1
  rcases h.served i hi hhungry with heats | heats | hpend | hpend | hpend | hpend
  · exact Or.inl heats
  · exact Or.inr heats
  · exact (hout _ _ hi hpend rfl).elim
  · exact (hout _ _ hi.right hpend rfl).elim
  · exact (hout _ _ hi.left hpend rfl).elim
  · exact (hout _ _ hi.left hpend rfl).elim

section Alone

/-- How many statements of its own a philosopher is from its wait for its
semaphore. -/
def ahead : Point → ℕ
  | .waits => 0
  | .posts => 1
  | .checks => 2
  | .hungers => 3
  | .takes => 4
  | .thinks => 5
  | .leaves => 6
  | .checksRight => 7
  | .checksLeft => 8
  | .rests => 9
  | .puts => 10
  | .eats => 11

def Ready (s : System) (i : ℤ) : Prop := (s.point i).holds = true ∨ s.table.mutex ≠ 0

/-- Only the philosopher at seat `i` went on, and nobody became hungry but
it. -/
structure Kept (i : ℤ) (s s' : System) : Prop where
  amountPh : s'.table.amountPh = s.table.amountPh
  point : ∀ j, j ≠ i → s'.point j = s.point j
  thinking : ∀ j, j ≠ i → s.table.state j = .thinking → s'.table.state j = .thinking

theorem Kept.trans {s'' : System} (h : Kept i s s') (h' : Kept i s' s'') : Kept i s s'' :=
  ⟨h'.amountPh.trans h.amountPh, fun j hji ↦ (h'.point j hji).trans (h.point j hji),
    fun j hji hthinks ↦ h'.thinking j hji (h.thinking j hji hthinks)⟩

theorem checkAvailability_thinking (h : T.state j = .thinking) :
    (checkAvailability T i).state j = .thinking := by
  rcases checkAvailability_cases T i with hcheck | ⟨hhungry, -, -, hcheck⟩
  · rwa [hcheck]
  · rw [hcheck]
    refine (update_of_ne ?_ _ _).trans h
    rintro rfl
    exact absurd (h.symm.trans hhungry) (by decide)

theorem next_thinking (h : next T i p = some (T', p')) (hji : j ≠ i)
    (hthinks : T.state j = .thinking) : T'.state j = .thinking := by
  cases p with
  | thinks | eats | posts | leaves =>
    cases h
    exact hthinks
  | takes | puts =>
    obtain ⟨T₁, hlock, heq⟩ := Option.map_eq_some_iff.mp h
    cases heq
    obtain ⟨-, rfl⟩ := lock_cases hlock
    exact hthinks
  | hungers | rests =>
    cases h
    exact (update_of_ne hji _ _).trans hthinks
  | checks | checksLeft | checksRight =>
    cases h
    exact checkAvailability_thinking hthinks
  | waits =>
    obtain ⟨T₁, hwait, heq⟩ := Option.map_eq_some_iff.mp h
    cases heq
    obtain ⟨value, -, rfl⟩ := semWait_some hwait
    exact hthinks

theorem advance_kept (hs : advance s i = some s') : Kept i s s' := by
  obtain ⟨-, T, p, hnext, rfl⟩ := advance_cases hs
  exact ⟨next_amountPh hnext, fun j hji ↦ update_of_ne hji _ _,
    fun j hji hthinks ↦ next_thinking hnext hji hthinks⟩

theorem advance_ready (hs : advance s i = some s') (h : Ready s i) : Ready s' i := by
  obtain ⟨-, T, p, hnext, rfl⟩ := advance_cases hs
  have hself : update s.point i p i = p := update_self _ _ _
  change (update s.point i p i).holds = true ∨ T.mutex ≠ 0
  rw [hself]
  rcases next_mutex hnext with ⟨-, hholds, -⟩ | ⟨-, -, hmutex⟩ | ⟨hholds, hmutex⟩
  · exact Or.inl hholds
  · exact Or.inr (by omega)
  · rw [hholds, hmutex]
    exact h

theorem lock_some (h : T.mutex ≠ 0) : lock T = some { T with mutex := T.mutex - 1 } := if_neg h

theorem next_some (h : p.holds = true ∨ T.mutex ≠ 0) (hp : p ≠ .waits) :
    ∃ T' p', next T i p = some (T', p') ∧ ahead p' + 1 = ahead p := by
  cases p with
  | takes | puts =>
    have hfree : T.mutex ≠ 0 := h.resolve_left Bool.false_ne_true
    rw [next, lock_some hfree]
    exact ⟨_, _, rfl, rfl⟩
  | waits => exact absurd rfl hp
  | _ => exact ⟨_, _, rfl, rfl⟩

theorem moves_of_next (hi : Seat s.table.amountPh i)
    (h : next s.table i (s.point i) = some (T, p)) : Moves s i ⟨T, update s.point i p⟩ := by
  apply (if_pos hi).trans
  rw [h]
  rfl

theorem alone_reaches (h : Sound s) (hi : Seat s.table.amountPh i) (hready : Ready s i) {k : ℕ}
    (hk : k ≤ ahead (s.point i)) : ∃ s', Reaches Moves s s' ∧ Kept i s s' ∧ Sound s' ∧
      Ready s' i ∧ ahead (s'.point i) + k = ahead (s.point i) := by
  induction k generalizing s with
  | zero => exact ⟨s, .refl s, ⟨rfl, fun _ _ ↦ rfl, fun _ _ h ↦ h⟩, h, hready, rfl⟩
  | succ k ih =>
    have hwaits : s.point i ≠ .waits := by
      intro hwaits
      rw [hwaits] at hk
      cases hk
    obtain ⟨T, p, hnext, hahead⟩ := next_some (i := i) hready hwaits
    have hs : Moves s i ⟨T, update s.point i p⟩ := moves_of_next hi hnext
    have hself : update s.point i p i = p := update_self _ _ _
    have hi' : Seat T.amountPh i := by
      rwa [next_amountPh hnext]
    have hk' : k ≤ ahead (update s.point i p i) := by
      rw [hself]
      omega
    obtain ⟨s', hreach, hkept, hsound, hready', hleft⟩ :=
      ih (step_sound h hs) hi' (advance_ready hs hready) hk'
    refine ⟨s', (Reaches.one hs).trans hreach, (advance_kept hs).trans hkept, hsound, hready', ?_⟩
    change ahead (s'.point i) + k = ahead (update s.point i p i) at hleft
    rw [hself] at hleft
    omega

theorem ahead_zero (h : ahead p = 0) : p = .waits := by
  cases p <;> first | rfl | cases h

theorem ahead_five (h : ahead p = 5) : p = .thinks := by
  cases p <;> first | rfl | cases h

theorem Ready.free (h : Ready s i) (hp : (s.point i).holds = false) : s.table.mutex ≠ 0 :=
  h.resolve_left (by rw [hp]; nofun)

theorem waits_reached (h : Sound s) (hi : Seat s.table.amountPh i) (hready : Ready s i) :
    ∃ s', Reaches Moves s s' ∧ Kept i s s' ∧ Sound s' ∧ s'.table.mutex ≠ 0 ∧
      s'.point i = .waits := by
  obtain ⟨s', hreach, hkept, hsound, hready', hahead⟩ := alone_reaches h hi hready (Nat.le_refl _)
  have hwaits : s'.point i = .waits := ahead_zero (by omega)
  exact ⟨s', hreach, hkept, hsound, hready'.free (by rw [hwaits]; rfl), hwaits⟩

theorem free_reached (h : Sound s) : ∃ s', Reaches Moves s s' ∧ Sound s' ∧
    s'.table.amountPh = s.table.amountPh ∧ s'.table.mutex ≠ 0 := by
  by_cases hfree : s.table.mutex = 0
  · obtain ⟨j, hj, hholds⟩ := h.busy hfree
    obtain ⟨s', hreach, hkept, hsound, hfree', -⟩ := waits_reached h hj (Or.inl hholds)
    exact ⟨s', hreach, hsound, hkept.amountPh, hfree'⟩
  · exact ⟨s, .refl s, h, rfl, hfree⟩

theorem semWait_pos {value : ℕ} (hsem : T.philoSem i = some value) (hpos : value ≠ 0) :
    ∃ T', next T i .waits = some (T', .eats) ∧ T'.mutex = T.mutex := by
  cases value with
  | zero => exact absurd rfl hpos
  | succ value =>
    refine ⟨{ T with philoSem := update T.philoSem i (some value) }, ?_, rfl⟩
    rw [next, semWait, hsem]
    rfl

theorem eats_reached {value : ℕ} (hi : Seat s.table.amountPh i) (hwaits : s.point i = .waits)
    (hsem : s.table.philoSem i = some value) (hpos : value ≠ 0) : ∃ s', Moves s i s' ∧
      s'.point i = .eats ∧ s'.table.mutex = s.table.mutex := by
  obtain ⟨T, hnext, hmutex⟩ := semWait_pos hsem hpos
  rw [← hwaits] at hnext
  exact ⟨_, moves_of_next hi hnext, update_self _ _ _, hmutex⟩

theorem thinks_reached (h : Sound s) (hj : Seat s.table.amountPh j) (hfree : s.table.mutex ≠ 0)
    (heats : s.table.state j = .eating) : ∃ s', Reaches Moves s s' ∧ Kept j s s' ∧ Sound s' ∧
      s'.table.mutex ≠ 0 ∧ s'.table.state j = .thinking := by
  have hplace : ∃ s₁, Reaches Moves s s₁ ∧ Kept j s s₁ ∧ Sound s₁ ∧ s₁.table.mutex ≠ 0 ∧
      5 ≤ ahead (s₁.point j) := by
    by_cases hwaits : s.point j = .waits
    · obtain ⟨value, hsem, hcredit⟩ := h.credited j hj
      rw [hwaits, heats] at hcredit
      have hpos : value ≠ 0 := by
        rcases hcredit with ⟨hhungry, -⟩ | ⟨-, hpos, -⟩
        · cases hhungry
        · omega
      obtain ⟨s₁, hs, hpoint, hmutex⟩ := eats_reached hj hwaits hsem hpos
      refine ⟨s₁, .one hs, advance_kept hs, step_sound h hs, ?_, ?_⟩
      · rwa [hmutex]
      · rw [hpoint]
        decide
    · refine ⟨s, .refl s, ⟨rfl, fun _ _ ↦ rfl, fun _ _ h ↦ h⟩, h, hfree, ?_⟩
      have hout : (s.point j).holds ≠ true := fun hholds ↦ hfree (h.locked.one j hj hholds).1
      obtain ⟨value, -, hcredit⟩ := h.credited j hj
      rw [heats] at hcredit
      cases hpoint : s.point j with
      | eats | puts | rests | checksLeft | checksRight | leaves => decide
      | waits => exact absurd hpoint hwaits
      | checks | posts =>
        rw [hpoint] at hout
        exact absurd rfl hout
      | thinks | takes | hungers =>
        rw [hpoint] at hcredit
        cases hcredit.1
  obtain ⟨s₁, hreach₁, hkept₁, hsound₁, hfree₁, hahead₁⟩ := hplace
  have hj₁ : Seat s₁.table.amountPh j := by
    rwa [hkept₁.amountPh]
  obtain ⟨s', hreach, hkept, hsound, hready, hahead⟩ :=
    alone_reaches hsound₁ hj₁ (Or.inr hfree₁) (Nat.sub_le (ahead (s₁.point j)) 5)
  have hthinks : s'.point j = .thinks := ahead_five (by omega)
  obtain ⟨value, -, hcredit⟩ := hsound.credited j (by rwa [hkept.amountPh])
  rw [hthinks] at hcredit
  exact ⟨s', hreach₁.trans hreach, hkept₁.trans hkept, hsound,
    hready.free (by rw [hthinks]; rfl), hcredit.1⟩

end Alone

/-- With the mutex free, who is hungry has a neighbour that eats, and so has
who would block on its semaphore. -/
def Woken (s : System) : Prop :=
  s.table.mutex ≠ 0 → ∀ i, Seat s.table.amountPh i →
    (s.table.state i = .hungry ∨ s.point i = .waits ∧ advance s i = none) →
      s.table.state (left s.table.amountPh i) = .eating ∨
        s.table.state (right s.table.amountPh i) = .eating

theorem Sound.woken (h : Sound s) : Woken s := by
  intro hfree i hi hstuck
  apply h.hungry hfree hi
  rcases hstuck with hhungry | ⟨hwaits, hblocked⟩
  · exact hhungry
  · obtain ⟨value, hsem, hcredit⟩ := h.credited i hi
    rw [hwaits] at hcredit
    rcases hcredit with ⟨hhungry, -⟩ | ⟨-, hpos, -⟩
    · exact hhungry
    · obtain ⟨s', hs, -⟩ := eats_reached hi hwaits hsem (by omega)
      cases hblocked.symm.trans hs

/-- No wake-up is lost. -/
theorem always_woken {m : ℕ} {tr : List (System × ℤ)} (hseated : seated m = some T)
    (hrun : Run Moves (start T) tr s) : Always Woken tr s :=
  hrun.always (fun _ _ _ h hs ↦ step_sound h hs) (fun _ h ↦ h.woken) (start_sound hseated)

theorem always_woken_two : ∃ T tr s, seated 2 = some T ∧ Run Moves (start T) tr s ∧
    s.table.state 1 = .hungry ∧ Always Woken tr s := by
  obtain ⟨T, tr, s, hseated, hrun, hhungry⟩ : ∃ T tr s, seated 2 = some T ∧
      Run Moves (start T) tr s ∧ s.table.state 1 = .hungry := by
    refine ⟨_, _, _, rfl, .cons (i := 0) rfl (.cons (i := 0) rfl (.cons (i := 0) rfl
      (.cons (i := 0) rfl (.cons (i := 0) rfl (.cons (i := 1) rfl (.cons (i := 1) rfl
      (.cons (i := 1) rfl (.cons (i := 1) rfl (.one (i := 1) rfl))))))))), rfl⟩
  exact ⟨T, tr, s, hseated, hrun, hhungry, always_woken hseated hrun⟩

def Neighbour (n i j : ℤ) : Prop := j = left n i ∨ j = right n i

theorem eats_or_neighbour (h : Sound s) (hi : Seat s.table.amountPh i) (hfree : s.table.mutex ≠ 0)
    (hwaits : s.point i = .waits) : (∃ s', Moves s i s' ∧ s'.point i = .eats) ∨
      ∃ j, Neighbour s.table.amountPh i j ∧ Seat s.table.amountPh j ∧ j ≠ i ∧
        s.table.state j = .eating := by
  obtain ⟨value, hsem, hcredit⟩ := h.credited i hi
  by_cases hpos : value = 0
  · rw [hwaits] at hcredit
    have hhungry : s.table.state i = .hungry := by
      rcases hcredit with ⟨hhungry, -⟩ | ⟨-, hone, -⟩
      · exact hhungry
      · omega
    have hne : ∀ j, s.table.state j = .eating → j ≠ i := by
      rintro j heats rfl
      cases hhungry.symm.trans heats
    rcases h.hungry hfree hi hhungry with heats | heats
    · exact Or.inr ⟨_, Or.inl rfl, hi.left, hne _ heats, heats⟩
    · exact Or.inr ⟨_, Or.inr rfl, hi.right, hne _ heats, heats⟩
  · obtain ⟨s', hs, heats, -⟩ := eats_reached hi hwaits hsem hpos
    exact Or.inl ⟨s', hs, heats⟩

theorem Neighbour.of_two {k l : ℤ} (hj : Neighbour n i j) (hk : Neighbour n i k) (hne : k ≠ j)
    (hl : Neighbour n i l) : l = j ∨ l = k := by
  unfold Neighbour at hj hk hl
  omega

/-- From its wait, a philosopher eats after at most two others have finished:
a neighbour that eats, and the one that may begin before it. -/
theorem eats_from_waits (h : Sound s) (hi : Seat s.table.amountPh i) (hfree : s.table.mutex ≠ 0)
    (hwaits : s.point i = .waits) : ∃ s', Reaches Moves s s' ∧ s'.point i = .eats := by
  rcases eats_or_neighbour h hi hfree hwaits with ⟨s', hs, heats⟩ | ⟨j, hj, hjseat, hji, heats⟩
  · exact ⟨s', .one hs, heats⟩
  obtain ⟨s₁, hreach₁, hkept₁, h₁, hfree₁, hthinks₁⟩ := thinks_reached h hjseat hfree heats
  have hi₁ : Seat s₁.table.amountPh i := by
    rwa [hkept₁.amountPh]
  have hwaits₁ : s₁.point i = .waits := (hkept₁.point i hji.symm).trans hwaits
  rcases eats_or_neighbour h₁ hi₁ hfree₁ hwaits₁ with
    ⟨s', hs, heats'⟩ | ⟨k, hk, hkseat, hki, heats'⟩
  · exact ⟨s', hreach₁.trans (.one hs), heats'⟩
  have hkj : k ≠ j := by
    rintro rfl
    cases hthinks₁.symm.trans heats'
  obtain ⟨s₂, hreach₂, hkept₂, h₂, hfree₂, hthinks₂⟩ := thinks_reached h₁ hkseat hfree₁ heats'
  have hi₂ : Seat s₂.table.amountPh i := by
    rwa [hkept₂.amountPh]
  have hwaits₂ : s₂.point i = .waits := (hkept₂.point i hki.symm).trans hwaits₁
  have hreach := hreach₁.trans hreach₂
  rcases eats_or_neighbour h₂ hi₂ hfree₂ hwaits₂ with ⟨s', hs, heats''⟩ | ⟨l, hl, -, -, heats''⟩
  · exact ⟨s', hreach.trans (.one hs), heats''⟩
  · rw [hkept₂.amountPh] at hl
    rw [← hkept₁.amountPh] at hj
    rcases hj.of_two hk hkj hl with rfl | rfl
    · cases (hkept₂.thinking l hkj.symm hthinks₁).symm.trans heats''
    · cases hthinks₂.symm.trans heats''

/-- No deadlock, and nobody is locked out: whatever has happened, every
philosopher can still come to eat. -/
theorem everyone_eats {m : ℕ} {tr : List (System × ℤ)} (hseated : seated m = some T)
    (hrun : Run Moves (start T) tr s) (hi : Seat s.table.amountPh i) :
    ∃ s', Reaches Moves s s' ∧ s'.point i = .eats := by
  have h := run_sound hseated hrun
  obtain ⟨s₁, hreach₁, h₁, hsame₁, hfree₁⟩ := free_reached h
  have hi₁ : Seat s₁.table.amountPh i := by
    rwa [hsame₁]
  obtain ⟨s₂, hreach₂, hkept₂, h₂, hfree₂, hwaits⟩ := waits_reached h₁ hi₁ (Or.inr hfree₁)
  have hi₂ : Seat s₂.table.amountPh i := by
    rwa [hkept₂.amountPh]
  obtain ⟨s', hreach, heats⟩ := eats_from_waits h₂ hi₂ hfree₂ hwaits
  exact ⟨s', hreach₁.trans (hreach₂.trans hreach), heats⟩

theorem everyone_eats_three : ∃ T tr s, seated 3 = some T ∧ Run Moves (start T) tr s ∧
    s.point 0 = .eats ∧ ∃ s', Reaches Moves s s' ∧ s'.point 1 = .eats := by
  obtain ⟨T, tr, s, hseated, hrun, heats, hamount⟩ : ∃ T tr s, seated 3 = some T ∧
      Run Moves (start T) tr s ∧ s.point 0 = .eats ∧ s.table.amountPh = 3 := by
    refine ⟨_, _, _, rfl, .cons (i := 0) rfl (.cons (i := 0) rfl (.cons (i := 0) rfl
      (.cons (i := 0) rfl (.cons (i := 0) rfl (.one (i := 0) rfl))))), rfl, rfl⟩
  have hseat : Seat s.table.amountPh 1 := by
    rw [hamount]
    exact ⟨by decide, by decide⟩
  exact ⟨T, tr, s, hseated, hrun, heats, everyone_eats hseated hrun hseat⟩

end ShellOS.Userland.PhiloProgress
