import ShellOS.Library.Runs
import ShellOS.Userland.Philo

namespace ShellOS.Userland.PhiloExclusion

open Library.Runs Philo Function

/-- Where a philosopher is in the loop of `philoProcess`: before its next
statement on the table. -/
inductive Point
  | thinks
  | takes
  | hungers
  | checks
  | posts
  | waits
  | eats
  | puts
  | rests
  | checksLeft
  | checksRight
  | leaves

/-- The next statement of the philosopher at seat `i`. From `takes` to `waits`
it is in `takeChopsticks`, from `puts` on in `putChopsticks`. -/
def next (T : Table) (i : ℤ) : Point → Option (Table × Point)
  | .thinks => some (T, .takes)
  | .takes => (lock T).map fun T ↦ (T, .hungers)
  | .hungers => some (T.setState i .hungry, .checks)
  | .checks => some (checkAvailability T i, .posts)
  | .posts => some (unlock T, .waits)
  | .waits => (semWait T i).map fun T ↦ (T, .eats)
  | .eats => some (T, .puts)
  | .puts => (lock T).map fun T ↦ (T, .rests)
  | .rests => some (T.setState i .thinking, .checksLeft)
  | .checksLeft => some (checkAvailability T (left T.amountPh i), .checksRight)
  | .checksRight => some (checkAvailability T (right T.amountPh i), .leaves)
  | .leaves => some (unlock T, .thinks)

section Alone

def alone (i : ℤ) : ℕ → Table × Point → Option (Table × Point)
  | 0, r => some r
  | n + 1, r => (next r.1 i r.2).bind (alone i n)

theorem takeChopsticks_alone (T : Table) (i : ℤ) :
    alone i 4 (T, .takes) = (takeChopsticks T i).map fun T ↦ (T, .waits) := by
  rw [alone, next, takeChopsticks]
  cases lock T with
  | none => rfl
  | some T => rfl

theorem putChopsticks_alone (T : Table) (i : ℤ) :
    alone i 5 (T, .puts) = (putChopsticks T i).map fun T ↦ (T, .thinks) := by
  rw [alone, next, putChopsticks]
  cases lock T with
  | none => rfl
  | some T => rfl

end Alone

structure System where
  table : Table
  point : ℤ → Point

def advance (s : System) (i : ℤ) : Option System :=
  if 0 ≤ i ∧ i < s.table.amountPh then
    (next s.table i (s.point i)).map fun r ↦ ⟨r.1, update s.point i r.2⟩
  else none

/-- `n` philosophers are added to an empty table. The semaphores are new. -/
def seated : ℕ → Option Table
  | 0 => some boot
  | n + 1 => (seated n).bind fun T ↦ (addPh T n (some 1)).map Prod.fst

def start (T : Table) : System := ⟨T, fun _ ↦ .thinks⟩

/-- No two neighbours are between the return of `takeChopsticks` and the call
of `putChopsticks`. -/
def Exclusive (s : System) : Prop :=
  ∀ i, Seat s.table.amountPh i → s.point i = .eats →
    s.point (left s.table.amountPh i) ≠ .eats ∧ s.point (right s.table.amountPh i) ≠ .eats

/-- Who goes on from `philoSem[i]` has been posted, besides the 1 that the
semaphore was opened with. -/
def Permitted (s : System) (i : ℤ) : Prop :=
  s.point i = .waits → ∀ value, s.table.philoSem i = some value → 1 < value

def Fits : Point → State → Option ℕ → Prop
  | .checks, state, sem | .posts, state, sem | .waits, state, sem =>
    state = .hungry ∧ sem = some 1 ∨ state = .eating ∧ sem = some 2
  | .eats, state, sem | .puts, state, sem | .rests, state, sem => state = .eating ∧ sem = some 1
  | _, state, sem => state = .thinking ∧ sem = some 1

structure Invariant (s : System) : Prop where
  two : 2 ≤ s.table.amountPh
  peaceful : Peaceful s.table.amountPh s.table.state
  fits : ∀ i, Seat s.table.amountPh i → Fits (s.point i) (s.table.state i) (s.table.philoSem i)

variable {T T' : Table} {p p' : Point} {s s' : System} {i j : ℤ}

theorem Fits.posted {sem : Option ℕ} (h : Fits p .hungry sem) :
    Fits p .eating (sem.map (· + 1)) := by
  cases p with
  | checks | posts | waits =>
    rcases h with ⟨-, rfl⟩ | ⟨hstate, -⟩
    · exact Or.inr ⟨rfl, rfl⟩
    · cases hstate
  | _ => cases h.1

theorem checkAvailability_fits (h : Fits p (T.state j) (T.philoSem j)) (i : ℤ) :
    Fits p ((checkAvailability T i).state j) ((checkAvailability T i).philoSem j) := by
  rcases checkAvailability_cases T i with hcheck | ⟨hhungry, -, -, hcheck⟩
  · rwa [hcheck]
  · rw [hcheck]
    change Fits p (update T.state i .eating j)
      (update T.philoSem i ((T.philoSem i).map (· + 1)) j)
    by_cases hji : j = i
    · rw [hji, update_self, update_self]
      rw [hji, hhungry] at h
      exact h.posted
    · rwa [update_of_ne hji, update_of_ne hji]

theorem semWait_cases (h : semWait T i = some T') :
    ∃ value, T' = { T with philoSem := update T.philoSem i (some value) } := by
  unfold semWait at h
  split at h
  · cases h
    exact ⟨_, rfl⟩
  · cases h

theorem next_others (h : next T i p = some (T', p')) (hji : j ≠ i) {q : Point}
    (hq : Fits q (T.state j) (T.philoSem j)) : Fits q (T'.state j) (T'.philoSem j) := by
  cases p with
  | thinks | eats | posts | leaves =>
    cases h
    exact hq
  | takes | puts =>
    obtain ⟨T₁, hlock, heq⟩ := Option.map_eq_some_iff.mp h
    cases heq
    obtain ⟨-, rfl⟩ := lock_cases hlock
    exact hq
  | hungers | rests =>
    cases h
    change Fits q (update T.state i _ j) (T.philoSem j)
    rwa [update_of_ne hji]
  | checks | checksLeft | checksRight =>
    cases h
    exact checkAvailability_fits hq _
  | waits =>
    obtain ⟨T₁, hwait, heq⟩ := Option.map_eq_some_iff.mp h
    cases heq
    obtain ⟨value, rfl⟩ := semWait_cases hwait
    change Fits q (T.state j) (update T.philoSem i (some value) j)
    rwa [update_of_ne hji]

theorem next_self (h : next T i p = some (T', p'))
    (hpermitted : p = .waits → ∀ value, T.philoSem i = some value → 1 < value)
    (hp : Fits p (T.state i) (T.philoSem i)) : Fits p' (T'.state i) (T'.philoSem i) := by
  cases p with
  | thinks | eats | posts | leaves =>
    cases h
    exact hp
  | takes | puts =>
    obtain ⟨T₁, hlock, heq⟩ := Option.map_eq_some_iff.mp h
    cases heq
    obtain ⟨-, rfl⟩ := lock_cases hlock
    exact hp
  | hungers =>
    cases h
    change Fits .checks (update T.state i .hungry i) (T.philoSem i)
    rw [update_self]
    exact Or.inl ⟨rfl, hp.2⟩
  | rests =>
    cases h
    change Fits .checksLeft (update T.state i .thinking i) (T.philoSem i)
    rw [update_self]
    exact ⟨rfl, hp.2⟩
  | checks | checksLeft | checksRight =>
    cases h
    exact checkAvailability_fits hp _
  | waits =>
    rcases hp with ⟨hhungry, hone⟩ | ⟨heats, htwo⟩
    · exact absurd (hpermitted rfl 1 hone) (by decide)
    · have hwait : semWait T i = some { T with philoSem := update T.philoSem i (some 1) } := by
        rw [semWait, htwo]
      rw [next, hwait] at h
      cases h
      change Fits .eats (T.state i) (update T.philoSem i (some 1) i)
      rw [update_self]
      exact ⟨heats, rfl⟩

theorem next_amountPh (h : next T i p = some (T', p')) : T'.amountPh = T.amountPh := by
  cases p with
  | thinks | eats | posts | leaves | hungers | rests =>
    cases h
    rfl
  | takes | puts =>
    obtain ⟨T₁, hlock, heq⟩ := Option.map_eq_some_iff.mp h
    cases heq
    obtain ⟨-, rfl⟩ := lock_cases hlock
    rfl
  | checks | checksLeft | checksRight =>
    cases h
    exact checkAvailability_amountPh
  | waits =>
    obtain ⟨T₁, hwait, heq⟩ := Option.map_eq_some_iff.mp h
    cases heq
    obtain ⟨value, rfl⟩ := semWait_cases hwait
    rfl

theorem next_peaceful (h : next T i p = some (T', p')) (hn : 2 ≤ T.amountPh)
    (hi : Seat T.amountPh i) (hpeace : Peaceful T.amountPh T.state) :
    Peaceful T.amountPh T'.state := by
  cases p with
  | thinks | eats | posts | leaves =>
    cases h
    exact hpeace
  | takes | puts =>
    obtain ⟨T₁, hlock, heq⟩ := Option.map_eq_some_iff.mp h
    cases heq
    obtain ⟨-, rfl⟩ := lock_cases hlock
    exact hpeace
  | hungers =>
    cases h
    exact hpeace.not_eating (by decide : State.hungry ≠ .eating) i
  | rests =>
    cases h
    exact hpeace.not_eating (by decide : State.thinking ≠ .eating) i
  | checks =>
    cases h
    exact checkAvailability_peaceful hpeace hn hi
  | checksLeft =>
    cases h
    exact checkAvailability_peaceful hpeace hn hi.left
  | checksRight =>
    cases h
    exact checkAvailability_peaceful hpeace hn hi.right
  | waits =>
    obtain ⟨T₁, hwait, heq⟩ := Option.map_eq_some_iff.mp h
    cases heq
    obtain ⟨value, rfl⟩ := semWait_cases hwait
    exact hpeace

def Point.holds : Point → Bool
  | .hungers | .checks | .posts | .rests | .checksLeft | .checksRight | .leaves => true
  | _ => false

theorem next_mutex (h : next T i p = some (T', p')) :
    p.holds = false ∧ p'.holds = true ∧ T.mutex ≠ 0 ∧ T'.mutex = T.mutex - 1 ∨
      p.holds = true ∧ p'.holds = false ∧ T'.mutex = T.mutex + 1 ∨
      p'.holds = p.holds ∧ T'.mutex = T.mutex := by
  cases p with
  | thinks | eats | hungers | rests =>
    cases h
    exact Or.inr (Or.inr ⟨rfl, rfl⟩)
  | posts | leaves =>
    cases h
    exact Or.inr (Or.inl ⟨rfl, rfl, rfl⟩)
  | takes | puts =>
    obtain ⟨T₁, hlock, heq⟩ := Option.map_eq_some_iff.mp h
    cases heq
    obtain ⟨hne, rfl⟩ := lock_cases hlock
    exact Or.inl ⟨rfl, rfl, hne, rfl⟩
  | checks | checksLeft | checksRight =>
    cases h
    exact Or.inr (Or.inr ⟨rfl, checkAvailability_mutex⟩)
  | waits =>
    obtain ⟨T₁, hwait, heq⟩ := Option.map_eq_some_iff.mp h
    cases heq
    obtain ⟨value, rfl⟩ := semWait_cases hwait
    exact Or.inr (Or.inr ⟨rfl, rfl⟩)

theorem advance_cases (h : advance s i = some s') : Seat s.table.amountPh i ∧
    ∃ T p, next s.table i (s.point i) = some (T, p) ∧ s' = ⟨T, update s.point i p⟩ := by
  obtain ⟨hi, hnext⟩ := Option.ite_none_right_eq_some.mp h
  obtain ⟨⟨T, p⟩, hr, rfl⟩ := Option.map_eq_some_iff.mp hnext
  exact ⟨hi, T, p, hr, rfl⟩

theorem step_invariant (h : Invariant s) (hpermitted : Permitted s i)
    (hs : advance s i = some s') : Invariant s' := by
  obtain ⟨hi, T, p, hnext, rfl⟩ := advance_cases hs
  have hsame := next_amountPh hnext
  refine ⟨Int.le_trans h.two (Int.le_of_eq hsame.symm), ?_, fun j hj ↦ ?_⟩
  · change Peaceful T.amountPh T.state
    rw [hsame]
    exact next_peaceful hnext h.two hi h.peaceful
  · change Seat T.amountPh j at hj
    rw [hsame] at hj
    change Fits (update s.point i p j) (T.state j) (T.philoSem j)
    by_cases hji : j = i
    · rw [hji, update_self]
      exact next_self hnext hpermitted (h.fits i hi)
    · rw [update_of_ne hji]
      exact next_others hnext hji (h.fits j hj)

structure Locked (s : System) : Prop where
  mutex_le : s.table.mutex ≤ 1
  one : ∀ i, Seat s.table.amountPh i → (s.point i).holds = true →
    s.table.mutex = 0 ∧ ∀ j, Seat s.table.amountPh j → (s.point j).holds = true → j = i

theorem step_locked (h : Locked s) (hs : advance s i = some s') : Locked s' := by
  obtain ⟨hi, T, p, hnext, rfl⟩ := advance_cases hs
  have hle := h.mutex_le
  have hother : ∀ j, j ≠ i → update s.point i p j = s.point j := fun j hji ↦ update_of_ne hji _ _
  have hself : update s.point i p i = p := update_self _ _ _
  have hseat : ∀ j, Seat T.amountPh j → Seat s.table.amountPh j := by
    intro j hj
    rwa [← next_amountPh hnext]
  rcases next_mutex hnext with ⟨-, -, hne, hmutex⟩ | ⟨hholds, hleft, hmutex⟩ | ⟨hsame, hmutex⟩
  · have honly : ∀ j, Seat T.amountPh j → (update s.point i p j).holds = true → j = i := by
      intro j hj hholds
      by_contra hji
      rw [hother j hji] at hholds
      exact hne (h.one j (hseat j hj) hholds).1
    refine ⟨?_, fun j hj hholds ↦ ⟨?_, fun j' hj' hholds' ↦ ?_⟩⟩
    · change T.mutex ≤ 1
      omega
    · change T.mutex = 0
      omega
    · rw [honly j hj hholds]
      exact honly j' hj' hholds'
  · obtain ⟨hzero, honly⟩ := h.one i hi hholds
    refine ⟨?_, fun j hj hholds' ↦ ?_⟩
    · change T.mutex ≤ 1
      omega
    · change (update s.point i p j).holds = true at hholds'
      by_cases hji : j = i
      · rw [hji, hself, hleft] at hholds'
        cases hholds'
      · rw [hother j hji] at hholds'
        exact absurd (honly j (hseat j hj) hholds') hji
  · have hpoint : ∀ j, (update s.point i p j).holds = (s.point j).holds := by
      intro j
      by_cases hji : j = i
      · rw [hji, hself, hsame]
      · rw [hother j hji]
    refine ⟨?_, fun j hj hholds ↦ ?_⟩
    · change T.mutex ≤ 1
      rwa [hmutex]
    · change (update s.point i p j).holds = true at hholds
      rw [hpoint] at hholds
      obtain ⟨hzero, honly⟩ := h.one j (hseat j hj) hholds
      refine ⟨hmutex.trans hzero, fun j' hj' hholds' ↦ ?_⟩
      change (update s.point i p j').holds = true at hholds'
      rw [hpoint] at hholds'
      exact honly j' (hseat j' hj') hholds'

theorem Invariant.exclusive (h : Invariant s) : Exclusive s := by
  have heating : ∀ j, Seat s.table.amountPh j → s.point j = .eats → s.table.state j = .eating := by
    intro j hj heats
    have hfits := h.fits j hj
    rw [heats] at hfits
    exact hfits.1
  intro i hi heats
  obtain ⟨hleft, hright⟩ := h.peaceful i hi (heating i hi heats)
  exact ⟨mt (heating _ hi.left) hleft, mt (heating _ hi.right) hright⟩

theorem seated_spec (n : ℕ) : ∃ T, seated n = some T ∧ T.amountPh = min (n : ℤ) maxPh ∧
    T.mutex = 1 ∧ (∀ i, T.state i = .thinking) ∧
    ∀ i, Seat T.amountPh i → T.philoSem i = some 1 := by
  induction n with
  | zero =>
    refine ⟨boot, rfl, rfl, rfl, fun _ ↦ rfl, fun i hi ↦ ?_⟩
    obtain ⟨h0, hlt⟩ : 0 ≤ i ∧ i < 0 := hi
    omega
  | succ n ih =>
    obtain ⟨T, hseated, hamount, hmutex, hthink, hsem⟩ := ih
    unfold maxPh at hamount
    by_cases hfull : (n : ℤ) ≥ maxPh
    · have hadd : addPh T n (some 1) = some (T, -1) := if_pos hfull
      refine ⟨T, ?_, ?_, hmutex, hthink, hsem⟩
      · rw [seated, hseated, Option.bind_some, hadd]
        rfl
      · unfold maxPh at hfull ⊢
        omega
    · have hlock : lock T = some { T with mutex := 0 } := by
        unfold lock
        rw [hmutex]
        rfl
      let T' : Table :=
        ⟨update T.state n .thinking, update T.philoSem n (some 1), 1, T.amountPh + 1⟩
      have hadd : addPh T n (some 1) = some (T', 0) := by
        rw [addPh, if_neg hfull, hlock]
        rfl
      unfold maxPh at hfull
      refine ⟨T', ?_, ?_, rfl, fun i ↦ ?_, fun i hi ↦ ?_⟩
      · rw [seated, hseated, Option.bind_some, hadd]
        rfl
      · change T.amountPh + 1 = _
        unfold maxPh
        omega
      · change update T.state n .thinking i = .thinking
        by_cases hin : i = n
        · rw [hin, update_self]
        · rw [update_of_ne hin]
          exact hthink i
      · obtain ⟨h0, hlt⟩ : 0 ≤ i ∧ i < T.amountPh + 1 := hi
        change update T.philoSem n (some 1) i = some 1
        by_cases hin : i = n
        · rw [hin, update_self]
        · rw [update_of_ne hin]
          apply hsem
          exact ⟨h0, by omega⟩

theorem start_invariant {n : ℕ} (hn : 2 ≤ n) (hseated : seated n = some T) :
    Invariant (start T) := by
  obtain ⟨T', hseated', hamount, -, hthink, hsem⟩ := seated_spec n
  rw [hseated] at hseated'
  cases hseated'
  refine ⟨?_, fun i _ heats ↦ ?_, fun i hi ↦ ⟨hthink i, hsem i hi⟩⟩
  · change 2 ≤ T.amountPh
    unfold maxPh at hamount
    omega
  · exact absurd ((hthink i).symm.trans heats) (by decide)

/-- The state is touched only under the mutex. -/
theorem state_locked {n : ℕ} {tr : List (System × ℤ)} (hseated : seated n = some T)
    (hrun : Run (fun s i s' ↦ advance s i = some s') (start T) tr s) : Always Locked tr s := by
  obtain ⟨T', hseated', -, hmutex, -⟩ := seated_spec n
  rw [hseated] at hseated'
  cases hseated'
  have hstart : Locked (start T) := ⟨Nat.le_of_eq hmutex, nofun⟩
  exact hrun.always (fun _ _ _ h hs ↦ step_locked h hs) (fun _ h ↦ h) hstart

/-- Dining philosophers, at every table for two or more: neighbours do not eat
together as long as nobody goes on from its semaphore unless it was posted. The
semaphores begin at 1. -/
theorem neighbours_exclusive {n : ℕ} {tr : List (System × ℤ)} (hn : 2 ≤ n)
    (hseated : seated n = some T) (hrun : Run (fun s i s' ↦ advance s i = some s') (start T) tr s)
    (hpermitted : ∀ e ∈ tr, Permitted e.1 e.2) : Always Exclusive tr s := by
  have hstep : ∀ a i b, Invariant a → Permitted a i → advance a i = some b → Invariant b :=
    fun _ _ _ h hpermitted hs ↦ step_invariant h hpermitted hs
  exact hrun.always_of hstep (fun _ h ↦ h.exclusive) hpermitted (start_invariant hn hseated)

theorem neighbours_exclusive_two : ∃ T tr s, seated 2 = some T ∧
    Run (fun s i s' ↦ advance s i = some s') (start T) tr s ∧ s.point 0 = .eats ∧
      Always Exclusive tr s := by
  obtain ⟨T, tr, s, hseated, hrun, heats, hpermitted⟩ : ∃ T tr s, seated 2 = some T ∧
      Run (fun s i s' ↦ advance s i = some s') (start T) tr s ∧ s.point 0 = .eats ∧
        ∀ e ∈ tr, Permitted e.1 e.2 := by
    refine ⟨_, _, _, rfl, .cons (i := 0) rfl (.cons (i := 0) rfl (.cons (i := 0) rfl
      (.cons (i := 0) rfl (.cons (i := 0) rfl (.one (i := 0) rfl))))), rfl, ?_⟩
    have hplace : ∀ {s : System}, s.point 0 ≠ .waits → Permitted s 0 :=
      fun hne hwaits ↦ absurd hwaits hne
    simp only [List.forall_mem_cons]
    refine ⟨hplace nofun, hplace nofun, hplace nofun, hplace nofun, hplace nofun, ?_, nofun⟩
    intro _ value hvalue
    cases hvalue
    decide
  exact ⟨T, tr, s, hseated, hrun, heats,
    neighbours_exclusive (Nat.le_refl 2) hseated hrun hpermitted⟩

/-- The second of two passes its semaphore, which was opened with 1, while the
first one eats. -/
theorem both_eat : ∃ T tr s, seated 2 = some T ∧
    Run (fun s i s' ↦ advance s i = some s') (start T) tr s ∧ ¬ Exclusive s := by
  refine ⟨_, _, _, rfl, .cons (i := 0) rfl (.cons (i := 0) rfl (.cons (i := 0) rfl
    (.cons (i := 0) rfl (.cons (i := 0) rfl (.cons (i := 0) rfl (.cons (i := 1) rfl
    (.cons (i := 1) rfl (.cons (i := 1) rfl (.cons (i := 1) rfl (.cons (i := 1) rfl
    (.one (i := 1) rfl))))))))))), fun hexclusive ↦ ?_⟩
  exact (hexclusive 0 ⟨by decide, by decide⟩ rfl).1 rfl

end ShellOS.Userland.PhiloExclusion
