import ShellOS.Userland.PhiloTable

namespace ShellOS.Userland.PhiloMutex

open Library.Runs Philo PhiloTable Function

def printed (amountPh : ℤ) : List ℤ := (List.range amountPh.toNat).map Nat.cast

/-- The indices into `philos` and `philoSem` that `checkAvailability` uses. Of
its condition only as much is evaluated as decides it. -/
def checked (T : Table) (index : ℤ) : List ℤ :=
  index ::
    if T.state index = .hungry then
      left T.amountPh index ::
        if T.state (left T.amountPh index) ≠ .eating then
          right T.amountPh index ::
            if T.state (right T.amountPh index) ≠ .eating then
              index :: (printed T.amountPh ++ [index])
            else []
        else []
    else []

/-- The indices into `philos` and `philoSem` that an operation uses once it has
the mutex. -/
def accessed (T : Table) : Op → List ℤ
  | .take index => index :: (checked (T.setState index .hungry) index ++ [index])
  | .put index =>
    let T₁ := T.setState index .thinking
    let T₂ := checkAvailability T₁ (left T₁.amountPh index)
    index :: (checked T₁ (left T₁.amountPh index) ++ checked T₂ (right T₂.amountPh index))
  | .add opened =>
    if T.amountPh ≥ maxPh then []
    else if opened = none then [T.amountPh, T.amountPh]
    else [T.amountPh, T.amountPh, T.amountPh]
  | .delete closed =>
    let index := T.amountPh - 1
    if index < 0 ∨ T.amountPh = 0 then []
    else
      let T₁ := { T with philoSem := update T.philoSem index none, amountPh := index }
      index :: index ::
        if closed then
          index ::
            if T.state index = .eating then
              checked T₁ (index - 1) ++ checked (checkAvailability T₁ (index - 1)) 0
            else []
        else []

/-- An operation that returns has given the mutex back, and has stayed in the
table. -/
def Sound (T : Table) (op : Op) : Prop :=
  (∀ T', perform T op = some T' → T'.mutex = T.mutex) ∧
    ∀ i ∈ accessed T op, 0 ≤ i ∧ i ≤ maxPh - 1

/-- The semaphore of a new philosopher opens. That of the one who goes closes,
and this one is not the last at the table while it eats. -/
def Proper (T : Table) : Op → Prop
  | .add opened => T.amountPh < maxPh → opened ≠ none
  | .delete closed =>
    0 < T.amountPh → closed = true ∧ ¬ (T.amountPh = 1 ∧ T.state 0 = .eating)
  | _ => True

variable {T T' : Table} {op : Op} {index i : ℤ}

def Fits (T : Table) : Prop := 0 ≤ T.amountPh ∧ T.amountPh ≤ maxPh

section Indices

theorem Seat.slot (hfits : Fits T) (h : Seat T.amountPh i) : 0 ≤ i ∧ i ≤ maxPh - 1 := by
  obtain ⟨-, hroom⟩ := hfits
  obtain ⟨hpos, hlt⟩ := h
  omega

theorem printed_slot (hfits : Fits T) (h : i ∈ printed T.amountPh) :
    0 ≤ i ∧ i ≤ maxPh - 1 := by
  obtain ⟨n, hn, rfl⟩ := List.mem_map.mp h
  have hlt := List.mem_range.mp hn
  exact Seat.slot hfits ⟨by omega, by omega⟩

theorem checked_slot (hfits : Fits T) (hi : Seat T.amountPh index) (h : i ∈ checked T index) :
    0 ≤ i ∧ i ≤ maxPh - 1 := by
  have hmem : i = index ∨ i = left T.amountPh index ∨ i = right T.amountPh index ∨
      i ∈ printed T.amountPh := by
    unfold checked at h
    split_ifs at h <;> simp only [List.mem_cons, List.mem_append, List.not_mem_nil] at h <;> tauto
  rcases hmem with rfl | rfl | rfl | hprinted
  · exact Seat.slot hfits hi
  · exact Seat.slot hfits hi.left
  · exact Seat.slot hfits hi.right
  · exact printed_slot hfits hprinted

theorem checked_self (T : Table) (index : ℤ) : index ∈ checked T index := List.mem_cons_self

theorem Fits.check (hfits : Fits T) (index : ℤ) : Fits (checkAvailability T index) := by
  unfold Fits
  rwa [checkAvailability_amountPh]

theorem delete_slot_iff (hfits : Fits T) :
    (∀ i ∈ checked T (T.amountPh - 1) ++
        checked (checkAvailability T (T.amountPh - 1)) 0, 0 ≤ i ∧ i ≤ maxPh - 1) ↔
      T.amountPh ≠ 0 := by
  have hpos := hfits.1
  constructor
  · intro hslot hnone
    have hlast := hslot _ (List.mem_append_left _ (checked_self T (T.amountPh - 1)))
    omega
  · intro hsome i hi
    rcases List.mem_append.mp hi with hi | hi
    · exact checked_slot hfits ⟨by omega, by omega⟩ hi
    · apply checked_slot (hfits.check _) _ hi
      rw [checkAvailability_amountPh]
      exact ⟨Int.le_refl 0, by omega⟩

end Indices

section Mutex

theorem unlock_lock (h : T.mutex ≠ 0) : T.mutex - 1 + 1 = T.mutex :=
  Nat.sub_add_cancel (Nat.pos_of_ne_zero h)

theorem locked_mutex {f : Table → Table} (hf : ∀ T, (f T).mutex = T.mutex + 1)
    (h : (lock T).map f = some T') : T'.mutex = T.mutex := by
  obtain ⟨T₁, hlock, rfl⟩ := Option.map_eq_some_iff.mp h
  obtain ⟨hne, rfl⟩ := lock_cases hlock
  rw [hf]
  exact unlock_lock hne

theorem addPh_mutex_iff {opened : Option ℕ} {r : ℤ} (h : addPh T index opened = some (T', r)) :
    T'.mutex = T.mutex ↔ (index < maxPh → opened ≠ none) := by
  unfold addPh at h
  split at h
  · rename_i hfull
    cases h
    exact iff_of_true rfl (fun hroom ↦ absurd hfull (Int.not_le.mpr hroom))
  rename_i hroom
  obtain ⟨T₁, hlock, hret⟩ := Option.map_eq_some_iff.mp h
  obtain ⟨hne, rfl⟩ := lock_cases hlock
  split at hret
  · rename_i hnone
    cases hret
    refine iff_of_false ?_ (fun hopens ↦ hopens (Int.not_le.mp hroom) hnone)
    change T.mutex - 1 ≠ T.mutex
    omega
  · rename_i hopens
    cases hret
    exact iff_of_true (unlock_lock hne) (fun _ ↦ hopens)

theorem deletePh_mutex_iff {closed : Bool} {r : ℤ}
    (h : deletePh T (T.amountPh - 1) closed = some (T', r)) :
    T'.mutex = T.mutex ↔ (0 < T.amountPh → closed = true) := by
  unfold deletePh at h
  split at h
  · rename_i hnone
    cases h
    exact iff_of_true rfl (fun hsome ↦ by omega)
  rename_i hsome
  obtain ⟨T₁, hlock, hret⟩ := Option.map_eq_some_iff.mp h
  obtain ⟨hne, rfl⟩ := lock_cases hlock
  cases closed with
  | false =>
    cases hret
    refine iff_of_false ?_ (fun hcloses ↦ Bool.false_ne_true (hcloses (by omega)))
    change T.mutex - 1 ≠ T.mutex
    omega
  | true =>
    cases hret
    refine iff_of_true ?_ (fun _ ↦ rfl)
    have hkept := unlock_lock hne
    split <;> simpa [unlock] using hkept

end Mutex

section Step

theorem addPh_fits (hfits : Fits T) {opened : Option ℕ} {r : ℤ}
    (h : addPh T T.amountPh opened = some (T', r)) : Fits T' := by
  obtain ⟨hpos, hmax⟩ := hfits
  unfold addPh at h
  split at h
  · cases h
    exact ⟨hpos, hmax⟩
  rename_i hroom
  obtain hret := lock_map h
  split at hret
  · cases hret
    exact ⟨hpos, hmax⟩
  · cases hret
    change 0 ≤ T.amountPh + 1 ∧ T.amountPh + 1 ≤ maxPh
    omega

theorem deletePh_fits (hfits : Fits T) {closed : Bool} {r : ℤ}
    (h : deletePh T (T.amountPh - 1) closed = some (T', r)) : Fits T' := by
  obtain ⟨hpos, hmax⟩ := hfits
  unfold deletePh at h
  split at h
  · cases h
    exact ⟨hpos, hmax⟩
  rename_i hsome
  obtain hret := lock_map h
  cases closed with
  | false =>
    cases hret
    exact ⟨hpos, hmax⟩
  | true =>
    cases hret
    let T₁ : Table := { T with
      mutex := T.mutex - 1
      philoSem := update T.philoSem (T.amountPh - 1) none
      amountPh := T.amountPh - 1 }
    have hfits₁ : Fits T₁ := by
      change 0 ≤ T.amountPh - 1 ∧ T.amountPh - 1 ≤ maxPh
      omega
    split
    · exact (hfits₁.check (T.amountPh - 1 - 1)).check 0
    · exact hfits₁

theorem perform_fits (hfits : Fits T) (hop : perform T op = some T') : Fits T' := by
  cases op with
  | take index =>
    obtain ⟨hi, htake⟩ := Option.ite_none_right_eq_some.mp hop
    obtain rfl := lock_map htake
    have hlocked : Fits (Table.setState { T with mutex := T.mutex - 1 } index .hungry) := hfits
    exact hlocked.check index
  | put index =>
    obtain ⟨hi, hput⟩ := Option.ite_none_right_eq_some.mp hop
    obtain rfl := lock_map hput
    have hlocked : Fits (Table.setState { T with mutex := T.mutex - 1 } index .thinking) := hfits
    exact (hlocked.check _).check _
  | add opened =>
    obtain ⟨⟨T₁, r⟩, hadd, rfl⟩ := Option.map_eq_some_iff.mp hop
    exact addPh_fits hfits hadd
  | delete closed =>
    obtain ⟨⟨T₁, r⟩, hdelete, rfl⟩ := Option.map_eq_some_iff.mp hop
    exact deletePh_fits hfits hdelete

theorem sound_of_returns (hop : perform T op = some T') :
    Sound T op ↔ T'.mutex = T.mutex ∧ ∀ i ∈ accessed T op, 0 ≤ i ∧ i ≤ maxPh - 1 := by
  unfold Sound
  rw [hop]
  simp only [Option.some.injEq, forall_eq']

theorem take_sound (hfits : Fits T) (hop : perform T (.take index) = some T') :
    Sound T (.take index) := by
  rw [sound_of_returns hop]
  obtain ⟨hi, htake⟩ := Option.ite_none_right_eq_some.mp hop
  refine ⟨locked_mutex (fun T ↦ congrArg (· + 1) checkAvailability_mutex) htake, ?_⟩
  intro i hmem
  have hseat := Seat.slot hfits hi
  simp only [accessed, List.mem_cons, List.mem_append, List.not_mem_nil, or_false] at hmem
  rcases hmem with rfl | hcheck | rfl
  · exact hseat
  · exact checked_slot (T := T.setState index .hungry) hfits hi hcheck
  · exact hseat

theorem put_sound (hfits : Fits T) (hop : perform T (.put index) = some T') :
    Sound T (.put index) := by
  rw [sound_of_returns hop]
  obtain ⟨hi, hput⟩ := Option.ite_none_right_eq_some.mp hop
  refine ⟨locked_mutex (fun T ↦ ?_) hput, ?_⟩
  · simp only [unlock, checkAvailability_mutex, Table.setState]
  intro i hmem
  let T₁ := T.setState index .thinking
  have hfits₁ : Fits T₁ := hfits
  simp only [accessed, List.mem_cons, List.mem_append] at hmem
  rcases hmem with rfl | hleft | hright
  · exact Seat.slot hfits hi
  · exact checked_slot hfits₁ (Seat.left hi) hleft
  · apply checked_slot (hfits₁.check _) _ hright
    rw [checkAvailability_amountPh]
    exact Seat.right hi

theorem add_sound_iff (hfits : Fits T) {opened : Option ℕ}
    (hop : perform T (.add opened) = some T') : Sound T (.add opened) ↔ Proper T (.add opened) := by
  rw [sound_of_returns hop]
  obtain ⟨⟨T₁, r⟩, hadd, rfl⟩ := Option.map_eq_some_iff.mp hop
  have hslots : ∀ i ∈ accessed T (.add opened), 0 ≤ i ∧ i ≤ maxPh - 1 := by
    intro i hi
    have hpos := hfits.1
    simp only [accessed] at hi
    split_ifs at hi <;>
      simp only [List.mem_cons, List.not_mem_nil, or_false, or_self] at hi <;> omega
  rw [and_iff_left hslots]
  exact addPh_mutex_iff hadd

theorem delete_slots_iff (hfits : Fits T) (closed : Bool) :
    (∀ i ∈ accessed T (.delete closed), 0 ≤ i ∧ i ≤ maxPh - 1) ↔
      (closed = true → ¬ (T.amountPh = 1 ∧ T.state 0 = .eating)) := by
  obtain ⟨hpos, hmax⟩ := hfits
  by_cases hnone : T.amountPh - 1 < 0 ∨ T.amountPh = 0
  · have hempty : accessed T (.delete closed) = [] := if_pos hnone
    rw [hempty]
    refine iff_of_true (by simp) (fun _ hone ↦ ?_)
    omega
  have hlast : 0 ≤ T.amountPh - 1 ∧ T.amountPh - 1 ≤ maxPh - 1 := by omega
  simp only [accessed, if_neg hnone, List.forall_mem_cons, hlast, true_and, and_self]
  cases closed with
  | false => simp
  | true =>
    by_cases heats : T.state (T.amountPh - 1) = .eating
    · let T₁ : Table := { T with
        philoSem := update T.philoSem (T.amountPh - 1) none
        amountPh := T.amountPh - 1 }
      have hfits₁ : Fits T₁ := by
        change 0 ≤ T.amountPh - 1 ∧ T.amountPh - 1 ≤ maxPh
        omega
      have hslots := delete_slot_iff hfits₁
      simp only [if_true, if_pos heats, List.forall_mem_cons, hlast, and_self, true_and,
        forall_true_left]
      refine hslots.trans ⟨fun hsome hone ↦ hsome ?_, fun hone hzero ↦ hone ?_⟩
      · change T.amountPh - 1 = 0
        omega
      · have hamount : T.amountPh = 1 := by
          change T.amountPh - 1 = 0 at hzero
          omega
        rw [hamount] at heats
        exact ⟨hamount, heats⟩
    · simp only [if_true, if_neg heats, List.forall_mem_cons, hlast, and_self, true_and,
        forall_true_left]
      refine iff_of_true (by simp) (fun ⟨hone, hfirst⟩ ↦ heats ?_)
      rwa [hone]

theorem delete_sound_iff (hfits : Fits T) {closed : Bool}
    (hop : perform T (.delete closed) = some T') :
    Sound T (.delete closed) ↔ Proper T (.delete closed) := by
  rw [sound_of_returns hop, delete_slots_iff hfits]
  obtain ⟨⟨T₁, r⟩, hdelete, rfl⟩ := Option.map_eq_some_iff.mp hop
  rw [deletePh_mutex_iff hdelete]
  constructor
  · intro ⟨hcloses, hslots⟩ hsome
    exact ⟨hcloses hsome, hslots (hcloses hsome)⟩
  · intro hproper
    refine ⟨fun hsome ↦ (hproper hsome).1, fun _ hone ↦ ?_⟩
    exact (hproper (by rw [hone.1]; decide)).2 hone

theorem perform_sound_iff (hfits : Fits T) (hop : perform T op = some T') :
    Sound T op ↔ Proper T op := by
  cases op with
  | take index => exact iff_of_true (take_sound hfits hop) trivial
  | put index => exact iff_of_true (put_sound hfits hop) trivial
  | add opened => exact add_sound_iff hfits hop
  | delete closed => exact delete_sound_iff hfits hop

end Step

/-- The operations of a run give the mutex back and stay in the table as long
as every semaphore opens and closes, and the last philosopher does not go while
it eats. -/
theorem table_sound_iff {tr : List (Table × Op)}
    (hrun : Run (fun T op T' ↦ perform T op = some T') boot tr T) :
    (∀ e ∈ tr, Sound e.1 e.2) ↔ ∀ e ∈ tr, Proper e.1 e.2 := by
  have hkeeps : ∀ (a : Table) (op : Op) (b : Table), Fits a → Proper a op →
      perform a op = some b → Fits b := fun _ _ _ hfits _ hop ↦ perform_fits hfits hop
  have hstep : ∀ (a : Table) (op : Op) (b : Table), Fits a → perform a op = some b →
      (Sound a op ↔ Proper a op) := fun _ _ _ hfits hop ↦ perform_sound_iff hfits hop
  exact hrun.steps_iff hkeeps hstep ⟨Int.le_refl 0, by decide⟩

theorem table_sound_two : ∃ tr T, Run (fun T op T' ↦ perform T op = some T') boot tr T ∧
    T.amountPh = 1 ∧ T.mutex = 1 ∧ ∀ e ∈ tr, Sound e.1 e.2 := by
  obtain ⟨tr, T, hrun, hamount, hmutex, hproper⟩ : ∃ tr T,
      Run (fun T op T' ↦ perform T op = some T') boot tr T ∧ T.amountPh = 1 ∧ T.mutex = 1 ∧
        ∀ e ∈ tr, Proper e.1 e.2 := by
    refine ⟨_, _, .cons (i := .add (some 1)) rfl (.cons (i := .add (some 1)) rfl
      (.cons (i := .take 1) rfl (.one (i := .delete true) rfl))), rfl, rfl, ?_⟩
    simp only [List.forall_mem_cons]
    exact ⟨fun _ ↦ nofun, fun _ ↦ nofun, trivial, fun _ ↦ ⟨rfl, by decide⟩, by simp⟩
  exact ⟨tr, T, hrun, hamount, hmutex, (table_sound_iff hrun).mpr hproper⟩

/-- The semaphore of the first philosopher does not open, and the mutex stays
taken. -/
theorem mutex_kept_by_addPh : ¬ ∀ tr T, Run (fun T op T' ↦ perform T op = some T') boot tr T →
    ∀ e ∈ tr, Sound e.1 e.2 := by
  intro hall
  have hrun : Run (fun T op T' ↦ perform T op = some T') boot [(boot, .add none)] _ :=
    .one rfl
  have hsound := (hall _ _ hrun (boot, .add none) List.mem_cons_self).1 _ rfl
  exact absurd hsound (by decide)

end ShellOS.Userland.PhiloMutex
