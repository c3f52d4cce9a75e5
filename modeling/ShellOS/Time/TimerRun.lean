import ShellOS.Library.Runs
import ShellOS.Time.TimerSpec

namespace ShellOS.Time.TimerRun

open Library.Links Library.Runs Library.Words Function Timer TimerSpec

/-- A call of `sleep`, and the number of ticks before it. -/
structure Sleep where
  process : ℕ
  seconds : ℕ
  since : ℕ

/-- The kernel, every call of `sleep` so far, the newest first, and the number
of ticks so far. -/
structure State where
  kernel : Kernel
  sleeps : List Sleep
  now : ℕ

inductive Op
  | sleep (newNode current seconds : ℕ)
  | tick

def fresh (k : Kernel) (a : ℕ) : Prop := a ≠ 0 ∧ ∀ Q, Queue k Q → a ∉ Q

def step (s : State) (op : Op) (t : State) : Prop :=
  match op with
  | .sleep newNode current seconds =>
    18 * seconds < 2 ^ 32 ∧ fresh s.kernel newNode ∧
      t = ⟨sleep s.kernel newNode current seconds, ⟨current, seconds, s.now⟩ :: s.sleeps, s.now⟩
  | .tick => ∃ fuel k', timerHandler fuel s.kernel = some k' ∧ t = ⟨k', s.sleeps, s.now + 1⟩

def boot (k : Kernel) : State := ⟨k, [], 0⟩

/-- Asleep until the first tick that finds 18 times the seconds elapsed. -/
def Sleep.asleep (now : ℕ) (r : Sleep) : Bool :=
  decide (now < r.since + max 1 (18 * r.seconds))

def Sleep.entry (r : Sleep) : ℕ × ℕ × ℕ := (r.process, r.seconds, u32 r.since)

def entry (k : Kernel) (a : ℕ) : ℕ × ℕ × ℕ :=
  ((k.node a).process, (k.node a).seconds, (k.node a).initialTicks)

/-- The queue holds exactly the sleeps that are not over, the newest first. -/
def Exact (s : State) : Prop :=
  ∃ Q, Queue s.kernel Q ∧
    Q.map (entry s.kernel) = (s.sleeps.filter (Sleep.asleep s.now)).map Sleep.entry

structure Booted (s : State) : Prop where
  queue : ∃ Q, Queue s.kernel Q
  ticks : s.kernel.ticks = s.now % 2 ^ 64
  since : ∀ r ∈ s.sleeps, r.since ≤ s.now ∧ 18 * r.seconds < 2 ^ 32

variable {s t : State} {k k' : Kernel} {Q : List ℕ} {a : ℕ} {op : Op}

theorem booted_boot (hstart : k.start = 0) (hticks : k.ticks = 0) : Booted (boot k) :=
  ⟨⟨[], queue_nil hstart⟩, hticks, by simp [boot]⟩

theorem queue_sleep (current seconds : ℕ) (h : Queue k Q) (ha : fresh k a) :
    Queue (sleep k a current seconds) (a :: Q) ∧
      entry (sleep k a current seconds) a = (current, seconds, u32 k.ticks) ∧
      ∀ x ∈ Q, entry (sleep k a current seconds) x = entry k x := by
  have haQ := ha.2 Q h
  have hne : ∀ x ∈ Q, x ≠ a := fun x hx hxa ↦ haQ (hxa ▸ hx)
  rw [sleep_eq]
  refine ⟨⟨⟨rfl, ?_⟩, ?_, List.nodup_cons.mpr ⟨haQ, h.nodup⟩⟩, ?_, fun x hx ↦ ?_⟩
  · simp only [Kernel.next, update_self]
    refine h.path.congr (fun x hx ↦ ?_)
    simp only [Kernel.next, update_of_ne (hne x hx)]
  · intro h0
    rcases List.mem_cons.mp h0 with h0 | h0
    · exact ha.1 h0.symm
    · exact h.not_null h0
  · simp only [entry, update_self, Kernel.ticksElapsed]
  · simp only [entry, update_of_ne (hne x hx)]

theorem timerHandler_unique {n m : ℕ} {k₁ k₂ : Kernel} (h₁ : timerHandler n k = some k₁)
    (h₂ : timerHandler m k = some k₂) : k₁ = k₂ := by
  have h₁' := handlerLoop_mono (tick k) k.start k.start (Nat.le_max_left n m) _ h₁
  have h₂' := handlerLoop_mono (tick k) k.start k.start (Nat.le_max_right n m) _ h₂
  exact Option.some.inj (h₁'.symm.trans h₂')

theorem Booted.step (hs : Booted s) (h : step s op t) : Booted t := by
  cases op with
  | sleep newNode current seconds =>
    obtain ⟨hsec, hfresh, rfl⟩ := h
    obtain ⟨Q, hQ⟩ := hs.queue
    refine ⟨⟨_, (queue_sleep current seconds hQ hfresh).1⟩, by rw [sleep_eq]; exact hs.ticks,
      fun r hr ↦ ?_⟩
    rcases List.mem_cons.mp hr with rfl | hr
    · exact ⟨Nat.le_refl _, hsec⟩
    · exact hs.since r hr
  | tick =>
    obtain ⟨fuel, k', hk', rfl⟩ := h
    obtain ⟨Q, hQ⟩ := hs.queue
    obtain ⟨k₁, hrun, hsame, hqueue, -⟩ := timerHandler_spec hQ
    obtain rfl : k' = k₁ := timerHandler_unique hk' (hrun _ (Nat.lt_succ_self _))
    refine ⟨hqueue, ?_, fun r hr ↦ ?_⟩
    · rw [hsame.ticks]
      simp only [tick, hs.ticks]
      omega
    · have hsince := hs.since r hr
      exact ⟨Nat.le_succ_of_le hsince.1, hsince.2⟩

theorem due_iff {r : Sleep} (hs : Booted s) (hr : r ∈ s.sleeps) (hasleep : r.asleep s.now = true)
    (hentry : entry s.kernel a = r.entry) :
    due (tick s.kernel) a = !r.asleep (s.now + 1) := by
  obtain ⟨hsince, hsec⟩ := hs.since r hr
  have hlt : s.now < r.since + max 1 (18 * r.seconds) := of_decide_eq_true hasleep
  simp only [entry, Sleep.entry, Prod.mk.injEq] at hentry
  obtain ⟨-, hseconds, hticks⟩ := hentry
  have hsub : u32Sub (tick s.kernel).ticksElapsed (u32 r.since) = s.now + 1 - r.since := by
    simp only [Kernel.ticksElapsed, tick, hs.ticks, u32Sub, u32]
    omega
  simp only [due, Sleep.asleep]
  change decide ((s.kernel.node a).seconds ≤ _ / 18) = _
  rw [← decide_not, decide_eq_decide]
  change _ ≤ u32Sub _ (s.kernel.node a).initialTicks / 18 ↔ _
  rw [hseconds, hticks, hsub, Nat.le_div_iff_mul_le (by decide)]
  omega

theorem map_filter_congr {α β γ : Type} {e : α → γ} {f : β → γ} {p : α → Bool} {q : β → Bool}
    {l : List α} {m : List β} (h : l.map e = m.map f)
    (hpq : ∀ x, ∀ y ∈ m, e x = f y → p x = q y) :
    (l.filter p).map e = (m.filter q).map f := by
  induction l generalizing m with
  | nil =>
    obtain rfl : m = [] := List.map_eq_nil_iff.mp h.symm
    rfl
  | cons x l ih =>
    cases m with
    | nil => cases h
    | cons y m =>
      obtain ⟨hxy, hlm⟩ := List.cons.inj h
      have hp := hpq x y List.mem_cons_self hxy
      have hrest := ih hlm (fun x y hy ↦ hpq x y (List.mem_cons_of_mem _ hy))
      cases hq : q y with
      | false =>
        rw [List.filter_cons_of_neg (by simp [hp, hq]), List.filter_cons_of_neg (by simp [hq])]
        exact hrest
      | true =>
        rw [List.filter_cons_of_pos (by simp [hp, hq]), List.filter_cons_of_pos hq, List.map_cons,
          List.map_cons, hxy, hrest]

theorem filter_asleep_succ (l : List Sleep) (now : ℕ) :
    (l.filter (Sleep.asleep now)).filter (Sleep.asleep (now + 1)) =
      l.filter (Sleep.asleep (now + 1)) := by
  rw [List.filter_filter]
  congr 1
  funext r
  simp only [Sleep.asleep, ← Bool.decide_and, decide_eq_decide]
  omega

def inOrder (s : State) (op : Op) : Prop :=
  op = .tick → ∀ Q, Queue s.kernel Q → Orderly s.kernel Q

theorem exact_step (hs : Booted s) (he : Exact s) (hok : inOrder s op) (h : step s op t) :
    Exact t := by
  obtain ⟨Q, hQ, hentries⟩ := he
  cases op with
  | sleep newNode current seconds =>
    obtain ⟨hsec, hfresh, rfl⟩ := h
    obtain ⟨hQ', hnew, hold⟩ := queue_sleep current seconds hQ hfresh
    refine ⟨_, hQ', ?_⟩
    have hasleep : Sleep.asleep s.now ⟨current, seconds, s.now⟩ = true := by
      simp only [Sleep.asleep, decide_eq_true_eq]
      omega
    rw [List.map_cons, List.map_congr_left hold, hentries, hnew, List.filter_cons_of_pos hasleep,
      List.map_cons, hs.ticks]
    congr 1
    simp only [Sleep.entry, u32, Prod.mk.injEq, true_and]
    omega
  | tick =>
    obtain ⟨fuel, k', hk', rfl⟩ := h
    obtain ⟨k₁, hrun, -, -, hiff⟩ := timerHandler_spec hQ
    obtain rfl : k' = k₁ := timerHandler_unique hk' (hrun _ (Nat.lt_succ_self _))
    have hdone := hiff.mpr (hok rfl Q hQ)
    refine ⟨_, hdone.queue, ?_⟩
    have hsame : entry k' = entry s.kernel := by
      funext a
      simp only [entry, hdone.entries.process, hdone.entries.seconds, hdone.entries.initialTicks,
        tick]
    rw [hsame, ← filter_asleep_succ]
    refine map_filter_congr hentries (fun a r hr hentry ↦ ?_)
    obtain ⟨hr, hasleep⟩ := List.mem_filter.mp hr
    rw [due_iff hs hr hasleep hentry, Bool.not_not]

theorem exact_of_run (hstart : k.start = 0) (hticks : k.ticks = 0) {tr : List (State × Op)}
    (h : Run step (boot k) tr s) (hok : ∀ e ∈ tr, inOrder e.1 e.2) : Booted s ∧ Exact s := by
  have hI : ∀ a i b, Booted a ∧ Exact a → inOrder a i → step a i b → Booted b ∧ Exact b :=
    fun a i b ha hi hab ↦ ⟨ha.1.step hab, exact_step ha.1 ha.2 hi hab⟩
  have hempty : Exact (boot k) := ⟨[], queue_nil hstart, rfl⟩
  exact h.invariant_of (I := fun s ↦ Booted s ∧ Exact s) hI hok
    ⟨booted_boot hstart hticks, hempty⟩

/-- In every state the handler returns, and it does its work exactly if the
entries are in order. In a run whose ticks all find them so, every sleeper is
in the queue up to the first tick that finds its time elapsed, and no longer. -/
theorem timer_queue (hstart : k.start = 0) (hticks : k.ticks = 0) {tr : List (State × Op)}
    (h : Run step (boot k) tr s) :
    (∃ Q, Queue s.kernel Q ∧ ∃ k', (∃ fuel, timerHandler fuel s.kernel = some k') ∧
      (Handled s.kernel k' Q ↔ Orderly s.kernel Q)) ∧
    ((∀ e ∈ tr, inOrder e.1 e.2) → Exact s) := by
  constructor
  · have hbooted : Booted s := h.invariant (fun _ _ _ hs ↦ hs.step) (booted_boot hstart hticks)
    obtain ⟨Q, hQ⟩ := hbooted.queue
    obtain ⟨k', hrun, -, -, hiff⟩ := timerHandler_spec hQ
    exact ⟨Q, hQ, k', ⟨_, hrun _ (Nat.lt_succ_self _)⟩, hiff⟩
  · exact fun hok ↦ (exact_of_run hstart hticks h hok).2

def blank : Kernel := ⟨fun _ ↦ ⟨0, 0, 0, 0⟩, 0, 0, fun _ ↦ 1, id⟩

theorem fresh_blank : fresh blank 8 := by
  refine ⟨by decide, fun Q hQ ↦ ?_⟩
  rw [hQ.unique (queue_nil rfl)]
  exact List.not_mem_nil

theorem queue_one : Queue (sleep blank 8 1 1) [8] :=
  (queue_sleep 1 1 (queue_nil rfl) fresh_blank).1

theorem fresh_one : fresh (sleep blank 8 1 1) 16 := by
  refine ⟨by decide, fun Q hQ ↦ ?_⟩
  rw [hQ.unique queue_one]
  decide

theorem queue_two : Queue (sleep (sleep blank 8 1 1) 16 2 0) [16, 8] :=
  (queue_sleep 2 0 queue_one fresh_one).1

theorem run_one : Run step (boot blank) [(boot blank, .sleep 8 1 1)]
    ⟨sleep blank 8 1 1, [⟨1, 1, 0⟩], 0⟩ :=
  Run.one ⟨by decide, fresh_blank, rfl⟩

theorem orderly_of_one (h : Q.length ≤ 1) : Orderly k Q := by
  cases Q with
  | nil => exact trivial
  | cons a rest =>
    obtain rfl : rest = [] := List.eq_nil_of_length_eq_zero (by simpa using h)
    rw [Orderly]
    split
    · exact fun b hb ↦ absurd hb List.not_mem_nil
    · exact clash_singleton

theorem ticks_run (n : ℕ) : ∃ tr s, Run step (boot blank) tr s ∧ s.now = n ∧
    s.sleeps = [⟨1, 1, 0⟩] ∧ ∀ e ∈ tr, inOrder e.1 e.2 := by
  induction n with
  | zero =>
    refine ⟨_, _, run_one, rfl, rfl, fun e he ↦ ?_⟩
    rw [List.mem_singleton.mp he]
    nofun
  | succ n ih =>
    obtain ⟨tr, s, hrun, hnow, hsleeps, hok⟩ := ih
    obtain ⟨-, Q, hQ, hentries⟩ := exact_of_run rfl rfl hrun hok
    have hlen : Q.length ≤ 1 := by
      have hle := List.length_filter_le (Sleep.asleep s.now) s.sleeps
      rw [hsleeps, List.length_singleton, ← hsleeps] at hle
      rw [← List.length_map (entry s.kernel), hentries, List.length_map]
      exact hle
    obtain ⟨k', hhandler, -⟩ := timerHandler_spec hQ
    have htick : step s .tick ⟨k', s.sleeps, s.now + 1⟩ := ⟨_, k', hhandler _ (Nat.lt_succ_self _), rfl⟩
    refine ⟨_, _, hrun.trans (.one htick), congrArg (· + 1) hnow, hsleeps, fun e he ↦ ?_⟩
    rcases List.mem_append.mp he with he | he
    · exact hok e he
    · rw [List.mem_singleton.mp he]
      intro _ Q' hQ'
      rw [hQ'.unique hQ]
      exact orderly_of_one hlen

theorem timer_queue_one_second :
    ∃ tr s, Run step (boot blank) tr s ∧ s.now = 18 ∧ s.sleeps = [⟨1, 1, 0⟩] ∧ Queue s.kernel [] := by
  obtain ⟨tr, s, hrun, hnow, hsleeps, hok⟩ := ticks_run 18
  obtain ⟨Q, hQ, hentries⟩ := (timer_queue rfl rfl hrun).2 hok
  have hover : s.sleeps.filter (Sleep.asleep s.now) = [] := by
    rw [hnow, hsleeps]
    decide
  rw [hover, List.map_nil, List.map_eq_nil_iff] at hentries
  exact ⟨tr, s, hrun, hnow, hsleeps, hentries ▸ hQ⟩

/-- Process 1 sleeps for a second and process 2 not at all: the first tick
drops them both. -/
theorem sleeper_dropped :
    ¬ ∀ s tr k', Run step (boot blank) tr s → (∃ fuel, timerHandler fuel s.kernel = some k') →
      ∃ Q, Queue s.kernel Q ∧ Handled s.kernel k' Q := by
  intro hall
  have hsecond : step ⟨sleep blank 8 1 1, [⟨1, 1, 0⟩], 0⟩ (.sleep 16 2 0)
      ⟨sleep (sleep blank 8 1 1) 16 2 0, [⟨2, 0, 0⟩, ⟨1, 1, 0⟩], 0⟩ :=
    ⟨by decide, fresh_one, rfl⟩
  obtain ⟨k', hrun, -, -, hiff⟩ := timerHandler_spec queue_two
  obtain ⟨Q, hQ, hdone⟩ :=
    hall _ _ k' (run_one.trans (Run.one hsecond)) ⟨_, hrun _ (Nat.lt_succ_self _)⟩
  rw [hQ.unique queue_two] at hdone
  have horder := hiff.mp hdone
  have hhead : due (tick (sleep (sleep blank 8 1 1) 16 2 0)) 16 = true := by decide
  have hlast : due (tick (sleep (sleep blank 8 1 1) 16 2 0)) 8 = false := by decide
  rw [Orderly, if_pos hhead] at horder
  have hdue := (horder 8 List.mem_cons_self).1
  rw [hlast] at hdue
  cases hdue

end ShellOS.Time.TimerRun
