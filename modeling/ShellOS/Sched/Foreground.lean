import ShellOS.Sched.SchedulerRun

namespace ShellOS.Sched.Foreground

open Library.Runs Library.Words Scheduler ProcessList SchedulerRun Function

/-- A foreground process is one other than the shell with priority 1. -/
def InForeground (k : Kernel) (a : ℕ) : Prop := (k.pcb a).pid ≠ 1 ∧ (k.pcb a).priority = 1

def FlagExact (k : Kernel) : Prop :=
  ∀ L, Listed k L → (k.fgTaken = 1 ↔ ∃ a ∈ L, InForeground k a)

def OtherLeft (k : Kernel) (pid : ℕ) : Prop :=
  ∀ L, Listed k L → ∃ a ∈ L, InForeground k a ∧ (k.pcb a).pid ≠ pid

/-- A process of priority 1 that exits leaves no foreground process behind. One
that is killed, or gets another priority, does, if there is any. -/
def Matched (k : Kernel) : Act → Prop
  | .exit => (k.pcb k.currentProcess).priority = 1 → ¬ OtherLeft k (k.pcb k.currentProcess).pid
  | .killPid pid => 1 < pid → k.fgTaken = 1 → OtherLeft k pid
  | .changeProcessPriority pid newPriority =>
      1 < pid → 1 < newPriority → newPriority ≤ 10 → k.fgTaken = 1 → OtherLeft k pid
  | _ => True

variable {k k' : Kernel} {L L' : List ℕ} {act : Act} {pid : ℕ} {c : Create}

theorem flagExact_iff (h : Listed k L) :
    FlagExact k ↔ (k.fgTaken = 1 ↔ ∃ a ∈ L, InForeground k a) :=
  ⟨fun hflag ↦ hflag L h, fun hflag _ hL ↦ h.unique hL ▸ hflag⟩

theorem otherLeft_iff (h : Listed k L) :
    OtherLeft k pid ↔ ∃ a ∈ L, InForeground k a ∧ (k.pcb a).pid ≠ pid :=
  ⟨fun hleft ↦ hleft L h, fun hleft _ hL ↦ h.unique hL ▸ hleft⟩

theorem flagExact_same (h : Listed k L) (h' : Listed k' L') (hflag : FlagExact k)
    (hfg : k'.fgTaken = k.fgTaken)
    (hsame : (∃ a ∈ L', InForeground k' a) ↔ ∃ a ∈ L, InForeground k a) : FlagExact k' := by
  rw [flagExact_iff h', hfg, hsame]
  exact (flagExact_iff h).mp hflag

theorem flagExact_less (h : Listed k L) (h' : Listed k' L') (hflag : FlagExact k)
    (hfg : k'.fgTaken = k.fgTaken)
    (hless : (∃ a ∈ L', InForeground k' a) ↔ ∃ a ∈ L, InForeground k a ∧ (k.pcb a).pid ≠ pid) :
    FlagExact k' ↔ (k.fgTaken = 1 → OtherLeft k pid) := by
  rw [flagExact_iff h', hfg, hless, otherLeft_iff h]
  refine ⟨Iff.mp, fun hleft ↦ ⟨hleft, fun hex ↦ ?_⟩⟩
  obtain ⟨a, ha, hfore, -⟩ := hex
  exact ((flagExact_iff h).mp hflag).mpr ⟨a, ha, hfore⟩

theorem inForeground_congr {a : ℕ} (hpid : (k'.pcb a).pid = (k.pcb a).pid)
    (hpriority : (k'.pcb a).priority = (k.pcb a).priority) :
    InForeground k' a ↔ InForeground k a := by
  rw [InForeground, InForeground, hpid, hpriority]

theorem created_flag (hl : Linked k L) (hnew : c.newNode ∉ L) (hcounter : k.pid ≠ 0)
    (hflag : FlagExact k) (hc : Created k k' c L) : FlagExact k' := by
  have hpid : 1 < k.pid := hl.counter.2 hcounter
  have hfg : k'.fgTaken = if c.priority = 1 ∧ k.pid > 1 then 1 else k.fgTaken :=
    hc.fields.fgTaken
  have hpcb : k'.pcb c.newNode = newPcb c k.pid (k.pcb c.newNode) := by
    rw [hc.pcb, update_self]
  have hnewfore : InForeground k' c.newNode ↔ c.priority = 1 := by
    rw [InForeground, hpcb]
    exact and_iff_right (Nat.ne_of_gt hpid)
  have hold : ∀ a ∈ L, (InForeground k' a ↔ InForeground k a) := by
    intro a ha
    have hpcb : k'.pcb a = k.pcb a := by rw [hc.pcb, update_of_ne (ne_of_mem_of_not_mem ha hnew)]
    exact inForeground_congr (congrArg Pcb.pid hpcb) (congrArg Pcb.priority hpcb)
  rw [flagExact_iff hc.listed, hfg]
  by_cases hone : c.priority = 1
  · rw [if_pos ⟨hone, hpid⟩]
    exact iff_of_true rfl ⟨c.newNode, mem_withNew.mpr (Or.inl rfl), hnewfore.mpr hone⟩
  · rw [if_neg (fun h ↦ hone h.1), (flagExact_iff hl.listed).mp hflag]
    constructor
    · intro hex
      obtain ⟨a, ha, hfore⟩ := hex
      exact ⟨a, mem_withNew.mpr (Or.inr ha), (hold a ha).mpr hfore⟩
    · intro hex
      obtain ⟨a, ha, hfore⟩ := hex
      rcases mem_withNew.mp ha with rfl | ha
      · exact absurd (hnewfore.mp hfore) hone
      · exact ⟨a, ha, (hold a ha).mp hfore⟩

theorem removed_foreground (hr : Removed k k' L pid) :
    (∃ a ∈ L.filter (fun y ↦ (k.pcb y).pid ≠ pid), InForeground k' a) ↔
      ∃ a ∈ L, InForeground k a ∧ (k.pcb a).pid ≠ pid := by
  have hsame : ∀ a, InForeground k' a ↔ InForeground k a := by
    refine fun a ↦ inForeground_congr (hr.pid_eq a) ?_
    rw [hr.pcb]
    split <;> rfl
  simp only [mem_removed, hsame]
  exact exists_congr (fun a ↦ and_right_comm.trans and_assoc)

theorem exited_flag (hl : Linked k L) (hr : Running k L) (hfirst : k.firstProcess = 0)
    (hflag : FlagExact k) (hx : Removed (exitFlag k) k' L (k.pcb k.currentProcess).pid) :
    FlagExact k' ↔ Matched k .exit := by
  have hfore := removed_foreground hx
  have hfg : k'.fgTaken = if (k.pcb k.currentProcess).priority = 1 then 0 else k.fgTaken :=
    hx.fields.fgTaken
  rw [Matched]
  by_cases hone : (k.pcb k.currentProcess).priority = 1
  · rw [if_pos hone] at hfg
    rw [flagExact_iff hx.listed, hfg, hfore, otherLeft_iff hl.listed]
    exact ⟨fun h _ hleft ↦ Nat.zero_ne_one (h.mpr hleft),
      fun h ↦ iff_of_false Nat.zero_ne_one (h hone)⟩
  · rw [if_neg hone] at hfg
    refine iff_of_true (flagExact_same hl.listed hx.listed hflag hfg ?_) (fun h ↦ absurd h hone)
    rw [hfore]
    constructor
    · intro hex
      obtain ⟨a, ha, hfore, -⟩ := hex
      exact ⟨a, ha, hfore⟩
    · intro hex
      obtain ⟨a, ha, hfore⟩ := hex
      refine ⟨a, ha, hfore, fun hpid ↦ ?_⟩
      -- the process that exits is not one of the foreground
      cases hr with
      | boot hf => exact hf hfirst
      | listed _ hc =>
        have heq : a = k.currentProcess := List.inj_on_of_nodup_map hl.pids ha hc hpid
        exact hone (heq ▸ hfore.2)
      | gone _ _ _ hpids => exact hpids a ha hpid

theorem reordered_foreground {x v : ℕ} (hl : Linked k L) (hx : x ∈ L.tail)
    (hxp : (k.pcb x).pid = pid) (hv : 1 < v) (hr : Reordered k k' L x v) :
    (∃ a ∈ moved k x v L, InForeground k' a) ↔
      ∃ a ∈ L, InForeground k a ∧ (k.pcb a).pid ≠ pid := by
  have hmoved : ¬ InForeground k' x := by
    rw [InForeground, hr.pcb, update_self]
    exact fun h ↦ Nat.ne_of_gt hv h.2
  have hother : ∀ a ∈ L, a ≠ x → (InForeground k' a ↔ InForeground k a) ∧ (k.pcb a).pid ≠ pid := by
    intro a ha hax
    have hpcb : k'.pcb a = k.pcb a := by rw [hr.pcb, update_of_ne hax]
    refine ⟨inForeground_congr (congrArg Pcb.pid hpcb) (congrArg Pcb.priority hpcb), fun hpid ↦ ?_⟩
    exact hax (List.inj_on_of_nodup_map hl.pids ha (List.mem_of_mem_tail hx)
      (hpid.trans hxp.symm))
  constructor
  · intro hex
    obtain ⟨a, ha, hfore⟩ := hex
    have ha := (moved_perm hx v).mem_iff.mp ha
    have hax : a ≠ x := fun heq ↦ hmoved (heq ▸ hfore)
    obtain ⟨hsame, hpid⟩ := hother a ha hax
    exact ⟨a, ha, hsame.mp hfore, hpid⟩
  · intro hex
    obtain ⟨a, ha, hfore, hpid⟩ := hex
    have hax : a ≠ x := fun heq ↦ hpid (heq ▸ hxp)
    exact ⟨a, (moved_perm hx v).mem_iff.mpr ha, (hother a ha hax).1.mpr hfore⟩

theorem refused_matched {v : ℕ} (h : Listed k L) (hflag : FlagExact k)
    (hno : pid ≤ 1 ∨ v ≤ 1 ∨ 10 < v ∨ ∀ y ∈ L, (k.pcb y).pid ≠ pid) :
    Matched k (.changeProcessPriority pid v) := by
  intro hpid hlo hhi hfg
  rcases hno with hno | hno | hno | hno
  · omega
  · omega
  · omega
  · obtain ⟨a, ha, hfore⟩ := ((flagExact_iff h).mp hflag).mp hfg
    exact (otherLeft_iff h).mpr ⟨a, ha, hfore, hno a ha⟩

theorem matched_of_ofState (h : OfState act) : Matched k act := by
  cases act <;> trivial

theorem effect_flag (hl : Linked k L) (hr : Running k L) (hflag : FlagExact k)
    (h : Effect k k' L act L') : FlagExact k' ↔ Matched k act := by
  have hl' := (h.linked hl).listed
  cases h with
  | created hdummy hnew hcounter hc =>
    exact iff_of_true (created_flag hl hnew hcounter hflag hc) trivial
  | removed hpid hremoved =>
    have hless := flagExact_less hl.listed hl' hflag hremoved.fields.fgTaken
      (removed_foreground hremoved)
    rw [hless]
    exact ⟨fun h _ ↦ h, fun h ↦ h hpid⟩
  | spared hpid hk =>
    subst hk
    exact iff_of_true hflag (fun h1 ↦ by omega)
  | exited hfirst hdummy hremoved => exact exited_flag hl hr hfirst hflag hremoved
  | reordered hx hxp h1 hlo hhi hreordered =>
    have hless := flagExact_less hl.listed hl' hflag hreordered.fields.fgTaken
      (reordered_foreground hl hx hxp hlo hreordered)
    rw [hless]
    exact ⟨fun h _ _ _ ↦ h, fun h ↦ h h1 hlo hhi⟩
  | refused hno hk =>
    subst hk
    exact iff_of_true hflag (refused_matched hl.listed hflag hno)
  | @state act a v hact hmem hk =>
    subst hk
    have hsame : ∀ y, InForeground (setState k a v) y ↔ InForeground k y := by
      refine fun y ↦ inForeground_congr (setState_pid y v) ?_
      rw [setState_pcb]
      split
      · rename_i h
        rw [h]
      · rfl
    refine iff_of_true (flagExact_same hl.listed hl' hflag rfl ?_) (matched_of_ofState hact)
    simp only [hsame]
  | same hact hk =>
    subst hk
    exact iff_of_true hflag (matched_of_ofState hact)
  | switched hs =>
    refine iff_of_true (flagExact_same hl.listed hl' hflag hs.fgTaken ?_) trivial
    have hsame : ∀ y, InForeground k' y ↔ InForeground k y := by
      refine fun y ↦ inForeground_congr (hs.pid_eq y) ?_
      obtain ⟨aux, sp, hpcb, -⟩ := hs.pcb y
      rw [hpcb]
    simp only [hsame]

theorem started_flag {b : Boot} (h : Started b k) : FlagExact k := by
  rw [flagExact_iff h.linked.listed, h.fgTaken]
  refine iff_of_false Nat.zero_ne_one (fun hex ↦ ?_)
  obtain ⟨a, ha, hpid, -⟩ := hex
  rw [List.mem_singleton.mp ha] at hpid
  exact hpid h.shell.1

/-- In a run in which every step is regular, the flag is exact in every state
if and only if every step is matched. -/
theorem foreground_flag_iff {n : ℕ} {b : Boot} {k₀ : Kernel} {tr : List (Kernel × Act)}
    (hmain : main n b = some k₀) (hrun : Run Step k₀ tr k) (hok : ∀ e ∈ tr, Regular e.1 e.2) :
    Always FlagExact tr k ↔ ∀ e ∈ tr, Matched e.1 e.2 := by
  have hstarted := main_started hmain
  refine (hrun.restrict hok).always_iff (I := Sound) (fun a i b hs _ hstep _ ↦ ?_)
    (fun a i b hs hflag hstep ↦ ?_) hstarted.sound (started_flag hstarted)
  · exact step_sound hs hstep.1 hstep.2
  · obtain ⟨L, hl, hr⟩ := hs
    obtain ⟨L', heffect⟩ := step_effect hl hr hstep.2 hstep.1
    exact effect_flag hl hr hflag heffect

def game : Create := ⟨1, [], 0, 0, 3, 0x3000⟩

def withGame : Kernel × ℤ := (createProcess 2 booted game).getD (booted, 0)

theorem step_game : Step booted (.create game) withGame.1 := by
  refine .create (n := 2) (r := withGame) (by decide) (by decide) (fun L hL ↦ ?_) rfl
  rw [hL.unique booted_listed]
  decide

def playGame : List Act := [.switchProcess 0x7000, .create game, .switchProcess 0x7100]

def playing : Option Kernel :=
  playGame.foldlM (fun k act ↦ if Routine k act then perform 8 k act else none) booted

theorem playing_exits : (playing.bind fun k ↦ (perform 8 k .exit).map fun k' ↦
    ([k.start, k.next 2, k.next 3, k.currentProcess, (k.pcb 2).pid, (k.pcb 3).pid], k'.fgTaken)) =
      some ([2, 3, 0, 3, 1, 2], 0) := by decide +kernel

theorem foreground_flag_game : ∃ tr k, Run Step booted tr k ∧
    tr.map Prod.snd = playGame ++ [.exit] ∧ k.fgTaken = 0 ∧ Always FlagExact tr k := by
  obtain ⟨k, hk, hexits⟩ := Option.bind_eq_some_iff.mp playing_exits
  obtain ⟨k', hexit, heq⟩ := Option.map_eq_some_iff.mp hexits
  simp only [Prod.mk.injEq, List.cons.injEq, and_true] at heq
  obtain ⟨⟨hstart, hsecond, hlast, hcurrent, hshell, hgame⟩, hflag⟩ := heq
  obtain ⟨tr, hrun, hacts, hroutine⟩ := run_of_routine hk
  have hlisted : Listed k [2, 3] := ⟨⟨hstart, hsecond, hlast⟩, by decide, by decide⟩
  have halone : ¬ OtherLeft k (k.pcb k.currentProcess).pid := by
    rw [otherLeft_iff hlisted, hcurrent, hgame]
    rintro ⟨a, ha, hfore, hne⟩
    simp only [List.mem_cons, List.not_mem_nil, or_false] at ha
    rcases ha with rfl | rfl
    · exact hfore.1 hshell
    · exact hne hgame
  have hall := hrun.trans (.one (step_perform hexit))
  refine ⟨_, k', hall, by rw [List.map_append, hacts]; rfl, hflag,
    (foreground_flag_iff main_smallBoot hall fun e he ↦ ?_).mpr fun e he ↦ ?_⟩
  · rcases List.mem_append.mp he with he | he
    · exact (hroutine e he).regular
    · rw [List.mem_singleton.mp he]
      exact trivial
  · rcases List.mem_append.mp he with he | he
    · have hmatched : ∀ act ∈ playGame, ∀ k, Matched k act := by simp [playGame, Matched]
      exact hmatched e.2 (hacts ▸ List.mem_map_of_mem he) e.1
    · rw [List.mem_singleton.mp he]
      exact fun _ ↦ halone

def gameKilled : Kernel := (killPid 3 withGame.1 2).getD booted

theorem gameKilled_listed : Listed gameKilled [2] := ⟨⟨rfl, rfl⟩, by decide, by decide⟩

/-- The flag is still set when the only foreground process was killed. -/
theorem flag_stays : ¬ ∀ n b k₀ tr k, main n b = some k₀ → Run Step k₀ tr k →
    Always FlagExact tr k := by
  intro hall
  have hkill : killPid 3 withGame.1 2 = some gameKilled := rfl
  have hrun : Run Step booted _ gameKilled := .cons step_game (.one (.killPid hkill))
  have hflag := (hall 1 smallBoot booted _ gameKilled main_smallBoot hrun).2
  obtain ⟨a, ha, hfore⟩ := ((flagExact_iff gameKilled_listed).mp hflag).mp rfl
  rw [List.mem_singleton.mp ha] at hfore
  exact hfore.1 rfl

end ShellOS.Sched.Foreground
