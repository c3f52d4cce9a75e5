import ShellOS.Asm.InitProcess
import ShellOS.Asm.Interrupt
import ShellOS.Library.Copying
import ShellOS.Sched.Context

namespace ShellOS.System.Preemption

open Library.Bytes Library.Copying Library.Runs Asm Asm.Processor Asm.Processor.Cpu Asm.Interrupt
open Sched Sched.Scheduler Sched.SchedulerRun Sched.Context Function

/-- `irqHandlerMaster 0` from the return of `switchProcess` on. -/
def timerEnd (k : Cpu) (rax : Word) : Cpu := leave (if rax = 0 then k else { k with rsp := rax })

def firstThread (d : Cpu) : Thread :=
  ⟨InitProcess.firstRegisters d.reg.rdx d.reg.rcx, d.reg.rdi - 8, d.reg.rsi, 0x202, 0x8, 0⟩

/-- `initProcess` was called in the state `d` for the stack that ends at `top`,
and has left the words there. -/
structure Built (m : Memory) (top : ℕ) (d : Cpu) : Prop where
  room : 160 < top ∧ top < 2 ^ 64
  rdi : d.reg.rdi = BitVec.ofNat 64 top
  words : ∀ x ∈ span (InitProcess.initProcess d).reg.rax 160, m x = (InitProcess.initProcess d).mem x

structure Computer where
  cpu : Cpu
  kernel : Kernel

/-- Between two timer interrupts the running process, with the system calls
that it makes, leaves the processor in any state, and so do the calls on the
processes. The handlers leave a memory behind. `create` has the states in which
`initProcess` is called and in which the process goes on. -/
inductive Event
  | work (c : Cpu)
  | call (act : Act) (c : Cpu)
  | create (a : Create) (d c : Cpu)
  | keyboard (mem : Memory)
  | timer (mem : Memory)

def Other : Act → Prop
  | .create _ | .switchProcess _ => False
  | _ => True

def Enabled (c : Cpu) : Prop := c.rflags ||| interruptFlag = c.rflags

section Defs

variable (handler : Word)

inductive Step : Computer → Event → Computer → Prop
  | work {s : Computer} {c : Cpu} : Step s (.work c) ⟨c, s.kernel⟩
  | call {s : Computer} {act : Act} {c : Cpu} {k : Kernel} :
      Other act → SchedulerRun.Step s.kernel act k → Step s (.call act c) ⟨c, k⟩
  | create {s : Computer} {a : Create} {d c : Cpu} {k : Kernel} :
      SchedulerRun.Step s.kernel (.create a) k →
      Built c.mem (a.processMemory + defaultProgramSize) d → Step s (.create a d c) ⟨c, k⟩
  | keyboard {s : Computer} {mem : Memory} : Enabled s.cpu →
      Step s (.keyboard mem)
        ⟨leave { enter handler s.cpu with mem := mem }, s.kernel⟩
  | timer {s : Computer} {mem : Memory} {n : ℕ} {r : Kernel × ℕ} : Enabled s.cpu →
      switchProcess n s.kernel (enter handler s.cpu).rsp.toNat = some r →
      Step s (.timer mem)
        ⟨timerEnd { enter handler s.cpu with mem := mem } (BitVec.ofNat 64 r.2), r.1⟩

/-- What an observer of the processor knows, with the thread of each process as
it would be if every process had a processor of its own. -/
structure Observed where
  contexts : Contexts
  thread : ℕ → Thread

def worked (g : Contexts) (threads : ℕ → Thread) (c : Cpu) : ℕ → Thread :=
  g.running.elim threads fun p ↦ update threads p (thread c)

def record (g : Observed) (s : Computer) (e : Event) (s' : Computer) : Observed where
  contexts := match e with
    | .call act _ => note g.contexts s.kernel act s'.kernel
    | .create a _ _ => note g.contexts s.kernel (.create a) s'.kernel
    | .timer _ =>
      note g.contexts s.kernel (.switchProcess (enter handler s.cpu).rsp.toNat) s'.kernel
    | _ => g.contexts
  thread := match e with
    | .work c | .call _ c => worked g.contexts g.thread c
    | .create _ d c => worked g.contexts (update g.thread s.kernel.pid (firstThread d)) c
    | _ => g.thread

/-- The bytes that hold the threads of the processes that do not run. -/
def asleep (g : Contexts) : Set Word :=
  {x | ∃ p, (p = 0 ∨ p ∈ g.live) ∧ g.running ≠ some p ∧ x ∈ span (BitVec.ofNat 64 (g.saved p)) 160}

/-- Nobody writes where the threads of the others are, the interrupted stack
has room for its own beside them and does not begin at `NULL`. -/
def Polite (g : Contexts) (s : Computer) : Event → Prop
  | .work c => ∀ x ∈ asleep g, c.mem x = s.cpu.mem x
  | .call act c => ∀ x ∈ asleep (note g s.kernel act s.kernel), c.mem x = s.cpu.mem x
  | .create _ _ c => ∀ x ∈ asleep g, c.mem x = s.cpu.mem x
  | .keyboard mem | .timer mem => (enter handler s.cpu).rsp ≠ 0 ∧
      Disjoint (asleep g) (span (enter handler s.cpu).rsp 160) ∧
      ∀ x ∈ asleep g ∪ span (enter handler s.cpu).rsp 160, mem x = (enter handler s.cpu).mem x

def acts (s : Computer) : Event → List Act
  | .work _ | .keyboard _ => []
  | .call act _ => [act]
  | .create a _ _ => [.create a]
  | .timer _ => [.switchProcess (enter handler s.cpu).rsp.toNat]

def Good (s : Computer × Observed) (e : Event) : Prop :=
  Polite handler s.2.contexts s.1 e ∧
    ∀ act ∈ acts handler s.1 e, Regular s.1.kernel act ∧ OwnNode s.1.kernel act

end Defs

def Faithful (s : Computer × Observed) : Prop :=
  ∀ p, s.2.contexts.running = some p → s.1.cpu = (s.2.thread p).run s.1.cpu.mem

structure Saved (m : Memory) (sp : Word) (t : Thread) : Prop where
  stacked : Stacked m sp t.words
  ne_null : sp ≠ 0

variable {handler sp : Word} {c d k : Cpu} {t : Thread} {m m' : Memory} {s s' : Computer}
  {g : Observed} {e : Event} {act : Act}

theorem Saved.congr (h : Saved m sp t) (hm : ∀ x ∈ span sp 160, m' x = m x) : Saved m' sp t := by
  refine ⟨h.stacked.congr ?_ ?_, h.ne_null⟩ <;> rw [t.length_words]
  · decide
  · exact hm

theorem Built.saved {top : ℕ} (h : Built m top d) :
    Saved m (BitVec.ofNat 64 (initProcess top)) (firstThread d) := by
  obtain ⟨hroom, htop⟩ := h.room
  have hrax : (InitProcess.initProcess d).reg.rax = BitVec.ofNat 64 (initProcess top) := by
    rw [InitProcess.initProcess_rax, h.rdi]
    unfold initProcess
    bv_omega
  have hwords := InitProcess.initProcess_stacked d
  have hkept := h.words
  rw [hrax] at hwords hkept
  refine ⟨hwords.congr ?_ hkept, ?_⟩
  · simp [Registers.saved]
  · unfold initProcess
    bv_omega

/-- The threads of all processes: that of the running one is in the processor,
the others' are on their stacks. -/
structure Holds (s : Computer) (g : Observed) : Prop where
  tracked : ∃ L, Tracked s.kernel L g.contexts
  running : ∀ p, g.contexts.running = some p → thread s.cpu = g.thread p
  asleep : ∀ p, p = 0 ∨ p ∈ g.contexts.live → g.contexts.running ≠ some p →
    Saved s.cpu.mem (BitVec.ofNat 64 (g.contexts.saved p)) (g.thread p)

section Contexts

variable {q : Contexts} {threads : ℕ → Thread} {p : ℕ} {kernel kernel' : Kernel}

theorem worked_running (h : q.running = some p) : worked q threads c p = thread c := by
  rw [worked, h, Option.elim_some, update_self]

theorem worked_of_ne (h : q.running ≠ some p) : worked q threads c p = threads p := by
  unfold worked
  cases hrunning : q.running with
  | none => rfl
  | some r =>
    rw [hrunning] at h
    exact update_of_ne (fun heq ↦ h (congrArg some heq.symm)) _ _

theorem note_other (h : Other act) : note q kernel act kernel' =
    ⟨q.running, q.saved, ListOrder.liveStep q.live (kernel, act)⟩ := by
  cases act with
  | create _ | switchProcess _ => exact h.elim
  | _ => rfl

theorem liveStep_other (h : Other act) {P : List ℕ}
    (hp : p ∈ ListOrder.liveStep P (kernel, act)) : p ∈ P := by
  cases act with
  | create _ | switchProcess _ => exact h.elim
  | killPid pid =>
    change p ∈ if 1 < pid then P.filter (· ≠ pid) else P at hp
    split at hp
    · exact List.mem_of_mem_filter hp
    · exact hp
  | exit => exact List.mem_of_mem_filter hp
  | _ => exact hp

theorem span_asleep (hp : p = 0 ∨ p ∈ q.live) (hne : q.running ≠ some p) {x : Word}
    (hx : x ∈ span (BitVec.ofNat 64 (q.saved p)) 160) : x ∈ asleep q := ⟨p, hp, hne, hx⟩

end Contexts

section Steps

variable {mem : Memory}

theorem Holds.work (h : Holds s g) (hpolite : Polite handler g.contexts s (.work c)) :
    Holds ⟨c, s.kernel⟩ (record handler g s (.work c) ⟨c, s.kernel⟩) := by
  refine ⟨h.tracked, fun p hp ↦ (worked_running hp).symm, fun p hp hne ↦ ?_⟩
  change g.contexts.running ≠ some p at hne
  change Saved c.mem _ (worked g.contexts g.thread c p)
  rw [worked_of_ne hne]
  exact (h.asleep p hp hne).congr fun x hx ↦ hpolite x (span_asleep hp hne hx)

theorem Holds.call {kernel : Kernel} (h : Holds s g) (hother : Other act)
    (hs : SchedulerRun.Step s.kernel act kernel) (hregular : Regular s.kernel act)
    (hown : OwnNode s.kernel act) (hpolite : Polite handler g.contexts s (.call act c)) :
    Holds ⟨c, kernel⟩ (record handler g s (.call act c) ⟨c, kernel⟩) := by
  obtain ⟨L, htracked⟩ := h.tracked
  have hpolite : ∀ x ∈ Preemption.asleep (note g.contexts s.kernel act s.kernel),
      c.mem x = s.cpu.mem x := hpolite
  rw [note_other hother] at hpolite
  refine ⟨htracked.step hregular hown hs, fun p hp ↦ ?_, fun p hp hne ↦ ?_⟩
  · change (note g.contexts s.kernel act kernel).running = some p at hp
    rw [note_other hother] at hp
    exact (worked_running hp).symm
  · change p = 0 ∨ p ∈ (note g.contexts s.kernel act kernel).live at hp
    change (note g.contexts s.kernel act kernel).running ≠ some p at hne
    change Saved c.mem (BitVec.ofNat 64 ((note g.contexts s.kernel act kernel).saved p))
      (worked g.contexts g.thread c p)
    rw [note_other hother] at hp hne ⊢
    change g.contexts.running ≠ some p at hne
    rw [worked_of_ne hne]
    have hbefore : p = 0 ∨ p ∈ g.contexts.live := hp.imp_right (liveStep_other hother)
    exact (h.asleep p hbefore hne).congr fun x hx ↦ hpolite x ⟨p, hp, hne, hx⟩

theorem Holds.create {kernel : Kernel} {a : Create} (h : Holds s g)
    (hs : SchedulerRun.Step s.kernel (.create a) kernel)
    (hbuilt : Built c.mem (a.processMemory + defaultProgramSize) d)
    (hregular : Regular s.kernel (.create a)) (hown : OwnNode s.kernel (.create a))
    (hpolite : Polite handler g.contexts s (.create a d c)) :
    Holds ⟨c, kernel⟩ (record handler g s (.create a d c) ⟨c, kernel⟩) := by
  obtain ⟨L, htracked⟩ := h.tracked
  refine ⟨htracked.step hregular hown hs, fun p hp ↦ (worked_running hp).symm, fun p hp hne ↦ ?_⟩
  change g.contexts.running ≠ some p at hne
  change p = 0 ∨ p ∈ s.kernel.pid :: g.contexts.live at hp
  change Saved c.mem (BitVec.ofNat 64 (update g.contexts.saved s.kernel.pid
    (initProcess (a.processMemory + defaultProgramSize)) p))
    (worked g.contexts (update g.thread s.kernel.pid (firstThread d)) c p)
  rw [worked_of_ne hne]
  by_cases hnew : p = s.kernel.pid
  · rw [hnew, update_self, update_self]
    exact hbuilt.saved
  · rw [update_of_ne hnew, update_of_ne hnew]
    have hbefore : p = 0 ∨ p ∈ g.contexts.live :=
      hp.imp_right fun hmem ↦ (List.mem_cons.mp hmem).resolve_left hnew
    exact (h.asleep p hbefore hne).congr fun x hx ↦ hpolite x (span_asleep hbefore hne hx)

theorem Holds.entered (h : Holds s g)
    (hpolite : Polite handler g.contexts s (.timer mem)) :
    Saved mem (enter handler s.cpu).rsp (thread s.cpu) ∧
      ∀ p, p = 0 ∨ p ∈ g.contexts.live → g.contexts.running ≠ some p →
        Saved mem (BitVec.ofNat 64 (g.contexts.saved p)) (g.thread p) := by
  obtain ⟨hnull, hapart, hmem⟩ := hpolite
  obtain ⟨hstacked, houtside⟩ := enter_spec handler s.cpu
  have hsaved : Saved (enter handler s.cpu).mem (enter handler s.cpu).rsp (thread s.cpu) :=
    ⟨hstacked, hnull⟩
  refine ⟨hsaved.congr fun x hx ↦ hmem x (Or.inr hx), fun p hp hne ↦ ?_⟩
  refine (h.asleep p hp hne).congr fun x hx ↦ ?_
  have hx := span_asleep hp hne hx
  rw [hmem x (Or.inl hx), houtside x (Set.disjoint_left.mp hapart hx)]

theorem Holds.keyboard (h : Holds s g)
    (hpolite : Polite handler g.contexts s (.keyboard mem)) :
    Holds ⟨leave { enter handler s.cpu with mem := mem }, s.kernel⟩ g := by
  obtain ⟨-, hothers⟩ := h.entered hpolite
  rw [leave_enter fun x hx ↦ hpolite.2.2 x (Or.inr hx)]
  exact ⟨h.tracked, h.running, hothers⟩

theorem timerEnd_saved (h : Saved k.mem sp t) : timerEnd k sp = t.run k.mem := by
  rw [timerEnd, if_neg h.ne_null]
  exact leave_words (k := { k with rsp := sp }) h.stacked

theorem Holds.timer {n : ℕ} {r : Kernel × ℕ} (h : Holds s g)
    (hs : switchProcess n s.kernel (enter handler s.cpu).rsp.toNat = some r)
    (hpolite : Polite handler g.contexts s (.timer mem)) :
    Holds ⟨timerEnd { enter handler s.cpu with mem := mem } (BitVec.ofNat 64 r.2), r.1⟩
      ⟨note g.contexts s.kernel (.switchProcess (enter handler s.cpu).rsp.toNat) r.1, g.thread⟩ := by
  obtain ⟨L, htracked⟩ := h.tracked
  obtain ⟨hself, hothers⟩ := h.entered hpolite
  let notes := note g.contexts s.kernel (.switchProcess (enter handler s.cpu).rsp.toNat) r.1
  have hall : ∀ p, p = 0 ∨ p ∈ g.contexts.live →
      Saved mem (BitVec.ofNat 64 (notes.saved p)) (g.thread p) := by
    intro p hp
    change Saved mem (BitVec.ofNat 64 (g.contexts.running.elim g.contexts.saved
      (fun q ↦ update g.contexts.saved q (enter handler s.cpu).rsp.toNat) p)) _
    cases hrunning : g.contexts.running with
    | none => exact hothers p hp (by rw [hrunning]; nofun)
    | some q =>
      rw [Option.elim_some]
      by_cases hpq : p = q
      · rw [hpq, update_self, BitVec.ofNat_toNat, BitVec.setWidth_eq, ← h.running q hrunning]
        exact hself
      · rw [update_of_ne hpq]
        exact hothers p hp (by rw [hrunning]; exact fun heq ↦ hpq (Option.some.inj heq).symm)
  obtain ⟨hret, hlive⟩ := htracked.intact _ n r hs
  have hback : timerEnd { enter handler s.cpu with mem := mem } (BitVec.ofNat 64 r.2) =
      (g.thread (r.1.pcb r.1.currentProcess).pid).run mem := by
    rw [hret]
    exact timerEnd_saved (hall _ hlive)
  refine ⟨⟨L, htracked.switched hs⟩, fun p hp ↦ ?_, fun p hp _ ↦ ?_⟩
  · cases hp
    rw [hback]
    rfl
  · rw [hback]
    exact hall p hp

theorem step_holds {a b : Computer × Observed} (h : Holds a.1 a.2) (hgood : Good handler a e)
    (hs : Noted (Step handler) (record handler) a e b) : Holds b.1 b.2 := by
  obtain ⟨s, g⟩ := a
  obtain ⟨s', g'⟩ := b
  obtain ⟨hpolite, hacts⟩ := hgood
  obtain ⟨hs, hrecord⟩ := hs
  change Step handler s e s' at hs
  change g' = record handler g s e s' at hrecord
  rw [hrecord]
  cases hs with
  | work => exact h.work hpolite
  | call hother hcall =>
    obtain ⟨hregular, hown⟩ := hacts _ (List.mem_singleton.mpr rfl)
    exact h.call hother hcall hregular hown hpolite
  | create hcall hbuilt =>
    obtain ⟨hregular, hown⟩ := hacts _ (List.mem_singleton.mpr rfl)
    exact h.create hcall hbuilt hregular hown hpolite
  | keyboard _ => exact h.keyboard hpolite
  | timer _ hcall => exact h.timer hcall hpolite

end Steps

section Boot

variable {b : Boot} {k₀ : Kernel} {n : ℕ} {d₀ d₁ : Cpu} {t : Computer × Observed}
  {tr : List ((Computer × Observed) × Event)}

structure Prepared (b : Boot) (m : Memory) (d₀ d₁ : Cpu) : Prop where
  dummy : Built m (b.dummyMemory + 2048) d₀
  shell : Built m (b.processMemory + defaultProgramSize) d₁

def atStart (b : Boot) (d₀ d₁ : Cpu) : Observed :=
  ⟨atBoot b, fun p ↦ if p = 0 then firstThread d₀ else firstThread d₁⟩

theorem start_holds (hmain : main n b = some k₀) (h : Prepared b c.mem d₀ d₁) :
    Holds ⟨c, k₀⟩ (atStart b d₀ d₁) := by
  refine ⟨⟨_, started_tracked (main_started hmain)⟩, nofun, fun p hp _ ↦ ?_⟩
  change Saved c.mem (BitVec.ofNat 64 ((atBoot b).saved p))
    (if p = 0 then firstThread d₀ else firstThread d₁)
  rcases hp with rfl | hp
  · exact h.dummy.saved
  · obtain rfl := List.mem_singleton.mp hp
    exact h.shell.saved

/-- Timer interrupts share one processor among the processes as if every
process had its own: whatever the others do, a process goes on in the state in
which it was interrupted, and a new one in the state that `initProcess`
describes. -/
theorem processor_shared (hmain : main n b = some k₀) (hprepared : Prepared b c.mem d₀ d₁)
    (hrun : Run (Noted (Step handler) (record handler)) (⟨c, k₀⟩, atStart b d₀ d₁) tr t)
    (hgood : ∀ e ∈ tr, Good handler e.1 e.2) : Always Faithful tr t := by
  have hstep : ∀ a e b, Holds a.1 a.2 → Good handler a e →
      Noted (Step handler) (record handler) a e b → Holds b.1 b.2 :=
    fun _ _ _ h hgood hs ↦ step_holds h hgood hs
  refine hrun.always_of hstep (fun a h p hp ↦ ?_) hgood (start_holds hmain hprepared)
  rw [← h.running p hp]
  rfl

end Boot

def building (top ip : Word) : Cpu :=
  ⟨⟨0, 0, 0, 0, 0, top, ip, 0, 0, 0, 0, 0, 0, 0, 0⟩, 0x9000, 0, 0x202, 8, 0, 0⟩

def build (m : Memory) (top ip : Word) : Memory := fun x ↦
  if (x - (top - 160)).toNat < 160 then (InitProcess.initProcess (building top ip)).mem x else m x

theorem initProcess_building (top ip : Word) :
    (InitProcess.initProcess (building top ip)).reg.rax = top - 160 :=
  InitProcess.initProcess_rax _

theorem built_build (m : Memory) {top : ℕ} (h : 160 < top ∧ top < 2 ^ 64) (ip : Word) :
    Built (build m (BitVec.ofNat 64 top) ip) top (building (BitVec.ofNat 64 top) ip) := by
  refine ⟨h, rfl, fun x hx ↦ ?_⟩
  rw [initProcess_building] at hx
  exact if_pos hx

def Apart (x y : Word) : Prop :=
  x.toNat + 160 ≤ y.toNat ∧ y.toNat + 160 ≤ 2 ^ 64 ∨ y.toNat + 160 ≤ x.toNat ∧ x.toNat + 160 ≤ 2 ^ 64

instance (c : Cpu) : Decidable (Enabled c) := inferInstanceAs (Decidable (_ = _))

instance (x y : Word) : Decidable (Apart x y) := inferInstanceAs (Decidable (_ ∨ _))

theorem Apart.disjoint {x y : Word} (h : Apart x y) : Disjoint (span x 160) (span y 160) := by
  rcases h with ⟨hle, hlt⟩ | ⟨hle, hlt⟩
  · exact disjoint_span hle hlt
  · exact (disjoint_span hle hlt).symm

def Aside (g : Contexts) (sp : Word) : Prop :=
  ∀ p ∈ 0 :: g.live, g.running ≠ some p → Apart (BitVec.ofNat 64 (g.saved p)) sp

instance (g : Contexts) (sp : Word) : Decidable (Aside g sp) :=
  inferInstanceAs (Decidable (∀ p ∈ 0 :: g.live, g.running ≠ some p → Apart _ sp))

theorem Aside.disjoint {g : Contexts} (h : Aside g sp) : Disjoint (asleep g) (span sp 160) := by
  rw [Set.disjoint_left]
  intro x ⟨p, hp, hne, hx⟩
  exact Set.disjoint_left.mp (h p (List.mem_cons.mpr hp) hne).disjoint hx

section Turns

inductive Turn
  | timer
  | create (a : Create) (ip : Word)
  | exit

def Turn.top (a : Create) : ℕ := a.processMemory + defaultProgramSize

variable (handler)

def Turn.event (s : Computer) : Turn → Event
  | .timer => .timer (enter handler s.cpu).mem
  | .create a ip => .create a (building (BitVec.ofNat 64 (top a)) ip)
      { s.cpu with mem := build s.cpu.mem (BitVec.ofNat 64 (top a)) ip }
  | .exit => .call .exit s.cpu

def Turn.next (s : Computer) : Turn → Option Computer
  | .timer => (switchProcess 8 s.kernel (enter handler s.cpu).rsp.toNat).map fun r ↦
      ⟨timerEnd { enter handler s.cpu with mem := (enter handler s.cpu).mem } (BitVec.ofNat 64 r.2),
        r.1⟩
  | .create a ip => (perform 8 s.kernel (.create a)).map fun k ↦
      ⟨{ s.cpu with mem := build s.cpu.mem (BitVec.ofNat 64 (top a)) ip }, k⟩
  | .exit => (perform 8 s.kernel .exit).map fun k ↦ ⟨s.cpu, k⟩

def Turn.Fits (s : Computer × Observed) : Turn → Prop
  | .timer => Enabled s.1.cpu ∧ (enter handler s.1.cpu).rsp ≠ 0 ∧
      Aside s.2.contexts (enter handler s.1.cpu).rsp
  | .create a _ => (160 < top a ∧ top a < 2 ^ 64) ∧
      Aside s.2.contexts (BitVec.ofNat 64 (top a) - 160) ∧
      s.1.kernel.pid ≠ 0 ∧ s.1.kernel.start ≠ 0 ∧ a.newNode ≠ s.1.kernel.currentProcess
  | .exit => True

instance (s : Computer × Observed) : DecidablePred (Turn.Fits handler s)
  | .timer | .create _ _ => inferInstanceAs (Decidable (_ ∧ _))
  | .exit => inferInstanceAs (Decidable True)

def Turn.take (s : Computer × Observed) (x : Turn) : Option (Computer × Observed) :=
  if Turn.Fits handler s x then
    (x.next handler s.1).map fun b ↦ (b, record handler s.2 s.1 (x.event handler s.1) b)
  else none

variable {handler} {a b : Computer × Observed}

theorem build_asleep {q : Contexts} {top ip : Word} (h : Aside q (top - 160)) :
    ∀ x ∈ asleep q, build m top ip x = m x := by
  intro x hx
  exact if_neg (Set.disjoint_left.mp h.disjoint hx)

theorem take_spec {x : Turn} (h : x.take handler a = some b) :
    Noted (Step handler) (record handler) a (x.event handler a.1) b ∧
      Good handler a (x.event handler a.1) := by
  obtain ⟨hfits, h⟩ := Option.ite_none_right_eq_some.mp h
  obtain ⟨s', hnext, rfl⟩ := Option.map_eq_some_iff.mp h
  cases x with
  | timer =>
    obtain ⟨henabled, hnull, haside⟩ := hfits
    obtain ⟨r, hr, rfl⟩ := Option.map_eq_some_iff.mp hnext
    refine ⟨⟨.timer henabled hr, rfl⟩, ⟨hnull, haside.disjoint, fun _ _ ↦ rfl⟩, fun act hact ↦ ?_⟩
    obtain rfl := List.mem_singleton.mp hact
    exact ⟨trivial, trivial⟩
  | create new ip =>
    obtain ⟨htop, haside, hpid, hstart, hown⟩ := hfits
    obtain ⟨k, hk, rfl⟩ := Option.map_eq_some_iff.mp hnext
    refine ⟨⟨.create (step_perform hk) (built_build _ htop ip), rfl⟩, build_asleep haside,
      fun act hact ↦ ?_⟩
    obtain rfl := List.mem_singleton.mp hact
    exact ⟨⟨hpid, fun h0 ↦ absurd h0 hstart⟩, hown⟩
  | exit =>
    obtain ⟨k, hk, rfl⟩ := Option.map_eq_some_iff.mp hnext
    refine ⟨⟨.call trivial (step_perform hk), rfl⟩, fun _ _ ↦ rfl, fun act hact ↦ ?_⟩
    obtain rfl := List.mem_singleton.mp hact
    exact ⟨trivial, trivial⟩

theorem run_of_turns {turns : List Turn} (h : turns.foldlM (Turn.take handler) a = some b) :
    ∃ tr, Run (Noted (Step handler) (record handler)) a tr b ∧
      ∀ e ∈ tr, Good handler e.1 e.2 := by
  induction turns generalizing a with
  | nil =>
    cases h
    exact ⟨[], .nil _, nofun⟩
  | cons x turns ih =>
    rw [List.foldlM_cons] at h
    obtain ⟨c, hc, h⟩ := Option.bind_eq_some_iff.mp h
    obtain ⟨hnoted, hgood⟩ := take_spec hc
    obtain ⟨tr, hrun, hall⟩ := ih h
    exact ⟨_, .cons hnoted hrun, List.forall_mem_cons.mpr ⟨hgood, hall⟩⟩

end Turns

def smallMemory : Memory := build (build (fun _ ↦ 0) 0x3000 0x400000) 0x1800 0x4000

def idle : Cpu := ⟨⟨0, 0, 0, 0, 0, 0, 0, 0, 0, 0, 0, 0, 0, 0, 0⟩, 0x9000, 0x8000, 0x202, 8, 0, smallMemory⟩

theorem small_prepared :
    Prepared smallBoot smallMemory (building 0x1800 0x4000) (building 0x3000 0x400000) := by
  have hroom : 160 < 0x3000 ∧ 0x3000 < 2 ^ 64 := by decide
  have hshell := built_build (fun _ ↦ 0) hroom 0x400000
  refine ⟨built_build _ (by decide) 0x4000, hroom, rfl, fun x hx ↦ ?_⟩
  have hapart : Apart (0x3000 - 160) (0x1800 - 160) := Or.inr (by decide)
  exact (if_neg (Set.disjoint_left.mp hapart.disjoint hx)).trans (hshell.words x hx)

def toTheOther : List Turn :=
  [.timer, .create { ListOrder.editor with priority := 1, processMemory := 0x5000 } 0x800000, .timer]

def backToTheShell : List Turn := [.exit, .timer]

theorem processor_shared_two : ∃ tr t tr' t',
    Run (Noted (Step 0x7000) (record 0x7000)) (⟨idle, booted⟩,
      atStart smallBoot (building 0x1800 0x4000) (building 0x3000 0x400000)) tr t ∧
    t.2.contexts.running = some 2 ∧ Run (Noted (Step 0x7000) (record 0x7000)) t tr' t' ∧
    t'.2.contexts.running = some 1 ∧ Always Faithful (tr ++ tr') t' := by
  have hend : ((toTheOther.foldlM (Turn.take 0x7000) (⟨idle, booted⟩,
      atStart smallBoot (building 0x1800 0x4000) (building 0x3000 0x400000))).bind fun t ↦
      (backToTheShell.foldlM (Turn.take 0x7000) t).map fun t' ↦
        (t.2.contexts.running, t'.2.contexts.running)) = some (some 2, some 1) := by
    decide +kernel
  obtain ⟨t, ht, hback⟩ := Option.bind_eq_some_iff.mp hend
  obtain ⟨t', ht', heq⟩ := Option.map_eq_some_iff.mp hback
  obtain ⟨hother, hshell⟩ := Prod.mk.inj heq
  obtain ⟨tr, hrun, hgood⟩ := run_of_turns ht
  obtain ⟨tr', hrun', hgood'⟩ := run_of_turns ht'
  refine ⟨tr, t, tr', t', hrun, hother, hrun', hshell,
    processor_shared main_smallBoot small_prepared (hrun.trans hrun') fun e he ↦ ?_⟩
  exact (List.mem_append.mp he).elim (hgood e) (hgood' e)

end ShellOS.System.Preemption
