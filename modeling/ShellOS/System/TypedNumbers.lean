import ShellOS.Asm.Syscall
import ShellOS.Sched.ListOrder
import ShellOS.Userland.Shell

namespace ShellOS.System.TypedNumbers

open Library.Links Library.Words Asm.Processor Asm.Syscall Function
open Sched.Scheduler Sched.ProcessList Sched.SchedulerRun Sched.ListOrder
open Userland.Strings Userland.Numbers Userland.CommandLine Userland.Shell
open Ipc.PipeConsole (Text)

/-- The processor enters a function of the user library with these arguments.
What is above an argument in its register is not fixed. -/
def Entered (cpu : Cpu) : Sys → Prop
  | .killProcess pid => cpu.reg.rdi.setWidth 32 = pid
  | .changePriority pid newPriority =>
    cpu.reg.rdi.setWidth 32 = pid ∧ cpu.reg.rsi.setWidth 8 = newPriority
  | .changeState pid => cpu.reg.rdi.setWidth 32 = pid
  | _ => True

def dispatched (handler : Word) (cpu : Cpu) : Sys → Option Call
  | .killProcess _ => sys 20 handler cpu
  | .changePriority _ _ => sys 21 handler cpu
  | .changeState _ => sys 22 handler cpu
  | _ => none

def perform (n : ℕ) (k : Kernel) : Call → Option Kernel
  | .killProcess pid => killPid n k pid.toNat
  | .changePriority pid newPriority => changeProcessPriority n k pid.toNat newPriority.toNat
  | .changeState pid => changeProcessState n k pid.toNat
  | _ => none

def act (n : ℕ) (handler : Word) (cpu : Sys → Cpu) (k : Kernel) (calls : List Sys) :
    Option Kernel :=
  calls.foldlM (fun k call ↦ (dispatched handler (cpu call) call).bind (perform n k)) k

structure Processes (k : Kernel) (L : List ℕ) : Prop where
  listed : Listed k L
  shell : ∃ s T, L = s :: T ∧ (k.pcb s).pid = 1
  pid_lt : ∀ a ∈ L, (k.pcb a).pid < 2 ^ 32

def holder (k : Kernel) (L : List ℕ) (pid : ℕ) : Option ℕ := L.find? fun a ↦ (k.pcb a).pid = pid

def withPriority (p : Pcb) (v : ℕ) : Pcb := { p with priority := v, auxPriority := v }

/-- `changeProcessState` blocks a ready process and makes a blocked one ready. -/
def switched (p : Pcb) : Pcb :=
  if p.pstate = 1 then { p with pstate := 0 }
  else if p.pstate = 0 then { p with pstate := 1 }
  else p

structure NiceAsTyped (k k' : Kernel) (L : List ℕ) (pid priority : ℕ) : Prop where
  only : ∀ a, k'.pcb a ≠ k.pcb a → a ∈ L ∧ (k.pcb a).pid = pid ∧ 1 < pid ∧ 2 ≤ priority ∧
    priority ≤ 10 ∧ k'.pcb a = withPriority (k.pcb a) priority
  set : 1 < pid → 2 ≤ priority → priority ≤ 10 → ∀ a, holder k L pid = some a →
    k'.pcb a = withPriority (k.pcb a) priority

def KillAsTyped (k k' : Kernel) (L : List ℕ) (pid : ℕ) : Prop :=
  ∀ a, (k.pcb a).pid ≠ pid → k'.pcb a = k.pcb a ∧ (a ∈ L → ∀ L', Listed k' L' → a ∈ L')

def BlockAsTyped (k k' : Kernel) (pid : ℕ) : Prop := ∀ a, (k.pcb a).pid ≠ pid → k'.pcb a = k.pcb a

/-- The numbers that are typed are those that the kernel gets, or these come to
no process that they change. -/
def NiceFits (k : Kernel) (L : List ℕ) (pid priority : ℕ) : Prop :=
  1 < u32 pid → 2 ≤ priority % 256 → priority % 256 ≤ 10 → ∀ a, holder k L (u32 pid) = some a →
    pid < 2 ^ 32 ∧ priority < 256 ∨
      (k.pcb a).priority = priority % 256 ∧ (k.pcb a).auxPriority = priority % 256

def KillFits (k : Kernel) (L : List ℕ) (pid : ℕ) : Prop :=
  1 < u32 pid → ∀ a, holder k L (u32 pid) = some a → pid < 2 ^ 32

def BlockFits (k : Kernel) (L : List ℕ) (pid : ℕ) : Prop :=
  1 < u32 pid → ∀ a, holder k L (u32 pid) = some a → (k.pcb a).pstate ≤ 1 → pid < 2 ^ 32

def typedArgs (a b : List UInt8) : Args :=
  fun o ↦ if o < 42 then a.getD (o - 21) 0 else b.getD (o - 42) 0

variable {k k' : Kernel} {L L₁ L₂ : List ℕ} {pid v n a x : ℕ} {handler : Word} {cpu : Sys → Cpu}
  {args : Args} {typed typed' : List UInt8}

section Calls

theorem act_one (handler : Word) (cpu : Sys → Cpu) (k : Kernel) (call : Sys) :
    act n handler cpu k [call] = (dispatched handler (cpu call) call).bind (perform n k) := by
  simp only [act, List.foldlM_cons, List.foldlM_nil, bind_pure]

theorem toNat_u64 (pid : ℕ) : (BitVec.ofNat 32 (u64 pid)).toNat = u32 pid := by
  rw [BitVec.toNat_ofNat, u64, u32]
  omega

theorem toNat_u64_byte (v : ℕ) : (BitVec.ofNat 8 (u64 v)).toNat = v % 256 := by
  rw [BitVec.toNat_ofNat, u64]
  omega

variable (hcpu : ∀ call, Entered (cpu call) call)

include hcpu

theorem act_kill (n : ℕ) (handler : Word) (k : Kernel) (pid : ℕ) :
    act n handler cpu k [.killProcess (BitVec.ofNat 32 (u64 pid))] = killPid n k (u32 pid) := by
  have hreg : BitVec.setWidth 32 _ = _ := hcpu (.killProcess (BitVec.ofNat 32 (u64 pid)))
  rw [act_one, dispatched, sys_eq handler _ (by decide)]
  change perform n k (.killProcess (BitVec.setWidth 32 _)) = _
  rw [hreg, perform, toNat_u64]

theorem act_nice (n : ℕ) (handler : Word) (k : Kernel) (pid v : ℕ) :
    act n handler cpu k [.changePriority (BitVec.ofNat 32 (u64 pid)) (BitVec.ofNat 8 (u64 v))] =
      changeProcessPriority n k (u32 pid) (v % 256) := by
  obtain ⟨hpid, hv⟩ : BitVec.setWidth 32 _ = _ ∧ BitVec.setWidth 8 _ = _ :=
    hcpu (.changePriority (BitVec.ofNat 32 (u64 pid)) (BitVec.ofNat 8 (u64 v)))
  rw [act_one, dispatched, sys_eq handler _ (by decide)]
  change perform n k (.changePriority (BitVec.setWidth 32 _) (BitVec.setWidth 8 _)) = _
  rw [hpid, hv, perform, toNat_u64, toNat_u64_byte]

theorem act_block (n : ℕ) (handler : Word) (k : Kernel) (pid : ℕ) :
    act n handler cpu k [.changeState (BitVec.ofNat 32 (u64 pid))] =
      changeProcessState n k (u32 pid) := by
  have hreg : BitVec.setWidth 32 _ = _ := hcpu (.changeState (BitVec.ofNat 32 (u64 pid)))
  rw [act_one, dispatched, sys_eq handler _ (by decide)]
  change perform n k (.changeState (BitVec.setWidth 32 _)) = _
  rw [hreg, perform, toNat_u64]

end Calls

section Holder

theorem holder_some (h : holder k L pid = some x) : ∃ L₁ L₂, L = L₁ ++ x :: L₂ ∧
    (∀ y ∈ L₁, (k.pcb y).pid ≠ pid) ∧ (k.pcb x).pid = pid := by
  obtain ⟨hx, L₁, L₂, hL, hL₁⟩ := List.find?_eq_some_iff_append.mp h
  exact ⟨L₁, L₂, hL, fun y hy ↦ by simpa using hL₁ y hy, by simpa using hx⟩

theorem holder_none (h : holder k L pid = none) : ∀ y ∈ L, (k.pcb y).pid ≠ pid := by
  intro y hy
  simpa using List.find?_eq_none.mp h y hy

theorem holder_mem (h : holder k L pid = some x) : x ∈ L ∧ (k.pcb x).pid = pid := by
  obtain ⟨L₁, L₂, rfl, -, hx⟩ := holder_some h
  exact ⟨by simp, hx⟩

structure Changed (k k' : Kernel) (found : Option ℕ) (f : Pcb → Pcb) : Prop where
  eq : ∀ x, found = some x → k'.pcb x = f (k.pcb x)
  other : ∀ a, found ≠ some a → k'.pcb a = k.pcb a

theorem Changed.refl (k : Kernel) (f : Pcb → Pcb) : Changed k k none f := ⟨nofun, fun _ _ ↦ rfl⟩

theorem changed_update {f : Pcb → Pcb} (h : k'.pcb = update k.pcb x (f (k.pcb x))) :
    Changed k k' (some x) f := by
  refine ⟨fun y hy ↦ ?_, fun y hy ↦ ?_⟩
  · obtain rfl := Option.some.inj hy
    rw [h, update_self]
  · have hne : y ≠ x := fun heq ↦ hy (congrArg some heq.symm)
    rw [h, update_of_ne hne]

theorem Changed.only_iff {found : Option ℕ} {f : Pcb → Pcb} (h : Changed k k' found f)
    (Q : ℕ → Prop) : (∀ a, k'.pcb a ≠ k.pcb a → Q a) ↔
      ∀ x, found = some x → f (k.pcb x) ≠ k.pcb x → Q x := by
  constructor
  · intro hall x hx hne
    apply hall
    rwa [h.eq x hx]
  · intro hall a hne
    by_cases ha : found = some a
    · exact hall a ha (h.eq a ha ▸ hne)
    · exact absurd (h.other a ha) hne

end Holder

section Kernel

theorem setPcb_self (k : Kernel) (a : ℕ) : k.setPcb a (k.pcb a) = k := by
  simp [Kernel.setPcb, Kernel.pcb]

theorem killPid_holder (h : Listed k L) (pid : ℕ) :
    let found := if 1 < pid then holder k L pid else none
    ∃ k', (∀ n, L.length < n → killPid n k pid = some k') ∧
      Changed k k' found (fun p ↦ { p with pstate := 2 }) ∧
      Listed k' (found.elim L L.erase) := by
  by_cases hpid : 1 < pid
  · simp only [if_pos hpid, killPid]
    cases hfound : holder k L pid with
    | none =>
      refine ⟨k, fun n hn ↦ ?_, .refl k _, h⟩
      rw [deleteProcess_absent h.path h.not_null (holder_none hfound) hn, Option.map_some]
    | some x =>
      obtain ⟨L₁, L₂, rfl, hne, hx⟩ := holder_some hfound
      obtain ⟨k', b, hdelete, hpath, -, hpcb, -⟩ :=
        deleteProcess_found h.path h.not_null h.nodup hne hx
      have hout : x ∉ L₁ := fun hmem ↦ hne x hmem hx
      have herase : (L₁ ++ x :: L₂).erase x = L₁ ++ L₂ := by
        rw [List.erase_append_right _ hout, List.erase_cons_head]
      refine ⟨{ k' with start := b }, fun n hn ↦ ?_, changed_update hpcb, ?_⟩
      · rw [List.length_append] at hn
        rw [hdelete n (by omega), Option.map_some]
      · rw [Option.elim_some, herase]
        refine ⟨hpath, fun h0 ↦ h.not_null ?_, ?_⟩
        · exact List.mem_of_mem_erase (herase ▸ h0)
        · exact herase ▸ h.nodup.erase x
  · simp only [if_neg hpid, killPid]
    exact ⟨k, fun _ _ ↦ rfl, .refl k _, h⟩

theorem changeProcessPriority_holder (h : Processes k L) (pid v : ℕ) :
    let found := if 1 < pid ∧ 2 ≤ v ∧ v ≤ 10 then holder k L pid else none
    ∃ k', (∀ n, L.length < n → changeProcessPriority n k pid v = some k') ∧
      Changed k k' found (fun p ↦ withPriority p v) := by
  by_cases hok : 1 < pid ∧ 2 ≤ v ∧ v ≤ 10
  · simp only [if_pos hok]
    cases hfound : holder k L pid with
    | none =>
      refine ⟨k, fun n hn ↦ ?_, .refl k _⟩
      exact changeProcessPriority_refused h.listed v
        (Or.inr (Or.inr (Or.inr (holder_none hfound)))) hn
    | some x =>
      obtain ⟨L₁, L₂, rfl, hne, hx⟩ := holder_some hfound
      obtain ⟨s, T, hL, hs⟩ := h.shell
      cases L₁ with
      | nil =>
        obtain ⟨rfl, -⟩ := List.cons.inj hL
        omega
      | cons a F =>
        obtain ⟨k', hchange, hreordered⟩ :=
          changeProcessPriority_first h.listed hne hx hok.1 hok.2.1 hok.2.2
        exact ⟨k', hchange, changed_update hreordered.pcb⟩
  · simp only [if_neg hok]
    refine ⟨k, fun n hn ↦ ?_, .refl k _⟩
    exact changeProcessPriority_refused h.listed v (by omega) hn

theorem changeProcessState_holder (h : Listed k L) (pid : ℕ) :
    let found := if 1 < pid then holder k L pid else none
    ∃ k', (∀ n, L.length < n → changeProcessState n k pid = some k') ∧
      Changed k k' found switched := by
  by_cases hpid : 1 < pid
  · simp only [if_pos hpid, changeProcessState, if_neg (Nat.not_le.mpr hpid)]
    cases hfound : holder k L pid with
    | none =>
      obtain ⟨p, hget, hp⟩ := getPCB_spec h pid
      have hp0 : p = 0 := by
        rcases hp with ⟨hp, -⟩ | ⟨hp, hpp⟩
        · exact hp
        · exact absurd hpp (holder_none hfound p hp)
      refine ⟨k, fun n hn ↦ ?_, .refl k _⟩
      rw [hget n hn, Option.map_some, if_pos hp0]
    | some x =>
      obtain ⟨L₁, L₂, rfl, hne, hx⟩ := holder_some hfound
      have hx0 : x ≠ 0 := ne_of_mem_of_not_mem (by simp) h.not_null
      let k' := k.setPcb x (switched (k.pcb x))
      refine ⟨k', fun n hn ↦ ?_, changed_update (by rw [pcb_setPcb])⟩
      rw [getPCB_first h hne hx hn, Option.map_some, if_neg hx0]
      unfold k' switched setState
      split
      · rfl
      split
      · rfl
      · rw [setPcb_self]
  · simp only [if_neg hpid, changeProcessState, if_pos (Nat.not_lt.mp hpid)]
    exact ⟨k, fun _ _ ↦ rfl, .refl k _⟩

end Kernel

section Iff

theorem u32_eq_iff (pid : ℕ) : u32 pid = pid ↔ pid < 2 ^ 32 :=
  ⟨fun h ↦ h ▸ u32_lt pid, u32_of_lt⟩

theorem withPriority_eq_iff (p : Pcb) (v : ℕ) :
    withPriority p v = p ↔ p.priority = v ∧ p.auxPriority = v := by
  cases p
  simp only [withPriority, Pcb.mk.injEq, true_and, and_true]
  exact and_congr eq_comm eq_comm

theorem switched_eq_iff (p : Pcb) : switched p = p ↔ 1 < p.pstate := by
  unfold switched
  split
  · rename_i h
    refine iff_of_false (fun heq ↦ ?_) (by omega)
    have hstate : 0 = p.pstate := congrArg Pcb.pstate heq
    omega
  split
  · rename_i h
    refine iff_of_false (fun heq ↦ ?_) (by omega)
    have hstate : 1 = p.pstate := congrArg Pcb.pstate heq
    omega
  · exact iff_of_true rfl (by omega)

theorem nice_iff (h : Processes k L) (pid v : ℕ)
    (hc : Changed k k'
      (if 1 < u32 pid ∧ 2 ≤ v % 256 ∧ v % 256 ≤ 10 then holder k L (u32 pid) else none)
      (fun p ↦ withPriority p (v % 256))) :
    NiceAsTyped k k' L pid v ↔ NiceFits k L pid v := by
  constructor
  · intro htyped hpid hlo hhi a ha
    have hfound := hc.eq a (by rwa [if_pos ⟨hpid, hlo, hhi⟩])
    by_cases hsame : withPriority (k.pcb a) (v % 256) = k.pcb a
    · exact Or.inr ((withPriority_eq_iff _ _).mp hsame)
    · obtain ⟨-, hpida, -, -, -, hset⟩ := htyped.only a (hfound ▸ hsame)
      have hv : v % 256 = v := congrArg Pcb.priority (hfound.symm.trans hset)
      exact Or.inl ⟨(u32_eq_iff pid).mp ((holder_mem ha).2.symm.trans hpida), by omega⟩
  · intro hfits
    constructor
    · rw [hc.only_iff]
      intro x hx hne
      obtain ⟨⟨hpid, hlo, hhi⟩, hx'⟩ := Option.ite_none_right_eq_some.mp hx
      have hset := hc.eq x hx
      rcases hfits hpid hlo hhi x hx' with ⟨hpid32, hv⟩ | hsame
      · obtain ⟨hmem, hpidx⟩ := holder_mem hx'
        rw [u32_of_lt hpid32] at hpid hpidx
        rw [Nat.mod_eq_of_lt hv] at hlo hhi hset
        exact ⟨hmem, hpidx, hpid, hlo, hhi, hset⟩
      · exact absurd ((withPriority_eq_iff _ _).mpr hsame) hne
    · intro hpid hlo hhi a ha
      obtain ⟨hmem, hpida⟩ := holder_mem ha
      have hpid32 : u32 pid = pid := u32_of_lt (hpida ▸ h.pid_lt a hmem)
      have hv : v % 256 = v := Nat.mod_eq_of_lt (by omega)
      rw [hpid32, hv, if_pos ⟨hpid, hlo, hhi⟩] at hc
      exact hc.eq a ha

theorem kill_iff (h : Listed k L) (pid : ℕ)
    (hc : Changed k k' (if 1 < u32 pid then holder k L (u32 pid) else none)
      (fun p ↦ { p with pstate := 2 }))
    (hlist : Listed k' ((if 1 < u32 pid then holder k L (u32 pid) else none).elim L L.erase)) :
    KillAsTyped k k' L pid ↔ KillFits k L pid := by
  constructor
  · intro htyped hpid a ha
    obtain ⟨hmem, hpida⟩ := holder_mem ha
    rw [if_pos hpid, ha, Option.elim_some] at hlist
    by_contra hlong
    have hne : (k.pcb a).pid ≠ pid :=
      fun heq ↦ hlong ((u32_eq_iff pid).mp (hpida.symm.trans heq))
    exact h.nodup.not_mem_erase ((htyped a hne).2 hmem _ hlist)
  · intro hfits a hne
    by_cases ha : (if 1 < u32 pid then holder k L (u32 pid) else none) = some a
    · obtain ⟨hpid, ha'⟩ := Option.ite_none_right_eq_some.mp ha
      have hpid32 := u32_of_lt (hfits hpid a ha')
      exact absurd ((holder_mem ha').2.trans hpid32) hne
    · refine ⟨hc.other a ha, fun hmem L' hL' ↦ ?_⟩
      rw [hL'.unique hlist]
      cases hfound : (if 1 < u32 pid then holder k L (u32 pid) else none) with
      | none => exact hmem
      | some x =>
        have hax : a ≠ x := fun heq ↦ ha (hfound.trans (congrArg some heq.symm))
        exact (List.mem_erase_of_ne hax).mpr hmem

theorem block_iff (pid : ℕ)
    (hc : Changed k k' (if 1 < u32 pid then holder k L (u32 pid) else none) switched) :
    BlockAsTyped k k' pid ↔ BlockFits k L pid := by
  have honly : BlockAsTyped k k' pid ↔ ∀ a, k'.pcb a ≠ k.pcb a → (k.pcb a).pid = pid :=
    forall_congr' fun a ↦ not_imp_comm
  rw [honly, hc.only_iff]
  constructor
  · intro hall hpid a ha hstate
    have hpida := hall a (by rwa [if_pos hpid])
      (fun heq ↦ absurd ((switched_eq_iff _).mp heq) (by omega))
    exact (u32_eq_iff pid).mp ((holder_mem ha).2.symm.trans hpida)
  · intro hfits a ha hne
    obtain ⟨hpid, ha'⟩ := Option.ite_none_right_eq_some.mp ha
    have hstate : (k.pcb a).pstate ≤ 1 :=
      Nat.not_lt.mp (fun hlt ↦ hne ((switched_eq_iff _).mpr hlt))
    exact (holder_mem ha').2.trans (u32_of_lt (hfits hpid a ha' hstate))

end Iff

/-- The built-in commands act on the numbers that were typed, if and only if
these are the ones that come through to the kernel or no process is changed. -/
theorem typed_numbers_iff (hcpu : ∀ call, Entered (cpu call) call) (handler : Word)
    (hpid : Text (row args 1) 0 typed) (hdigits : ∀ c ∈ typed, isDigit c = true)
    (hlen : typed.length ≤ 20) (hpriority : Text (row args 2) 0 typed')
    (hdigits' : ∀ c ∈ typed', isDigit c = true) (hlen' : typed'.length ≤ 20) (h : Processes k L) :
    (∃ k', (∀ n, L.length < n → (nice args).bind (act n handler cpu k) = some k') ∧
      (NiceAsTyped k k' L (number typed) (number typed') ↔
        NiceFits k L (number typed) (number typed'))) ∧
    (∃ k', (∀ n, L.length < n → (kill args).bind (act n handler cpu k) = some k') ∧
      (KillAsTyped k k' L (number typed) ↔ KillFits k L (number typed))) ∧
    ∃ k', (∀ n, L.length < n → (block args).bind (act n handler cpu k) = some k') ∧
      (BlockAsTyped k k' (number typed) ↔ BlockFits k L (number typed)) := by
  have hnice := nice_digits hpid hdigits hlen hpriority hdigits' hlen'
  have hkill := kill_digits hpid hdigits hlen
  have hblock := block_digits hpid hdigits hlen
  refine ⟨?_, ?_, ?_⟩
  · obtain ⟨k', hcall, hc⟩ :=
      changeProcessPriority_holder h (u32 (number typed)) (number typed' % 256)
    refine ⟨k', fun n hn ↦ ?_, nice_iff h _ _ hc⟩
    rw [hnice, Option.bind_some, act_nice hcpu, hcall n hn]
  · obtain ⟨k', hcall, hc, hlist⟩ := killPid_holder h.listed (u32 (number typed))
    refine ⟨k', fun n hn ↦ ?_, kill_iff h.listed _ hc hlist⟩
    rw [hkill, Option.bind_some, act_kill hcpu, hcall n hn]
  · obtain ⟨k', hcall, hc⟩ := changeProcessState_holder h.listed (u32 (number typed))
    refine ⟨k', fun n hn ↦ ?_, block_iff _ hc⟩
    rw [hblock, Option.bind_some, act_block hcpu, hcall n hn]

section Editor

theorem typedArgs_text {a b : List UInt8} (ha : 0 ∉ a) (hlen : a.length ≤ 20) (hb : 0 ∉ b) :
    Text (row (typedArgs a b) 1) 0 a ∧ Text (row (typedArgs a b) 2) 0 b := by
  refine ⟨text_congr (text_getD ha) (fun o _ ho ↦ ?_), text_congr (text_getD hb) (fun o _ _ ↦ ?_)⟩
  · have hin : 21 * 1 + o < 42 := by omega
    have hsub : 21 * 1 + o - 21 = o := by omega
    rw [row, typedArgs, if_pos hin, hsub]
  · have hout : ¬ 21 * 2 + o < 42 := by omega
    have hsub : 21 * 2 + o - 42 = o := by omega
    rw [row, typedArgs, if_neg hout, hsub]

def entry (call : Sys) : Cpu :=
  let zero : Registers := ⟨0, 0, 0, 0, 0, 0, 0, 0, 0, 0, 0, 0, 0, 0, 0⟩
  let reg := match call with
    | .killProcess pid => { zero with rdi := pid.setWidth 64 }
    | .changePriority pid newPriority =>
      { zero with rdi := pid.setWidth 64, rsi := newPriority.setWidth 64 }
    | .changeState pid => { zero with rdi := pid.setWidth 64 }
    | _ => zero
  ⟨reg, 0x8000, 0, 0, 0, 0, fun _ ↦ 0⟩

theorem entry_entered (call : Sys) : Entered (entry call) call := by
  cases call with
  | killProcess pid => exact BitVec.setWidth_setWidth_of_le _ (by decide)
  | changePriority pid newPriority =>
    exact ⟨BitVec.setWidth_setWidth_of_le _ (by decide),
      BitVec.setWidth_setWidth_of_le _ (by decide)⟩
  | changeState pid => exact BitVec.setWidth_setWidth_of_le _ (by decide)
  | _ => trivial

theorem processes_of_kept {tr : List (Kernel × Act)} (h : Kept k L tr) (hpid : k.pid ≠ 0) :
    Processes k L := by
  obtain ⟨s, T, hL, hs, -⟩ := h.ordered.shell
  refine ⟨h.linked.listed, ⟨s, T, hL, hs⟩, fun a ha ↦ ?_⟩
  have hlt := h.linked.pid_lt hpid a ha
  have hcounter := h.linked.counter.1
  omega

theorem editor_processes : Processes withEditor.1 [2, 3] := by
  have hlisted : Listed withEditor.1 [2, 3] := ⟨⟨rfl, rfl, rfl⟩, by decide, by decide⟩
  obtain ⟨L, hkept⟩ := run_kept main_smallBoot (.one step_editor)
    (by simpa [Allowed] using by decide) (by decide)
  obtain rfl := hlisted.unique hkept.linked.listed
  exact processes_of_kept hkept (by decide)

theorem typed_numbers_five : ∃ k', (nice (typedArgs (bytes "2") (bytes "5"))).bind
      (act 3 0 entry withEditor.1) = some k' ∧
    (NiceAsTyped withEditor.1 k' [2, 3] 2 5 ↔ NiceFits withEditor.1 [2, 3] 2 5) := by
  obtain ⟨hpid, hpriority⟩ := typedArgs_text (by decide : 0 ∉ bytes "2") (by decide)
    (by decide : 0 ∉ bytes "5")
  obtain ⟨⟨k', hcall, hiff⟩, -⟩ := typed_numbers_iff entry_entered 0 hpid
    (List.all_eq_true.mp (by decide)) (by decide) hpriority (List.all_eq_true.mp (by decide))
    (by decide) editor_processes
  exact ⟨k', hcall 3 (by decide), hiff⟩

/-- `nice 2 261` gives the process the priority 5. -/
theorem nice_not_typed : ∃ k', (nice (typedArgs (bytes "2") (bytes "261"))).bind
      (act 3 0 entry withEditor.1) = some k' ∧ (k'.pcb 3).priority = 5 ∧
    ¬ NiceAsTyped withEditor.1 k' [2, 3] 2 261 := by
  obtain ⟨hpid, hpriority⟩ := typedArgs_text (by decide : 0 ∉ bytes "2") (by decide)
    (by decide : 0 ∉ bytes "261")
  have hnice := nice_digits hpid (List.all_eq_true.mp (by decide)) (by decide) hpriority
    (List.all_eq_true.mp (by decide)) (by decide)
  have htwo : number (bytes "2") = 2 := by decide
  have hlong : number (bytes "261") = 261 := by decide
  obtain ⟨k', hcall, hc⟩ := changeProcessPriority_holder editor_processes (u32 2) (261 % 256)
  have hfound : holder withEditor.1 [2, 3] 2 = some 3 := by decide
  have hset : k'.pcb 3 = withPriority (withEditor.1.pcb 3) 5 := hc.eq 3 hfound
  refine ⟨k', ?_, congrArg Pcb.priority hset, fun htyped ↦ ?_⟩
  · rw [hnice, htwo, hlong, Option.bind_some, act_nice entry_entered]
    exact hcall 3 (by decide)
  · have hfits := (nice_iff editor_processes 2 261 hc).mp htyped (by decide) (by decide) (by decide)
      3 hfound
    revert hfits
    decide

end Editor

end ShellOS.System.TypedNumbers
