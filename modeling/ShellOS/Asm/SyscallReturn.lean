import ShellOS.Asm.Interrupt
import ShellOS.Asm.Syscall

namespace ShellOS.Asm.SyscallReturn

open Library.Bytes Processor Cpu Interrupt Syscall

/-- `int 80h` in a function of the user library, of which `back` is the address
of the `ret`. -/
def trap (n : ℕ) (handler back : Word) (c : Cpu) : Cpu :=
  ({ c with reg := { c.reg with rax := BitVec.ofNat 64 n }, rip := back } : Cpu).interrupt handler

def called (n : ℕ) (handler back : Word) (c : Cpu) : Cpu :=
  let c := trap n handler back c
  (loadSysNum (c.cli.pushes (saved c.reg))).2

/-- This handler's `popState`, which leaves `rax` alone. -/
def popState (c : Cpu) : Cpu :=
  let (r15, c) := c.pop
  let (r14, c) := c.pop
  let (r13, c) := c.pop
  let (r12, c) := c.pop
  let (r11, c) := c.pop
  let (r10, c) := c.pop
  let (r9, c) := c.pop
  let (r8, c) := c.pop
  let (rsi, c) := c.pop
  let (rdi, c) := c.pop
  let (rbp, c) := c.pop
  let (rdx, c) := c.pop
  let (rcx, c) := c.pop
  let (rbx, c) := c.pop
  { c with reg := ⟨c.reg.rax, rbx, rcx, rdx, rbp, rdi, rsi, r8, r9, r10, r11, r12, r13, r14, r15⟩ }

def finish (k : Cpu) : Cpu :=
  let (rip, c) := (popState k).sti.iretq.pop
  { c with rip := rip }

variable {n : ℕ} {handler back : Word} {c k : Cpu} {r : Registers} {us : List Word}

theorem popState_eq (h : Stacked c.mem c.rsp ((saved r).reverse ++ us)) :
    popState c = { c with reg := { r with rax := c.reg.rax }, rsp := c.rsp + 112 } ∧
      Stacked c.mem (c.rsp + 112) us := by
  simp only [saved, List.reverse_cons, List.reverse_nil, List.nil_append, List.cons_append,
    Stacked] at h
  obtain ⟨h15, h14, h13, h12, h11, h10, h9, h8, hsi, hdi, hbp, hdx, hcx, hbx, hrest⟩ := h
  have hrsp : c.rsp + 8 + 8 + 8 + 8 + 8 + 8 + 8 + 8 + 8 + 8 + 8 + 8 + 8 + 8 = c.rsp + 112 := by
    bv_omega
  rw [hrsp] at hrest
  refine ⟨?_, hrest⟩
  simp only [popState, pop, h15, h14, h13, h12, h11, h10, h9, h8, hsi, hdi, hbp, hdx, hcx, hbx,
    hrsp]

theorem loadSysNum_rsp (c : Cpu) : (loadSysNum c).2.rsp = c.rsp := by
  change c.rsp - 8 + 8 = c.rsp
  bv_omega

theorem called_spec (n : ℕ) (handler back : Word) (c : Cpu) :
    Stacked (called n handler back c).mem (called n handler back c).rsp
        ((saved c.reg).reverse ++ [back, c.cs, c.rflags, c.rsp, c.ss]) ∧
      ∀ x ∈ span c.rsp 8, (called n handler back c).mem x = c.mem x := by
  let d : Cpu := { c with reg := { c.reg with rax := BitVec.ofNat 64 n }, rip := back }
  let p := (d.interrupt handler).cli.pushes (saved c.reg)
  have hreg : (trap n handler back c).reg = d.reg := interrupt_reg handler d
  have hcalled : called n handler back c = (loadSysNum p).2 := by
    have hsaved : saved (trap n handler back c).reg = saved c.reg := by
      rw [hreg]
      rfl
    rw [called, hsaved]
    rfl
  have hlen : (saved c.reg).length = 14 := rfl
  have hle : (saved c.reg).length ≤ 15 := by
    rw [hlen]
    decide
  obtain ⟨hstacked, houtside⟩ := interrupt_pushes handler d hle
  have hrsp : p.rsp = c.rsp - c.rsp % 16 - 152 := by
    have hframe : (d.interrupt handler).cli.rsp = c.rsp - c.rsp % 16 - 40 :=
      pushes_rsp { d with rsp := d.rsp - d.rsp % 16 } d.interruptFrame
    rw [pushes_rsp, hframe, hlen]
    bv_omega
  have hmem : ∀ x, x ∉ span (p.rsp - 8) 8 → (loadSysNum p).2.mem x = p.mem x :=
    fun x hx ↦ store_outside hx
  rw [hcalled, loadSysNum_rsp]
  constructor
  · refine hstacked.congr (by simp [saved, Thread.frame]) fun x hx ↦ hmem x fun hx' ↦ ?_
    have hx : (x - p.rsp).toNat < 152 := hx
    have hx' : (x - (p.rsp - 8)).toNat < 8 := hx'
    bv_omega
  · intro x hx
    have hlt : (c.rsp % 16).toNat < 16 := by
      rw [BitVec.toNat_umod]
      exact Nat.mod_lt _ (by decide)
    have hx : (x - c.rsp).toNat < 8 := hx
    have hoffset : (x - p.rsp).toNat = (x - c.rsp).toNat + (c.rsp % 16).toNat + 152 := by
      rw [hrsp]
      generalize c.rsp % 16 = e at hlt ⊢
      bv_omega
    rw [hmem x ?_]
    · refine houtside x ?_
      change ¬ (x - p.rsp).toNat < 8 * (saved c.reg).length + 40
      rw [hlen]
      omega
    · change ¬ (x - (p.rsp - 8)).toNat < 8
      bv_omega

/-- A system call of the user library: the dispatcher has its number and its
arguments, and when it returns, with its stack as it found it, the caller goes
on behind the call with the result in `rax` and everything else as before. -/
theorem sys_returns (handler back : Word) (c : Cpu) (hn : n < 2 ^ 31)
    (hrsp : k.rsp = (called n handler back c).rsp)
    (hkept : ∀ x, x ∈ span (called n handler back c).rsp 152 ∨ x ∈ span c.rsp 8 →
      k.mem x = (called n handler back c).mem x) :
    sys n handler c = dispatch n c.reg ∧
      finish k = { c with
        reg := { c.reg with rax := k.reg.rax }
        rsp := c.rsp + 8
        rip := load c.mem 8 c.rsp
        mem := k.mem } := by
  refine ⟨sys_eq handler c hn, ?_⟩
  obtain ⟨hstacked, hreturn⟩ := called_spec n handler back c
  have hwords : Stacked k.mem k.rsp ((saved c.reg).reverse ++ [back, c.cs, c.rflags, c.rsp, c.ss]) := by
    rw [hrsp]
    refine hstacked.congr (by simp [saved]) fun x hx ↦ hkept x (Or.inl ?_)
    simpa [saved] using hx
  obtain ⟨hpop, hframe⟩ := popState_eq hwords
  have hiretq := iretq_eq (c := (popState k).sti) (by rw [hpop]; exact hframe)
  have hload : load k.mem 8 c.rsp = load c.mem 8 c.rsp := by
    rw [load_eq_iff]
    exact fun x hx ↦ (hkept x (Or.inr hx)).trans (hreturn x hx)
  rw [finish, hiretq, hpop]
  change ({ c with
    reg := { c.reg with rax := k.reg.rax }
    rsp := c.rsp + 8
    rip := load k.mem 8 c.rsp
    mem := k.mem } : Cpu) = _
  rw [hload]

def asking : Cpu where
  reg := ⟨0, 1, 2, 3, 4, 5, 6, 7, 8, 9, 10, 11, 12, 13, 14⟩
  rsp := 0x9008
  rip := 0x3000
  rflags := 0x202
  cs := 8
  ss := 0
  mem := 0

theorem sys_returns_getPid : ∃ k, sys 36 0x2000 asking = some .getCurrentPid ∧
    finish k = { asking with
      reg := { asking.reg with rax := 2 }
      rsp := 0x9010
      rip := 0
      mem := k.mem } := by
  let c := called 36 0x2000 0x3007 asking
  refine ⟨{ c with reg := { c.reg with rax := 2 } }, ?_⟩
  exact sys_returns 0x2000 0x3007 asking (by decide) rfl (fun _ _ ↦ rfl)

end ShellOS.Asm.SyscallReturn
