import ShellOS.Library.Bytes

namespace ShellOS.Asm.Processor

open Library.Bytes

abbrev Word := BitVec 64

/-- The registers that `pushState` saves. -/
structure Registers where
  rax : Word
  rbx : Word
  rcx : Word
  rdx : Word
  rbp : Word
  rdi : Word
  rsi : Word
  r8 : Word
  r9 : Word
  r10 : Word
  r11 : Word
  r12 : Word
  r13 : Word
  r14 : Word
  r15 : Word

structure Cpu where
  reg : Registers
  rsp : Word
  rip : Word
  rflags : Word
  cs : Word
  ss : Word
  mem : Memory

namespace Cpu

variable (c : Cpu)

def push (v : Word) : Cpu := { c with rsp := c.rsp - 8, mem := store c.mem 8 (c.rsp - 8) v }

def pop : Word × Cpu := (load c.mem 8 c.rsp, { c with rsp := c.rsp + 8 })

def pushes (vs : List Word) : Cpu := vs.foldl push c

def interruptFlag : Word := 0x200

def sti : Cpu := { c with rflags := c.rflags ||| interruptFlag }

def cli : Cpu := { c with rflags := c.rflags &&& ~~~interruptFlag }

/-- What the processor pushes on an interrupt, the first one first. -/
def interruptFrame : List Word := [c.ss, c.rsp, c.rflags, c.cs, c.rip]

/-- An interrupt of the same privilege. The stack pointer is first aligned to
16 bytes. -/
def interrupt (handler : Word) : Cpu :=
  { (({ c with rsp := c.rsp - c.rsp % 16 } : Cpu).pushes c.interruptFrame).cli with rip := handler }

def iretq : Cpu :=
  let (rip, c) := c.pop
  let (cs, c) := c.pop
  let (rflags, c) := c.pop
  let (rsp, c) := c.pop
  let (ss, c) := c.pop
  { c with rip := rip, cs := cs, rflags := rflags, rsp := rsp, ss := ss }

end Cpu

def Registers.saved (r : Registers) : List Word :=
  [r.rax, r.rbx, r.rcx, r.rdx, r.rbp, r.rdi, r.rsi, r.r8, r.r9, r.r10, r.r11, r.r12, r.r13, r.r14,
    r.r15]

namespace Cpu

variable (c : Cpu)

def pushState : Cpu := c.pushes c.reg.saved

def popState : Cpu :=
  let (r15, c) := c.pop
  let (r14, c) := c.pop
  let (r13, c) := c.pop
  let (r12, c) := c.pop
  let (r11, c) := c.pop
  let (r10, c) := c.pop
  let (r9, c) := c.pop
  let (r8, c) := c.pop
  let (rsi, c) := c.pop
  let (rdi, c) := c.pop
  let (rbp, c) := c.pop
  let (rdx, c) := c.pop
  let (rcx, c) := c.pop
  let (rbx, c) := c.pop
  let (rax, c) := c.pop
  { c with reg := ⟨rax, rbx, rcx, rdx, rbp, rdi, rsi, r8, r9, r10, r11, r12, r13, r14, r15⟩ }

end Cpu

open Cpu

variable {c : Cpu} {vs us : List Word} {r : Registers}

section Stack

theorem pushes_rsp (c : Cpu) (vs : List Word) :
    (c.pushes vs).rsp = c.rsp - BitVec.ofNat 64 (8 * vs.length) := by
  induction vs generalizing c with
  | nil => simp [pushes]
  | cons v vs ih =>
    have hlen : 8 * (vs.length + 1) = 8 * vs.length + 8 := by omega
    rw [pushes, List.foldl_cons, ← pushes, ih, List.length_cons, hlen]
    change c.rsp - 8 - _ = _
    bv_omega

theorem pushes_eq (c : Cpu) (vs : List Word) :
    c.pushes vs = { c with rsp := (c.pushes vs).rsp, mem := (c.pushes vs).mem } := by
  induction vs generalizing c with
  | nil => rfl
  | cons v vs ih =>
    rw [pushes, List.foldl_cons, ← pushes, ih]
    rfl

theorem pushes_stacked (h : Stacked c.mem c.rsp us)
    (hn : 8 * (vs.length + us.length) ≤ 2 ^ 64) :
    Stacked (c.pushes vs).mem (c.pushes vs).rsp (vs.reverse ++ us) := by
  induction vs generalizing c us with
  | nil => exact h
  | cons v vs ih =>
    rw [List.length_cons] at hn
    rw [List.reverse_cons, List.append_assoc, List.singleton_append]
    refine ih (c := c.push v) ?_ ?_
    · exact h.push (by omega)
    · rw [List.length_cons]
      omega

theorem pushes_outside (hn : 8 * vs.length ≤ 2 ^ 64) {x : Word}
    (hx : x ∉ span (c.pushes vs).rsp (8 * vs.length)) : (c.pushes vs).mem x = c.mem x := by
  induction vs generalizing c with
  | nil => rfl
  | cons v vs ih =>
    rw [List.length_cons] at hn hx
    have hrsp := pushes_rsp (c.push v) vs
    change x ∉ span ((c.push v).pushes vs).rsp _ at hx
    change ((c.push v).pushes vs).mem x = c.mem x
    have hx : ¬ (x - ((c.push v).pushes vs).rsp).toNat < 8 * (vs.length + 1) := hx
    have hin : x ∉ span ((c.push v).pushes vs).rsp (8 * vs.length) := by
      change ¬ (x - ((c.push v).pushes vs).rsp).toNat < 8 * vs.length
      omega
    rw [ih (by omega) hin]
    apply store_outside
    change ¬ (x - (c.rsp - 8)).toNat < 8
    rw [hrsp] at hx
    change ¬ (x - (c.rsp - 8 - BitVec.ofNat 64 (8 * vs.length))).toNat < 8 * (vs.length + 1) at hx
    bv_omega

end Stack

theorem popState_eq (h : Stacked c.mem c.rsp (r.saved.reverse ++ us)) :
    c.popState = { c with reg := r, rsp := c.rsp + 120 } ∧ Stacked c.mem (c.rsp + 120) us := by
  simp only [Registers.saved, List.reverse_cons, List.reverse_nil, List.nil_append, List.cons_append,
    Stacked] at h
  obtain ⟨h15, h14, h13, h12, h11, h10, h9, h8, hsi, hdi, hbp, hdx, hcx, hbx, hax, hrest⟩ := h
  have hrsp : c.rsp + 8 + 8 + 8 + 8 + 8 + 8 + 8 + 8 + 8 + 8 + 8 + 8 + 8 + 8 + 8 = c.rsp + 120 := by
    bv_omega
  rw [hrsp] at hrest
  refine ⟨?_, hrest⟩
  simp only [popState, pop, h15, h14, h13, h12, h11, h10, h9, h8, hsi, hdi, hbp, hdx, hcx, hbx, hax,
    hrsp]

theorem iretq_eq {rip cs rflags rsp ss : Word}
    (h : Stacked c.mem c.rsp [rip, cs, rflags, rsp, ss]) :
    c.iretq = { c with rip := rip, cs := cs, rflags := rflags, rsp := rsp, ss := ss } := by
  obtain ⟨hip, hcs, hflags, hsp, hss, -⟩ := h
  simp only [iretq, pop, hip, hcs, hflags, hsp, hss]

end ShellOS.Asm.Processor
