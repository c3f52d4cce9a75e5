import ShellOS.Asm.Yield

namespace ShellOS.Asm.InitProcess

open Library.Bytes Processor Cpu Yield

/-- `initProcess` up to its `ret`. The words that it pushes on the new stack
are the frame of an interrupt and the registers. -/
def initProcess (c : Cpu) : Cpu :=
  let c := c.push c.reg.rbp
  let c := c.push c.rsp
  let c := { c with reg := { c.reg with rax := c.rsp } }
  let c := { c with rsp := c.reg.rdi }
  let c := { c with reg := { c.reg with rdi := c.reg.rdi - 160 } }
  let c := { c with reg := { c.reg with rbp := c.reg.rdi } }
  let c := c.push 0
  let c := c.push c.rsp
  let c := c.pushes [0x202, 0x8, c.reg.rsi]
  let c := c.pushes
    [0x1, 0x2, 0x3, 0x4, 0x5, c.reg.rdx, c.reg.rcx, 0x6, 0x7, 0x8, 0x9, 0xA, 0xB, 0xC, 0xD]
  let c := { c with rsp := c.reg.rax }
  let c := { c with reg := { c.reg with rax := c.reg.rbp } }
  let (rsp, c) := c.pop
  let c := { c with rsp := rsp }
  let (rbp, c) := c.pop
  { c with reg := { c.reg with rbp := rbp } }

def firstRegisters (argc argv : Word) : Registers where
  rax := 0x1
  rbx := 0x2
  rcx := 0x3
  rdx := 0x4
  rbp := 0x5
  rdi := argc
  rsi := argv
  r8 := 0x6
  r9 := 0x7
  r10 := 0x8
  r11 := 0x9
  r12 := 0xA
  r13 := 0xB
  r14 := 0xC
  r15 := 0xD

variable {c k : Cpu}

theorem initProcess_rax (c : Cpu) : (initProcess c).reg.rax = c.reg.rdi - 160 := rfl

theorem initProcess_stacked (c : Cpu) : Stacked (initProcess c).mem (initProcess c).reg.rax
    ((firstRegisters c.reg.rdx c.reg.rcx).saved.reverse ++
      [c.reg.rsi, 0x8, 0x202, c.reg.rdi - 8, 0]) := by
  let onStack : Cpu := { (c.push c.reg.rbp).push (c.push c.reg.rbp).rsp with rsp := c.reg.rdi }
  let words : List Word :=
    [0, c.reg.rdi - 8, 0x202, 0x8, c.reg.rsi] ++ (firstRegisters c.reg.rdx c.reg.rcx).saved
  have hempty : Stacked onStack.mem onStack.rsp [] := trivial
  have hpushed :
      Stacked (onStack.pushes words).mem (onStack.pushes words).rsp (words.reverse ++ []) :=
    pushes_stacked hempty (by decide : 8 * (20 + 0) ≤ 2 ^ 64)
  rw [pushes_rsp, List.append_nil, List.reverse_append] at hpushed
  exact hpushed

/-- A process that is resumed for the first time, with its stack as
`initProcess` left it. -/
theorem resume_initProcess
    (hkept : ∀ x ∈ span (initProcess c).reg.rax 160, k.mem x = (initProcess c).mem x) :
    resume k (initProcess c).reg.rax =
      ⟨firstRegisters c.reg.rdx c.reg.rcx, c.reg.rdi - 8, c.reg.rsi, 0x202, 0x8, 0, k.mem⟩ := by
  have hip : c.reg.rsi - 3 + 3 = c.reg.rsi := by bv_omega
  have hstacked := (initProcess_stacked c).congr (by decide : 8 * 20 ≤ 2 ^ 64) hkept
  rw [← hip] at hstacked ⊢
  generalize initProcess c = d at hstacked ⊢
  exact resume_eq (c := ⟨firstRegisters c.reg.rdx c.reg.rcx, c.reg.rdi - 8, 0, 0, 0x8, 0, k.mem⟩)
    hstacked

end ShellOS.Asm.InitProcess
