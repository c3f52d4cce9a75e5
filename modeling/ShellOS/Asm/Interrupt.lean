import ShellOS.Asm.Processor

namespace ShellOS.Asm.Interrupt

open Library.Bytes Processor Cpu

structure Thread where
  reg : Registers
  rsp : Word
  rip : Word
  rflags : Word
  cs : Word
  ss : Word

def thread (c : Cpu) : Thread := ⟨c.reg, c.rsp, c.rip, c.rflags, c.cs, c.ss⟩

def Thread.run (t : Thread) (mem : Memory) : Cpu := ⟨t.reg, t.rsp, t.rip, t.rflags, t.cs, t.ss, mem⟩

/-- What an interrupt leaves on the stack, from the stack pointer upwards. -/
def Thread.frame (t : Thread) : List Word := [t.rip, t.cs, t.rflags, t.rsp, t.ss]

def Thread.words (t : Thread) : List Word := t.reg.saved.reverse ++ t.frame

/-- `irqHandlerMaster` up to its first call. -/
def enter (handler : Word) (c : Cpu) : Cpu := (c.interrupt handler).cli.pushState

def leave (k : Cpu) : Cpu := k.popState.sti.iretq

variable {c k : Cpu} {t : Thread} {handler : Word}

theorem Thread.length_words (t : Thread) : 8 * t.words.length = 160 := by
  simp [Thread.words, Thread.frame, Registers.saved]

theorem interrupt_reg (handler : Word) (c : Cpu) : (c.interrupt handler).reg = c.reg := by
  change (Cpu.pushes _ _).reg = c.reg
  rw [pushes_eq]

theorem interrupt_pushes (handler : Word) (c : Cpu) {vs : List Word} (hn : vs.length ≤ 15) :
    Stacked ((c.interrupt handler).cli.pushes vs).mem ((c.interrupt handler).cli.pushes vs).rsp
        (vs.reverse ++ (thread c).frame) ∧
      ∀ x, x ∉ span ((c.interrupt handler).cli.pushes vs).rsp (8 * vs.length + 40) →
        ((c.interrupt handler).cli.pushes vs).mem x = c.mem x := by
  let aligned : Cpu := { c with rsp := c.rsp - c.rsp % 16 }
  let k := (c.interrupt handler).cli
  have hlen : c.interruptFrame.length = 5 := rfl
  have hempty : Stacked aligned.mem aligned.rsp [] := trivial
  have hframe : Stacked k.mem k.rsp (c.interruptFrame.reverse ++ []) :=
    pushes_stacked hempty (by rw [hlen]; decide : 8 * (c.interruptFrame.length + 0) ≤ 2 ^ 64)
  have hsize : 8 * (vs.length + (c.interruptFrame.reverse ++ []).length) ≤ 2 ^ 64 := by
    rw [List.append_nil, List.length_reverse, hlen]
    omega
  refine ⟨pushes_stacked hframe hsize, fun x hx ↦ ?_⟩
  have hrsp : k.rsp = aligned.rsp - 40 := pushes_rsp aligned c.interruptFrame
  have hlast := pushes_rsp k vs
  have hx : ¬ (x - (k.pushes vs).rsp).toNat < 8 * vs.length + 40 := hx
  have hin : x ∉ span (k.pushes vs).rsp (8 * vs.length) := by
    change ¬ (x - (k.pushes vs).rsp).toNat < 8 * vs.length
    omega
  rw [pushes_outside (by omega) hin]
  have hout : x ∉ span (aligned.pushes c.interruptFrame).rsp (8 * c.interruptFrame.length) := by
    rw [pushes_rsp aligned c.interruptFrame, hlen]
    change ¬ (x - (aligned.rsp - 40)).toNat < 40
    rw [hlast] at hx
    rw [← hrsp]
    bv_omega
  exact pushes_outside (by rw [hlen]; decide) hout

theorem enter_spec (handler : Word) (c : Cpu) :
    Stacked (enter handler c).mem (enter handler c).rsp (thread c).words ∧
      ∀ x, x ∉ span (enter handler c).rsp 160 → (enter handler c).mem x = c.mem x := by
  have hsaved : enter handler c = (c.interrupt handler).cli.pushes c.reg.saved := by
    rw [enter, pushState, ← interrupt_reg handler c]
    rfl
  rw [hsaved]
  exact interrupt_pushes handler c (Nat.le_refl 15)

theorem leave_words (h : Stacked k.mem k.rsp t.words) : leave k = t.run k.mem := by
  obtain ⟨hpop, hrest⟩ := popState_eq h
  rw [leave, hpop]
  exact iretq_eq (c := sti _) hrest

/-- An interrupt whose handler leaves the words it pushed as they are is not
seen by the process. -/
theorem leave_enter {mem : Memory}
    (h : ∀ x ∈ span (enter handler c).rsp 160, mem x = (enter handler c).mem x) :
    leave { enter handler c with mem := mem } = { c with mem := mem } := by
  obtain ⟨hstacked, -⟩ := enter_spec handler c
  have hlen := (thread c).length_words
  rw [← hlen] at h
  exact leave_words (k := { enter handler c with mem := mem })
    (hstacked.congr (by rw [hlen]; decide) h)

end ShellOS.Asm.Interrupt
