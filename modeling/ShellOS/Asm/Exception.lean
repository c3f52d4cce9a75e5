import ShellOS.Asm.Interrupt
import ShellOS.Library.Copying

namespace ShellOS.Asm.Exception

open Library.Bytes Library.Copying Processor Cpu Interrupt

inductive Reg
  | rax | rbx | rcx | rdx | rbp | rdi | rsi | r8 | r9 | r10 | r11 | r12 | r13 | r14 | r15 | rsp
  deriving DecidableEq

def Reg.get (c : Cpu) : Reg → Word
  | .rax => c.reg.rax
  | .rbx => c.reg.rbx
  | .rcx => c.reg.rcx
  | .rdx => c.reg.rdx
  | .rbp => c.reg.rbp
  | .rdi => c.reg.rdi
  | .rsi => c.reg.rsi
  | .r8 => c.reg.r8
  | .r9 => c.reg.r9
  | .r10 => c.reg.r10
  | .r11 => c.reg.r11
  | .r12 => c.reg.r12
  | .r13 => c.reg.r13
  | .r14 => c.reg.r14
  | .r15 => c.reg.r15
  | .rsp => c.rsp

inductive Fn
  | exceptionDispatcher
  | ncPrintReg
  | rebootConsole
  deriving DecidableEq

inductive Instr
  | op (f : Cpu → Cpu)
  | call (fn : Fn)

section Text

variable (regsNames back : Word)

def setRax (v : Word) (c : Cpu) : Cpu := { c with reg := { c.reg with rax := v } }

def setRdi (v : Word) (c : Cpu) : Cpu := { c with reg := { c.reg with rdi := v } }

def setRsi (v : Word) (c : Cpu) : Cpu := { c with reg := { c.reg with rsi := v } }

def popRdi (c : Cpu) : Cpu := setRdi c.pop.1 c.pop.2

def popRax (c : Cpu) : Cpu := setRax c.pop.1 c.pop.2

def ret (c : Cpu) : Cpu := { c.pop.2 with rip := c.pop.1 }

def printReg (r : Reg) (name : ℕ) : List Instr :=
  [.op fun c ↦ setRsi (r.get c) c, .op (setRdi (regsNames + BitVec.ofNat 64 (4 * name))),
    .call .ncPrintReg]

def printRegs (rs : List (Reg × ℕ)) : List Instr := rs.flatMap fun p ↦ printReg regsNames p.1 p.2

def dumped : List (Reg × ℕ) :=
  [(.rdi, 0), (.rax, 2), (.rbx, 3), (.rcx, 4), (.rdx, 5), (.r8, 6), (.r9, 7), (.r10, 8), (.r11, 9),
    (.r12, 10), (.r13, 11), (.r14, 12), (.r15, 13), (.rsp, 15), (.rbp, 16)]

def dumpRegs : List Instr :=
  [.op fun c ↦ c.push c.reg.rdi] ++ printReg regsNames .rsi 1 ++ [.op popRdi] ++
    printRegs regsNames dumped ++ [.op ret]

/-- The names are at `regsNames`, and `back` is the address behind the call of
`dumpRegs`. -/
def exceptionHandler (exception : Word) : List Instr :=
  [.op pushState, .op (setRdi exception), .call .exceptionDispatcher, .op fun c ↦ c.push back] ++
    dumpRegs regsNames ++ [.op popState, .op popRax] ++ printReg regsNames .rax 14 ++
    [.call .rebootConsole, .op (setRax 0x400000), .op fun c ↦ c.push c.reg.rax,
      .op fun c ↦ { c with mem := store c.mem 8 (c.rsp + 24) 0x10CFD0 }, .op iretq]

def exception0Handler : List Instr := exceptionHandler regsNames back 0

def exception6Handler : List Instr := exceptionHandler regsNames back 6

end Text

def nameTexts : List String :=
  ["rdi", "rsi", "rax", "rbx", "rcx", "rdx", "r8 ", "r9 ", "r10", "r11", "r12", "r13", "r14", "r15",
    "rip", "rsp", "rbp"]

def Reg.name : Reg → String
  | .rax => "rax"
  | .rbx => "rbx"
  | .rcx => "rcx"
  | .rdx => "rdx"
  | .rbp => "rbp"
  | .rdi => "rdi"
  | .rsi => "rsi"
  | .r8 => "r8 "
  | .r9 => "r9 "
  | .r10 => "r10"
  | .r11 => "r11"
  | .r12 => "r12"
  | .r13 => "r13"
  | .r14 => "r14"
  | .r15 => "r15"
  | .rsp => "rsp"

/-- The registers that a C function gives back as it found them. -/
def calleeSaved : List Reg := [.rbx, .rbp, .r12, .r13, .r14, .r15]

/-- A function of the C text returns: it may have changed everything but the
registers that it saves and the stack from its frame up to `top`. -/
structure Returned (top : Word) (c d : Cpu) : Prop where
  rsp : d.rsp = c.rsp
  saved : ∀ r ∈ calleeSaved, r.get d = r.get c
  stack : ∀ x ∈ span c.rsp (top - c.rsp).toNat, d.mem x = c.mem x

structure Called where
  fn : Fn
  rdi : Word
  rsi : Word
  deriving DecidableEq

inductive Exec (top : Word) : List Instr → Cpu → List Called → Cpu → Prop
  | nil {c : Cpu} : Exec top [] c [] c
  | op {is : List Instr} {f : Cpu → Cpu} {c k : Cpu} {out : List Called} :
      Exec top is (f c) out k → Exec top (.op f :: is) c out k
  | call {is : List Instr} {fn : Fn} {c d k : Cpu} {out : List Called} :
      Returned top c d → Exec top is d out k →
      Exec top (.call fn :: is) c (⟨fn, c.reg.rdi, c.reg.rsi⟩ :: out) k

variable {top names back handler exception : Word} {c d k : Cpu} {is js : List Instr}
  {out : List Called} {rs : List (Reg × ℕ)} {r : Reg} {i : ℕ} {us : List Word}

section Exec

theorem Exec.of_append (h : Exec top (is ++ js) c out k) :
    ∃ d out₁ out₂, Exec top is c out₁ d ∧ Exec top js d out₂ k ∧ out = out₁ ++ out₂ := by
  induction is generalizing c out with
  | nil => exact ⟨c, [], out, .nil, h, rfl⟩
  | cons i is ih =>
    cases h with
    | op h =>
      obtain ⟨d, out₁, out₂, h₁, h₂, rfl⟩ := ih h
      exact ⟨d, out₁, out₂, .op h₁, h₂, rfl⟩
    | call hret h =>
      obtain ⟨d, out₁, out₂, h₁, h₂, rfl⟩ := ih h
      exact ⟨d, _ :: out₁, out₂, .call hret h₁, h₂, rfl⟩

theorem Exec.of_op {f : Cpu → Cpu} (h : Exec top (.op f :: is) c out k) : Exec top is (f c) out k := by
  cases h with
  | op h => exact h

theorem Exec.of_call {fn : Fn} (h : Exec top (.call fn :: is) c out k) :
    ∃ d out', Returned top c d ∧ Exec top is d out' k ∧
      out = ⟨fn, c.reg.rdi, c.reg.rsi⟩ :: out' := by
  cases h with
  | call hret h => exact ⟨_, _, hret, h, rfl⟩

theorem Exec.of_nil (h : Exec top [] c out k) : k = c ∧ out = [] := by
  cases h with
  | nil => exact ⟨rfl, rfl⟩

theorem Returned.refl (top : Word) (c : Cpu) : Returned top c c := ⟨rfl, fun _ _ ↦ rfl, fun _ _ ↦ rfl⟩

theorem Returned.trans (h : Returned top c d) (h' : Returned top d k) : Returned top c k := by
  refine ⟨h'.rsp.trans h.rsp, fun r hr ↦ (h'.saved r hr).trans (h.saved r hr), fun x hx ↦ ?_⟩
  rw [← h.stack x hx]
  apply h'.stack
  rw [h.rsp]
  exact hx

theorem Returned.of_eq (hrsp : d.rsp = c.rsp) (hmem : d.mem = c.mem)
    (hsaved : ∀ r ∈ calleeSaved, r.get d = r.get c) : Returned top c d :=
  ⟨hrsp, hsaved, fun _ _ ↦ by rw [hmem]⟩

theorem Returned.stacked (h : Returned top c d) (hus : Stacked c.mem c.rsp us)
    (hlen : (top - c.rsp).toNat = 8 * us.length) : Stacked d.mem d.rsp us := by
  rw [h.rsp]
  refine hus.congr ?_ (fun x hx ↦ h.stack x ?_)
  · have := (top - c.rsp).isLt
    omega
  · rw [hlen]
    exact hx

theorem get_of_reg (hr : r ∈ calleeSaved) (h : c.reg = d.reg) : r.get c = r.get d := by
  revert r
  simp [calleeSaved, Reg.get, h]

theorem get_setRsi (hr : r ∈ calleeSaved) (v : Word) : r.get (setRsi v c) = r.get c := by
  revert r
  simp [calleeSaved, Reg.get, setRsi]

theorem get_setRdi (hr : r ∈ calleeSaved) (v : Word) : r.get (setRdi v c) = r.get c := by
  revert r
  simp [calleeSaved, Reg.get, setRdi]

theorem printReg_spec (h : Exec top (printReg names r i) c out k) :
    Returned top c k ∧ out = [⟨.ncPrintReg, names + BitVec.ofNat 64 (4 * i), r.get c⟩] := by
  obtain ⟨d, out', hret, hrest, rfl⟩ := h.of_op.of_op.of_call
  obtain ⟨rfl, rfl⟩ := hrest.of_nil
  refine ⟨Returned.trans ?_ hret, rfl⟩
  exact .of_eq rfl rfl fun r hr ↦ (get_setRdi hr _).trans (get_setRsi hr _)

theorem printRegs_spec (h : Exec top (printRegs names rs) c out k) :
    Returned top c k ∧ (∀ q ∈ out, q.fn = .ncPrintReg) ∧ ∀ p ∈ rs, p.1 ∈ calleeSaved →
      ⟨.ncPrintReg, names + BitVec.ofNat 64 (4 * p.2), p.1.get c⟩ ∈ out := by
  induction rs generalizing c out with
  | nil =>
    obtain ⟨rfl, rfl⟩ := h.of_nil
    exact ⟨.refl top k, fun q hq ↦ absurd hq List.not_mem_nil,
      fun p hp ↦ absurd hp List.not_mem_nil⟩
  | cons p rs ih =>
    rw [printRegs, List.flatMap_cons, ← printRegs] at h
    obtain ⟨d, out₁, out₂, h₁, h₂, rfl⟩ := h.of_append
    obtain ⟨hret, rfl⟩ := printReg_spec h₁
    obtain ⟨hret', hfn, hout⟩ := ih h₂
    refine ⟨hret.trans hret', ?_, fun q hq hsaved ↦ ?_⟩
    · simpa using hfn
    · rcases List.mem_cons.mp hq with rfl | hq
      · simp
      · rw [← hret.saved _ hsaved]
        exact List.mem_append_right _ (hout q hq hsaved)

end Exec

section Dump

theorem span_push {v : Word} (hlen : (top - c.rsp).toNat + 8 < 2 ^ 64) :
    (top - (c.push v).rsp).toNat = (top - c.rsp).toNat + 8 ∧
      ∀ x ∈ span c.rsp (top - c.rsp).toNat,
        x ∈ span (c.push v).rsp (top - (c.push v).rsp).toNat ∧ (c.push v).mem x = c.mem x := by
  have hrsp : (c.push v).rsp = c.rsp - 8 := rfl
  have hsize : (top - (c.push v).rsp).toNat = (top - c.rsp).toNat + 8 := by
    rw [hrsp]
    bv_omega
  refine ⟨hsize, fun x hx ↦ ?_⟩
  have hx : (x - c.rsp).toNat < (top - c.rsp).toNat := hx
  constructor
  · rw [hsize, hrsp]
    change (x - (c.rsp - 8)).toNat < _
    bv_omega
  · apply store_outside
    change ¬ (x - (c.rsp - 8)).toNat < 8
    bv_omega

/-- What is done behind a push and ends with the pop of that word. -/
theorem Returned.of_push {v : Word} {f : Cpu → Cpu} (h : Returned top (c.push v) d)
    (hlen : (top - c.rsp).toNat + 8 < 2 ^ 64) (hrsp : (f d).rsp = d.rsp + 8)
    (hmem : (f d).mem = d.mem) (hsaved : ∀ r ∈ calleeSaved, r.get (f d) = r.get d) :
    Returned top c (f d) := by
  obtain ⟨-, hpushed⟩ := span_push (v := v) hlen
  refine ⟨?_, fun r hr ↦ ?_, fun x hx ↦ ?_⟩
  · rw [hrsp, h.rsp]
    change c.rsp - 8 + 8 = c.rsp
    bv_omega
  · rw [hsaved r hr, h.saved r hr]
    exact get_of_reg hr rfl
  · obtain ⟨hmem', hkept⟩ := hpushed x hx
    rw [hmem, h.stack x hmem', hkept]

theorem dumpRegs_spec (h : Exec top (.op (fun c ↦ c.push back) :: dumpRegs names) c out k)
    (hlen : (top - c.rsp).toNat + 16 < 2 ^ 64) :
    Returned top c k ∧ (∀ q ∈ out, q.fn = .ncPrintReg) ∧
      ∀ r ∈ calleeSaved, ∃ i, nameTexts[i]? = some r.name ∧
        ⟨.ncPrintReg, names + BitVec.ofNat 64 (4 * i), r.get c⟩ ∈ out := by
  obtain ⟨d₃, out₁, out₂, hprints, hlast, rfl⟩ := h.of_op.of_append
  obtain ⟨d₂, out₃, out₄, hfirst, hdumped, rfl⟩ := hprints.of_append
  obtain ⟨d₁, out₅, out₆, hrsi, hpop, rfl⟩ := hfirst.of_append
  obtain ⟨rfl, rfl⟩ := hpop.of_op.of_nil
  obtain ⟨rfl, rfl⟩ := hlast.of_op.of_nil
  have hsize : (top - (c.push back).rsp).toNat = (top - c.rsp).toNat + 8 := (span_push (by omega)).1
  obtain ⟨hreturn, rfl⟩ := printReg_spec hrsi.of_op
  have hprinted : Returned top (c.push back) (popRdi d₁) :=
    hreturn.of_push (by omega) rfl rfl fun r hr ↦ (get_setRdi hr _).trans (get_of_reg hr rfl)
  obtain ⟨hreturned, hfn, hout⟩ := printRegs_spec hdumped
  have hbody := hprinted.trans hreturned
  refine ⟨hbody.of_push (by omega) rfl rfl fun r hr ↦ get_of_reg hr rfl, ?_, fun r hr ↦ ?_⟩
  · simpa using hfn
  · have hnamed : ∀ r ∈ calleeSaved, ∃ i ∈ List.range 17,
        nameTexts[i]? = some r.name ∧ (r, i) ∈ dumped := by
      decide
    obtain ⟨i, -, hname, hmem⟩ := hnamed r hr
    have hvalue : r.get (popRdi d₁) = r.get c :=
      (hprinted.saved r hr).trans (get_of_reg hr rfl)
    refine ⟨i, hname, ?_⟩
    have hshown := hout (r, i) hmem hr
    rw [hvalue] at hshown
    simp [hshown]

end Dump

theorem interrupt_stacked (handler : Word) (c : Cpu) :
    Stacked (c.interrupt handler).mem (c.interrupt handler).rsp (thread c).frame ∧
      (c.interrupt handler).rsp = c.rsp - c.rsp % 16 - 40 := by
  let aligned : Cpu := { c with rsp := c.rsp - c.rsp % 16 }
  have hempty : Stacked aligned.mem aligned.rsp [] := trivial
  have hframe : Stacked (c.interrupt handler).mem (c.interrupt handler).rsp
      (c.interruptFrame.reverse ++ []) :=
    pushes_stacked hempty (by decide : 8 * (5 + 0) ≤ 2 ^ 64)
  exact ⟨hframe, pushes_rsp aligned c.interruptFrame⟩

section Restart

variable {cs rflags rsp ss : Word}

theorem iretq_restarts (h : Stacked d.mem d.rsp [cs, rflags, rsp, ss]) :
    let c := (setRax 0x400000 d).push 0x400000
    let k := iretq { c with mem := store c.mem 8 (c.rsp + 24) 0x10CFD0 }
    k.rip = 0x400000 ∧ k.rsp = 0x10CFD0 ∧ k.cs = cs ∧ k.rflags = rflags ∧ k.ss = ss := by
  intro c k
  have hpushed : Stacked c.mem c.rsp [0x400000, cs, rflags, rsp, ss] :=
    h.push (u := 0x400000) (by decide : 8 * (4 + 1) ≤ 2 ^ 64)
  obtain ⟨hip, hcs, hflags, -, hss, -⟩ := hpushed
  let m := store c.mem 8 (c.rsp + 24) 0x10CFD0
  have hkept : ∀ a : Word, (a - c.rsp).toNat + 8 ≤ 24 ∨ a = c.rsp + 32 →
      load m 8 a = load c.mem 8 a := by
    intro a ha
    rw [load_eq_iff]
    intro x hx
    refine store_outside (fun hx' ↦ ?_)
    have hx : (x - a).toNat < 8 := hx
    have hx' : (x - (c.rsp + 24)).toNat < 8 := hx'
    rcases ha with ha | rfl
    · bv_omega
    · bv_omega
  have hstored : load m 8 (c.rsp + 8 + 8 + 8) = 0x10CFD0 := by
    have haddress : c.rsp + 8 + 8 + 8 = c.rsp + 24 := by bv_omega
    rw [haddress]
    exact load_store (by decide)
  have hwords : Stacked m c.rsp [0x400000, cs, rflags, 0x10CFD0, ss] :=
    ⟨(hkept _ (.inl (by bv_omega))).trans hip, (hkept _ (.inl (by bv_omega))).trans hcs,
      (hkept _ (.inl (by bv_omega))).trans hflags, hstored,
      (hkept _ (.inr (by bv_omega))).trans hss, trivial⟩
  have hk := iretq_eq (c := { c with mem := m }) hwords
  rw [show k = _ from hk]
  exact ⟨rfl, rfl, rfl, rfl, rfl⟩

theorem dump_spec {rip : Word} (hframe : Stacked c.mem c.rsp [rip, cs, rflags, rsp, ss])
    (h : Exec (c.rsp + 40) ([.op pushState, .op (setRdi exception), .call .exceptionDispatcher,
      .op fun c ↦ c.push back] ++ dumpRegs names ++ [.op popState, .op popRax]) c out d) :
    (d.rsp = c.rsp + 8 ∧ Stacked d.mem d.rsp [cs, rflags, rsp, ss]) ∧ d.reg.rax = rip ∧
      ∃ reason shown, out = ⟨.exceptionDispatcher, exception, reason⟩ :: shown ∧
        (∀ q ∈ shown, q.fn = .ncPrintReg) ∧
        ∀ r ∈ calleeSaved, ∃ i, nameTexts[i]? = some r.name ∧
          ⟨.ncPrintReg, names + BitVec.ofNat 64 (4 * i), r.get c⟩ ∈ shown := by
  obtain ⟨d₁, out₁, out₂, hbody, hpops, rfl⟩ := h.of_append
  obtain ⟨d₀, shown, hreason, hdump, rfl⟩ := hbody.of_op.of_op.of_call
  obtain ⟨rfl, rfl⟩ := hpops.of_op.of_op.of_nil
  have hwords : Stacked (pushState c).mem (pushState c).rsp
      (c.reg.saved.reverse ++ [rip, cs, rflags, rsp, ss]) :=
    pushes_stacked hframe (by decide : 8 * (15 + 5) ≤ 2 ^ 64)
  have hpushed : (pushState c).rsp = c.rsp - 120 := pushes_rsp c c.reg.saved
  have hreg : (pushState c).reg = c.reg := by rw [pushState, pushes_eq]
  have hsize : (c.rsp + 40 - (pushState c).rsp).toNat = 160 := by
    rw [hpushed]
    bv_omega
  have hreason_words := hreason.stacked hwords hsize
  have hreason_rsp : d₀.rsp = (pushState c).rsp := hreason.rsp
  rw [← hreason_rsp] at hsize
  obtain ⟨hdumped, hfn, hout⟩ := dumpRegs_spec hdump (by omega)
  obtain ⟨hpop, hrest⟩ := popState_eq (hdumped.stacked hreason_words hsize)
  obtain ⟨hrip, hrest⟩ := hrest
  have hrsp : d₁.rsp = c.rsp - 120 := by rw [hdumped.rsp, hreason_rsp, hpushed]
  have hpopped : popRax d₁.popState =
      { d₁ with reg := { c.reg with rax := rip }, rsp := d₁.rsp + 120 + 8 } := by
    rw [hpop, popRax, pop, hrip]
    rfl
  rw [hpopped]
  refine ⟨⟨?_, hrest⟩, rfl, _, shown, by rw [List.append_nil]; rfl, hfn, fun r hr ↦ ?_⟩
  · rw [hrsp]
    bv_omega
  · obtain ⟨i, hname, hmem⟩ := hout r hr
    have hvalue : r.get d₀ = r.get c :=
      (hreason.saved r hr).trans ((get_setRdi hr _).trans (get_of_reg hr hreg))
    rw [hvalue] at hmem
    exact ⟨i, hname, hmem⟩

end Restart

/-- However the functions that it calls behave within their frames, the handler
prints the instruction pointer of the process that failed and the registers that
functions save, and ends in the first instruction of the user program, on a
stack of its own and with the flags of that process. -/
theorem exceptionHandler_restarts
    (h : Exec (c.rsp - c.rsp % 16) (exceptionHandler names back exception) (c.interrupt handler)
      out k) :
    (k.rip = 0x400000 ∧ k.rsp = 0x10CFD0 ∧ k.cs = c.cs ∧ k.rflags = c.rflags ∧ k.ss = c.ss) ∧
      (∃ shown reason question, out =
        ⟨.exceptionDispatcher, exception, reason⟩ :: shown ++ [question] ∧
          question.fn = .rebootConsole ∧ (∀ p ∈ shown, p.fn = .ncPrintReg)) ∧
      (∃ i, nameTexts[i]? = some "rip" ∧
        ⟨.ncPrintReg, names + BitVec.ofNat 64 (4 * i), c.rip⟩ ∈ out) ∧
      ∀ r ∈ calleeSaved, ∃ i, nameTexts[i]? = some r.name ∧
        ⟨.ncPrintReg, names + BitVec.ofNat 64 (4 * i), r.get c⟩ ∈ out := by
  obtain ⟨d₃, out₁, out₂, hbody, htail, rfl⟩ := h.of_append
  obtain ⟨d₂, out₃, out₄, hdump, hprint, rfl⟩ := hbody.of_append
  obtain ⟨hprinted, rfl⟩ := printReg_spec hprint
  obtain ⟨d₄, out₅, hquestion, hend, rfl⟩ := htail.of_call
  obtain ⟨rfl, rfl⟩ := hend.of_op.of_op.of_op.of_op.of_nil
  obtain ⟨hframe, hrsp⟩ := interrupt_stacked handler c
  have htop : c.rsp - c.rsp % 16 = (c.interrupt handler).rsp + 40 := by
    rw [hrsp, BitVec.sub_add_cancel]
  rw [htop] at hdump hprinted hquestion
  obtain ⟨⟨hlast, hwords⟩, hrax, reason, shown, rfl, hfn, hshown⟩ := dump_spec hframe hdump
  have hsize : ((c.interrupt handler).rsp + 40 - d₂.rsp).toNat = 32 := by
    rw [hlast]
    bv_omega
  have hprinted_words := hprinted.stacked hwords hsize
  rw [← hprinted.rsp] at hsize
  have hquestion_words := hquestion.stacked hprinted_words hsize
  have hrip : Reg.rax.get d₂ = c.rip := hrax
  let ripShown : Called := ⟨.ncPrintReg, names + BitVec.ofNat 64 (4 * 14), Reg.rax.get d₂⟩
  refine ⟨iretq_restarts hquestion_words, ⟨shown ++ [ripShown], reason,
    ⟨.rebootConsole, d₃.reg.rdi, d₃.reg.rsi⟩, ?_, rfl, ?_⟩, ⟨14, rfl, ?_⟩, ?_⟩
  · simp [ripShown]
  · intro p hp
    rcases List.mem_append.mp hp with hp | hp
    · exact hfn p hp
    · rw [List.mem_singleton.mp hp]
  · rw [hrip]
    simp
  · intro r hr
    obtain ⟨i, hname, hmem⟩ := hshown r hr
    have hvalue : r.get (c.interrupt handler) = r.get c :=
      get_of_reg hr (interrupt_reg handler c)
    rw [hvalue] at hmem
    exact ⟨i, hname, by simp [hmem]⟩

def quietRun : List Instr → Cpu → Cpu × List Called
  | [], c => (c, [])
  | .op f :: is, c => quietRun is (f c)
  | .call fn :: is, c =>
    let r := quietRun is c
    (r.1, ⟨fn, c.reg.rdi, c.reg.rsi⟩ :: r.2)

theorem quietRun_exec (top : Word) (is : List Instr) (c : Cpu) :
    Exec top is c (quietRun is c).2 (quietRun is c).1 := by
  induction is generalizing c with
  | nil => exact .nil
  | cons i is ih =>
    cases i with
    | op f => exact .op (ih (f c))
    | call fn => exact .call (.refl top c) (ih c)

def failing : Cpu :=
  ⟨⟨0, 1, 0, 0, 0, 0, 0, 0, 0, 0, 0, 0, 0, 0, 0⟩, 0x900000, 0x401234, 0x202, 8, 0, fun _ ↦ 0⟩

theorem exceptionHandler_restarts_division :
    (quietRun (exceptionHandler 0x9000 0x2000 0) (failing.interrupt 0x3000)).1.rip = 0x400000 ∧
      ∃ i, nameTexts[i]? = some "rip" ∧ ⟨.ncPrintReg, 0x9000 + BitVec.ofNat 64 (4 * i), 0x401234⟩ ∈
        (quietRun (exceptionHandler 0x9000 0x2000 0) (failing.interrupt 0x3000)).2 := by
  obtain ⟨⟨hrip, -⟩, -, hshown, -⟩ := exceptionHandler_restarts (c := failing)
    (quietRun_exec (failing.rsp - failing.rsp % 16) _ (failing.interrupt 0x3000))
  exact ⟨hrip, hshown⟩

end ShellOS.Asm.Exception
