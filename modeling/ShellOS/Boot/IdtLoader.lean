import ShellOS.Asm.Processor
import ShellOS.Library.Copying

namespace ShellOS.Boot.IdtLoader

open Library.Bytes Library.Copying Asm.Processor Asm.Processor.Cpu

/-- `&idt[index]`. The table is at address 0, with 16 bytes for an entry. -/
def descriptor (index : ℕ) : Word := BitVec.ofNat 64 (16 * index)

def acsPresent : BitVec 8 := 0x80

def acsInt386 : BitVec 8 := 0x0E

def acsInt : BitVec 8 := acsPresent ||| acsInt386

def members (offset : Word) : List Field :=
  [⟨2, 2, 0x08⟩, -- selector
   ⟨0, 2, (offset &&& 0xFFFF).setWidth 16⟩, -- offset_l
   ⟨6, 2, ((offset >>> 16) &&& 0xFFFF).setWidth 16⟩, -- offset_m
   ⟨8, 4, ((offset >>> 32) &&& 0xFFFFFFFF).setWidth 32⟩, -- offset_h
   ⟨5, 1, acsInt⟩, -- access
   ⟨4, 1, 0⟩, -- cero
   ⟨12, 4, 0⟩] -- other_cero

def setupIDTEntry (m : Memory) (index : ℕ) (offset : Word) : Memory :=
  storeFields m (descriptor index) (members offset)

structure Handlers where
  irq00 : Word
  irq01 : Word
  syscall : Word
  exception0 : Word
  exception6 : Word

structure Board where
  cpu : Cpu
  masterMask : BitVec 8
  slaveMask : BitVec 8

def Board.setEntry (b : Board) (index : ℕ) (offset : Word) : Board :=
  { b with cpu := { b.cpu with mem := setupIDTEntry b.cpu.mem index offset } }

def picMasterMask (b : Board) (mask : BitVec 16) : Board := { b with masterMask := mask.setWidth 8 }

def picSlaveMask (b : Board) (mask : BitVec 16) : Board := { b with slaveMask := mask.setWidth 8 }

def loadIdt (h : Handlers) (b : Board) : Board :=
  let b := { b with cpu := b.cpu.cli }
  let b := b.setEntry 0x20 h.irq00
  let b := b.setEntry 0x21 h.irq01
  let b := b.setEntry 0x80 h.syscall
  let b := b.setEntry 0x00 h.exception0
  let b := b.setEntry 0x06 h.exception6
  let b := picMasterMask b 0xFC
  let b := picSlaveMask b 0xFF
  { b with cpu := b.cpu.sti }

inductive Irq
  | timerHandler
  | keyboardHandler
  deriving DecidableEq

def irqDispatcher (irq : ℕ) : Option Irq := [Irq.timerHandler, Irq.keyboardHandler][irq]?

section Processor

/-- An entry of the table as the processor reads it. -/
structure Gate where
  offset : Word
  selector : BitVec 16
  stack : BitVec 8
  access : BitVec 8
  deriving DecidableEq

def member (m : Memory) (vector n i : ℕ) : BitVec (8 * n) :=
  load m n (descriptor vector + BitVec.ofNat 64 i)

def gate (m : Memory) (vector : ℕ) : Gate where
  offset := member m vector 4 8 ++ member m vector 2 6 ++ member m vector 2 0
  selector := member m vector 2 2
  stack := member m vector 1 4
  access := member m vector 1 5

/-- The processor takes an interrupt through a present interrupt gate, on the
same stack. -/
def deliver (c : Cpu) (vector : ℕ) : Option Cpu :=
  let g := gate c.mem vector
  if g.access &&& 0x9F = 0x8E ∧ g.stack = 0 then
    some { c.interrupt g.offset with cs := g.selector.setWidth 64 }
  else none

/-- A line of the controllers that reaches the processor. Those of the second
controller pass through line 2 of the first one. -/
def Board.unmasked (b : Board) (line : ℕ) : Bool :=
  if line < 8 then !b.masterMask.getLsbD line
  else decide (line < 16) && !b.masterMask.getLsbD 2 && !b.slaveMask.getLsbD (line - 8)

end Processor

variable {m : Memory} {index i j : ℕ} {offset x : Word} {es : List (ℕ × Word)}

section Entry

theorem members_apart (offset : Word) : (members offset).Pairwise Field.Apart := by
  simp [members, Field.Apart]

theorem members_size (offset : Word) : ∀ f ∈ members offset, f.offset + f.width ≤ 16 := by
  simp [members]

theorem setupIDTEntry_outside (hx : x ∉ span (descriptor index) 16) :
    setupIDTEntry m index offset x = m x := by
  refine storeFields_outside (fun f hf hmem ↦ hx ?_)
  have hsize := members_size offset f hf
  have hmem := (mem_place (by omega)).mp hmem
  change (x - descriptor index).toNat < 16
  omega

theorem member_setupIDTEntry {f : Field} (hf : f ∈ members offset) :
    member (setupIDTEntry m index offset) index f.width f.offset = f.value := by
  refine load_storeFields (members_apart offset) (fun g hg ↦ ?_) hf
  have hsize := members_size offset g hg
  omega

theorem masked (v : Word) {n : ℕ} {mask : Word} (hmask : ∀ i < n, mask.getLsbD i = true) :
    (v &&& mask).setWidth n = v.setWidth n := by
  apply BitVec.eq_of_getLsbD_eq
  intro i hi
  simp [hi, hmask i hi]

theorem append_parts {n k : ℕ} (v : BitVec (n + k)) :
    (v >>> k).setWidth n ++ v.setWidth k = v := by
  apply BitVec.eq_of_getLsbD_eq
  intro i hi
  rw [BitVec.getLsbD_append]
  by_cases hlow : i < k
  · simp [hlow]
  · have hsum : k + (i - k) = i := by omega
    have hhigh : i - k < n := by omega
    simp [hlow, hhigh, hsum]

theorem offset_parts (offset : Word) :
    ((offset >>> 32) &&& 0xFFFFFFFF).setWidth 32 ++ ((offset >>> 16) &&& 0xFFFF).setWidth 16 ++
      (offset &&& 0xFFFF).setWidth 16 = offset := by
  rw [masked _ (by decide), masked _ (by decide), masked _ (by decide)]
  let upper : BitVec (32 + 16) := (offset >>> 16).setWidth 48
  have hhigh : (upper >>> 16).setWidth 32 = (offset >>> 32).setWidth 32 := by
    apply BitVec.eq_of_getLsbD_eq
    intro i hi
    simp [upper, hi, ← Nat.add_assoc]
    omega
  have hmid : upper.setWidth 16 = (offset >>> 16).setWidth 16 := by
    apply BitVec.eq_of_getLsbD_eq
    intro i hi
    simp [upper, hi]
  have hupper := append_parts upper
  rw [hhigh, hmid] at hupper
  rw [hupper]
  exact append_parts (n := 48) (k := 16) offset

theorem gate_setupIDTEntry (m : Memory) (index : ℕ) (offset : Word) :
    gate (setupIDTEntry m index offset) index = ⟨offset, 0x08, 0, acsInt⟩ := by
  have hmembers : ∀ f ∈ members offset,
      member (setupIDTEntry m index offset) index f.width f.offset = f.value :=
    fun f hf ↦ member_setupIDTEntry hf
  simp only [members, List.forall_mem_cons] at hmembers
  obtain ⟨hselector, hlow, hmid, hhigh, haccess, hstack, -⟩ := hmembers
  have hoffset := offset_parts offset
  rw [← hhigh, ← hmid, ← hlow] at hoffset
  exact congr (congr (congr (congrArg Gate.mk hoffset) hselector) hstack) haccess

theorem gate_congr {m' : Memory} (h : ∀ x ∈ span (descriptor index) 16, m' x = m x) :
    gate m' index = gate m index := by
  have hmember : ∀ n i, i + n ≤ 16 → member m' index n i = member m index n i := by
    intro n i hi
    exact load_eq_iff.mpr fun x hx ↦ h x (mem_span_offset hi hx)
  rw [gate, hmember 4 8 (by decide), hmember 2 6 (by decide), hmember 2 0 (by decide),
    hmember 2 2 (by decide), hmember 1 4 (by decide), hmember 1 5 (by decide), ← gate]

theorem entries_disjoint (hi : i < 2 ^ 60) (hj : j < 2 ^ 60) (h : i ≠ j)
    (hx : x ∈ span (descriptor i) 16) : x ∉ span (descriptor j) 16 := by
  have hx : (x - descriptor i).toNat < 16 := hx
  change ¬ (x - descriptor j).toNat < 16
  unfold descriptor at *
  bv_omega

end Entry

section Table

def setEntries (m : Memory) (es : List (ℕ × Word)) : Memory :=
  es.foldl (fun m e ↦ setupIDTEntry m e.1 e.2) m

theorem setEntries_outside (hx : ∀ e ∈ es, x ∉ span (descriptor e.1) 16) :
    setEntries m es x = m x := by
  induction es generalizing m with
  | nil => rfl
  | cons e es ih =>
    rw [List.forall_mem_cons] at hx
    rw [setEntries, List.foldl_cons, ← setEntries, ih hx.2]
    exact setupIDTEntry_outside hx.1

theorem gate_setEntries (hes : es.Pairwise fun e e' ↦ e.1 ≠ e'.1) (hsize : ∀ e ∈ es, e.1 < 2 ^ 60)
    {e : ℕ × Word} (he : e ∈ es) : gate (setEntries m es) e.1 = ⟨e.2, 0x08, 0, acsInt⟩ := by
  induction es generalizing m with
  | nil => exact absurd he List.not_mem_nil
  | cons e' es ih =>
    obtain ⟨hne, hes⟩ := List.pairwise_cons.mp hes
    rw [List.forall_mem_cons] at hsize
    rw [setEntries, List.foldl_cons, ← setEntries]
    rcases List.mem_cons.mp he with rfl | he
    · rw [gate_congr (m := setupIDTEntry m e.1 e.2), gate_setupIDTEntry]
      intro x hx
      refine setEntries_outside (fun e' he' ↦ ?_)
      exact entries_disjoint hsize.1 (hsize.2 e' he') (hne e' he') hx
    · exact ih hes hsize.2 he

end Table

def Handlers.entries (h : Handlers) : List (ℕ × Word) :=
  [(0x20, h.irq00), (0x21, h.irq01), (0x80, h.syscall), (0x00, h.exception0), (0x06, h.exception6)]

def Handlers.irq (h : Handlers) (line : ℕ) : Option Word := [h.irq00, h.irq01][line]?

def Handlers.table (h : Handlers) : Set Word := {x | ∃ e ∈ h.entries, x ∈ span (descriptor e.1) 16}

variable {h : Handlers} {b : Board}

theorem loadIdt_mem (h : Handlers) (b : Board) :
    (loadIdt h b).cpu.mem = setEntries b.cpu.mem h.entries := rfl

theorem deliver_entry {c : Cpu} {e : ℕ × Word} (he : e ∈ h.entries)
    (hc : ∀ x ∈ h.table, c.mem x = (loadIdt h b).cpu.mem x) :
    deliver c e.1 = some { c.interrupt e.2 with cs := 0x08 } := by
  have hgate : gate c.mem e.1 = gate (loadIdt h b).cpu.mem e.1 :=
    gate_congr fun x hx ↦ hc x ⟨e, he, hx⟩
  rw [loadIdt_mem, gate_setEntries _ _ he] at hgate
  · rw [deliver, hgate]
    exact if_pos ⟨(by decide : acsInt &&& 0x9F = 0x8E), rfl⟩
  · simp [Handlers.entries]
  · simp [Handlers.entries]

theorem unmasked_lines (h : Handlers) (b : Board) (line : ℕ) :
    (loadIdt h b).unmasked line = true ↔ line < 2 := by
  have hmaster : (loadIdt h b).masterMask = 0xFC := rfl
  rw [Board.unmasked, hmaster]
  by_cases hline : line < 8
  · have hmask : ∀ line < 8, (!(0xFC : BitVec 8).getLsbD line) = true ↔ line < 2 := by decide
    rw [if_pos hline]
    exact hmask line hline
  · have hcascade : (0xFC : BitVec 8).getLsbD 2 = true := by decide
    rw [if_neg hline, hcascade]
    simp
    omega

theorem irqDispatcher_isSome (line : ℕ) : (irqDispatcher line).isSome = true ↔ line < 2 := by
  simp [irqDispatcher]

/-- Whatever the processor does after `load_idt`, as long as the table is left
alone, its interrupts come to their handlers. The lines that are not masked are
those for which `irqDispatcher` has a function, and each comes to the handler of
its number. -/
theorem loadIdt_delivers (h : Handlers) (b : Board) :
    (∀ line, (loadIdt h b).unmasked line = true ↔ (irqDispatcher line).isSome = true) ∧
    (∀ c : Cpu, (∀ x ∈ h.table, c.mem x = (loadIdt h b).cpu.mem x) →
      (∀ e ∈ h.entries, deliver c e.1 = some { c.interrupt e.2 with cs := 0x08 }) ∧
      ∀ line, (loadIdt h b).unmasked line = true → ∃ handler, h.irq line = some handler ∧
        deliver c (0x20 + line) = some { c.interrupt handler with cs := 0x08 }) ∧
    (loadIdt h b).cpu.rflags = b.cpu.rflags ||| interruptFlag ∧
    (∀ x ∉ h.table, (loadIdt h b).cpu.mem x = b.cpu.mem x) := by
  refine ⟨fun line ↦ ?_, fun c hc ↦ ?_, ?_, fun x hx ↦ ?_⟩
  · rw [unmasked_lines, irqDispatcher_isSome]
  · have hentries : ∀ e ∈ h.entries, deliver c e.1 = some { c.interrupt e.2 with cs := 0x08 } :=
      fun e he ↦ deliver_entry he hc
    refine ⟨hentries, fun line hline ↦ ?_⟩
    have hline := (unmasked_lines h b line).mp hline
    rcases Nat.le_one_iff_eq_zero_or_eq_one.mp (Nat.le_of_lt_succ hline) with rfl | rfl
    · exact ⟨h.irq00, rfl, hentries (0x20, h.irq00) (by simp [Handlers.entries])⟩
    · exact ⟨h.irq01, rfl, hentries (0x21, h.irq01) (by simp [Handlers.entries])⟩
  · change b.cpu.rflags &&& ~~~interruptFlag ||| interruptFlag = _
    apply BitVec.eq_of_getLsbD_eq
    intro i hi
    simp only [BitVec.getLsbD_or, BitVec.getLsbD_and, BitVec.getLsbD_not, hi, decide_true,
      Bool.true_and]
    cases b.cpu.rflags.getLsbD i
    · rfl
    · cases interruptFlag.getLsbD i
      · rfl
      · rfl
  · rw [loadIdt_mem]
    exact setEntries_outside fun e he hmem ↦ hx ⟨e, he, hmem⟩

def someHandlers : Handlers := ⟨0x100200, 0x100300, 0x100400, 0x100500, 0x100600⟩

def someBoard : Board :=
  { cpu := ⟨⟨0, 0, 0, 0, 0, 0, 0, 0, 0, 0, 0, 0, 0, 0, 0⟩, 0x200000, 0x100000, 0, 8, 0, fun _ ↦ 0⟩
    masterMask := 0xFF
    slaveMask := 0xFF }

theorem loadIdt_delivers_keyboard :
    deliver (loadIdt someHandlers someBoard).cpu 0x21 =
      some { (loadIdt someHandlers someBoard).cpu.interrupt 0x100300 with cs := 0x08 } := by
  obtain ⟨-, hdelivers, -⟩ := loadIdt_delivers someHandlers someBoard
  obtain ⟨hentries, -⟩ := hdelivers (loadIdt someHandlers someBoard).cpu (fun _ _ ↦ rfl)
  exact hentries (0x21, 0x100300) (by simp [Handlers.entries, someHandlers])

end ShellOS.Boot.IdtLoader
