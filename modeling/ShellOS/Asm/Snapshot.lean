import ShellOS.Asm.Interrupt
import ShellOS.Library.Copying
import ShellOS.Library.Runs

namespace ShellOS.Asm.Snapshot

open Library.Bytes Library.Copying Library.Runs Processor Cpu Interrupt

def saveRegister (c : Cpu) (offset : Word) : Cpu :=
  let c := { c with reg := { c.reg with rax := load c.mem 8 (c.rsp + offset) } }
  let c := { c with mem := store c.mem 8 c.reg.rdi c.reg.rax }
  { c with reg := { c.reg with rdi := c.reg.rdi + 8 } }

def offsets : List Word := [136, 128, 120, 112, 104, 96, 88, 80, 72, 64, 56, 48, 40, 32, 24]

def ret (c : Cpu) : Cpu :=
  let (rip, c) := c.pop
  { c with rip := rip }

def saveState (c : Cpu) : Cpu := ret (offsets.foldl saveRegister c)

/-- `call saveBackup`, which has nothing on its stack but the old `rbp`. `back`
and `inside` are the addresses that the two calls return to. -/
def saveBackup (backupAuxRegisters back inside : Word) (c : Cpu) : Cpu :=
  let c := c.push back
  let c := c.push c.reg.rbp
  let c := { c with reg := { c.reg with rbp := c.rsp, rdi := backupAuxRegisters } }
  let c := saveState (c.push inside)
  let (rbp, c) := c.pop
  ret { c with reg := { c.reg with rbp := rbp } }

def fields (registers : Word) : List Word :=
  (List.range 15).map fun i ↦ registers + BitVec.ofNat 64 (8 * i)

def loadRegisters (m : Memory) (registers source : Word) : Memory :=
  gather m registers (fields source)

variable {c : Cpu} {m m' : Memory} {r : Registers} {us : List Word}
  {registers source backup back inside x : Word}

section Save

theorem saveRegisters_mem (c : Cpu) (os : List Word) :
    (os.foldl saveRegister c).mem = gather c.mem c.reg.rdi (os.map fun o ↦ c.rsp + o) ∧
      (os.foldl saveRegister c).rsp = c.rsp := by
  induction os generalizing c with
  | nil => exact ⟨rfl, rfl⟩
  | cons o os ih => exact ih (saveRegister c o)

theorem offsets_eq :
    offsets = ((List.range 15).map fun i ↦ BitVec.ofNat 64 (24 + 8 * i)).reverse := rfl

/-- Behind `pushState` and three more words, the offsets are those of the
registers. -/
theorem saved_at_offsets {rsp : Word} (h : Stacked m (rsp + 24) r.saved.reverse) :
    (offsets.map fun o ↦ load m 8 (rsp + o)) = r.saved := by
  have hplace : ∀ i, load m 8 (rsp + BitVec.ofNat 64 (24 + 8 * i)) =
      load m 8 (rsp + 24 + BitVec.ofNat 64 (8 * i)) := by
    intro i
    congr 1
    bv_omega
  have hwords := (List.map_congr_left fun i (_ : i ∈ List.range 15) ↦ hplace i).trans (stacked_map h)
  rw [offsets_eq, List.map_reverse, List.map_map]
  exact (congrArg List.reverse hwords).trans (List.reverse_reverse _)

theorem offsets_le : ∀ o ∈ offsets, o.toNat ≤ 136 := by
  simp [offsets]

theorem saveBackup_spec (back inside : Word) (h : Stacked c.mem c.rsp (r.saved.reverse ++ us))
    (hapart : Disjoint (span (c.rsp - 24) 144) (span backup 120)) :
    Stacked (saveBackup backup back inside c).mem backup r.saved ∧
      (∀ x, x ∉ span (c.rsp - 24) 24 → x ∉ span backup 120 →
        (saveBackup backup back inside c).mem x = c.mem x) ∧
      (saveBackup backup back inside c).rsp = c.rsp := by
  let framed : Cpu := (c.push back).push c.reg.rbp
  let d : Cpu :=
    ({ framed with reg := { c.reg with rbp := framed.rsp, rdi := backup } } : Cpu).push inside
  obtain ⟨hmem, hrsp⟩ := saveRegisters_mem d offsets
  have hd : d.rsp = c.rsp - 24 := by
    change c.rsp - 8 - 8 - 8 = c.rsp - 24
    bv_omega
  have hpushed : ∀ x, x ∉ span (c.rsp - 24) 24 → d.mem x = c.mem x := by
    intro x hx
    have hx : ¬ (x - (c.rsp - 24)).toNat < 24 := hx
    have hthird : x ∉ span (c.rsp - 8 - 8 - 8) 8 := by
      change ¬ (x - (c.rsp - 8 - 8 - 8)).toNat < 8
      bv_omega
    have hsecond : x ∉ span (c.rsp - 8 - 8) 8 := by
      change ¬ (x - (c.rsp - 8 - 8)).toNat < 8
      bv_omega
    have hfirst : x ∉ span (c.rsp - 8) 8 := by
      change ¬ (x - (c.rsp - 8)).toNat < 8
      bv_omega
    calc d.mem x = framed.mem x := store_outside hthird
      _ = (c.push back).mem x := store_outside hsecond
      _ = c.mem x := store_outside hfirst
  have hsize : 8 * (offsets.map fun o ↦ d.rsp + o).length ≤ 2 ^ 64 := by
    rw [List.length_map]
    decide
  have hfinal : (saveBackup backup back inside c).mem =
      gather d.mem backup (offsets.map fun o ↦ d.rsp + o) := hmem
  refine ⟨?_, fun x hx hx' ↦ ?_, ?_⟩
  · have hstacked : Stacked d.mem (d.rsp + 24) r.saved.reverse := by
      have htop : d.rsp + 24 = c.rsp := by
        rw [hd]
        bv_omega
      rw [htop]
      refine (stacked_left h).congr (by simp [Registers.saved]) fun x hx ↦ hpushed x fun hx' ↦ ?_
      have hx : (x - c.rsp).toNat < 120 := hx
      have hx' : (x - (c.rsp - 24)).toNat < 24 := hx'
      bv_omega
    have hgathered := gather_stacked (m := d.mem) (d := backup) hsize fun s hs ↦ ?_
    · rw [List.map_map] at hgathered
      rw [hfinal, ← saved_at_offsets hstacked]
      exact hgathered
    · obtain ⟨o, ho, rfl⟩ := List.mem_map.mp hs
      refine hapart.mono_left fun x hx ↦ ?_
      have hle := offsets_le o ho
      rw [hd] at hx
      have hx : (x - (c.rsp - 24 + o)).toNat < 8 := hx
      change (x - (c.rsp - 24)).toNat < 144
      bv_omega
  · rw [hfinal, gather_outside hsize hx']
    exact hpushed x hx
  · change (offsets.foldl saveRegister d).rsp + 8 + 8 + 8 = c.rsp
    rw [hrsp, hd]
    bv_omega

end Save

section Run

structure Places where
  backupRegisters : Word
  backupAuxRegisters : Word
  apart : Disjoint (span backupRegisters 120) (span backupAuxRegisters 120)

def Places.area (P : Places) : Set Word :=
  span P.backupRegisters 120 ∪ span P.backupAuxRegisters 120

/-- A keyboard interrupt that comes while the processor is in the state `c`,
with the memory that it leaves, or the key F1 in `read`, or anything else. -/
inductive Event
  | keyboard (c : Cpu) (m : Memory)
  | f1
  | other (m : Memory)

/-- Only these routines write to the two copies. -/
inductive Step (P : Places) (handler back inside : Word) : Memory → Event → Memory → Prop
  | keyboard {c : Cpu} {m : Memory} :
      (∀ x ∈ P.area,
        m x = (saveBackup P.backupAuxRegisters back inside (enter handler c)).mem x) →
      Step P handler back inside c.mem (.keyboard c m) m
  | f1 {m : Memory} : Step P handler back inside m .f1
      (loadRegisters m P.backupRegisters P.backupAuxRegisters)
  | other {m m' : Memory} : (∀ x ∈ P.area, m' x = m x) → Step P handler back inside m (.other m') m'

def inforeg (P : Places) (m : Memory) (registers : Word) : Memory :=
  loadRegisters m registers P.backupRegisters

def observe (g : Registers × Registers) (_ : Memory) (e : Event) (_ : Memory) :
    Registers × Registers :=
  match e with
  | .keyboard c _ => (c.reg, g.2)
  | .f1 => (g.1, g.1)
  | .other _ => g

/-- The stack that is interrupted is not where the copies are. -/
def Room (P : Places) (handler : Word) : Event → Prop
  | .keyboard c _ => Disjoint (span ((enter handler c).rsp - 24) 184) P.area
  | _ => True

structure Holds (P : Places) (s : Memory × Registers × Registers) : Prop where
  aux : Stacked s.1 P.backupAuxRegisters s.2.1.saved
  taken : Stacked s.1 P.backupRegisters s.2.2.saved

variable {P : Places} {handler : Word} {e : Event} {s t : Memory × Registers × Registers}
  {tr : List ((Memory × Registers × Registers) × Event)}

theorem length_fields (registers : Word) : 8 * (fields registers).length = 120 := by
  simp [fields]

theorem loadRegisters_outside (hx : x ∉ span registers 120) :
    loadRegisters m registers source x = m x := by
  rw [← length_fields source] at hx
  exact gather_outside (by rw [length_fields]; decide) hx

theorem loadRegisters_stacked (h : Stacked m source r.saved)
    (hapart : Disjoint (span source 120) (span registers 120)) :
    Stacked (loadRegisters m registers source) registers r.saved := by
  have hlen := length_fields source
  have hfields : ∀ s ∈ fields source,
      Disjoint (span s 8) (span registers (8 * (fields source).length)) := by
    intro s hs
    obtain ⟨i, hi, rfl⟩ := List.mem_map.mp hs
    have hi := List.mem_range.mp hi
    rw [hlen]
    exact hapart.mono_left fun x hx ↦ mem_span_offset (by omega : 8 * i + 8 ≤ 120) hx
  have hwords : ((fields source).map fun s ↦ load m 8 s) = r.saved := by
    rw [fields, List.map_map]
    exact stacked_map h
  rw [← hwords]
  exact gather_stacked (by rw [hlen]; decide) hfields

theorem saved_congr (h : Stacked m source r.saved) (hm : ∀ x ∈ span source 120, m' x = m x) :
    Stacked m' source r.saved :=
  h.congr (by simp [Registers.saved]) hm

theorem step_holds (h : Holds P s) (hroom : Room P handler e)
    (hs : Noted (Step P handler back inside) observe s e t) : Holds P t := by
  obtain ⟨m, g⟩ := s
  obtain ⟨m', g'⟩ := t
  obtain ⟨hs, hg⟩ := hs
  change g' = observe g m e m' at hg
  subst hg
  change Step P handler back inside m e m' at hs
  cases hs with
  | @keyboard c _ hm =>
    have hroom : Disjoint (span ((enter handler c).rsp - 24) 184) P.area := hroom
    obtain ⟨hstacked, houtside⟩ := enter_spec handler c
    have haux : Disjoint (span ((enter handler c).rsp - 24) 144) (span P.backupAuxRegisters 120) :=
      hroom.mono (fun x hx ↦ Nat.lt_trans hx (by decide)) fun x hx ↦ Or.inr hx
    obtain ⟨hcopied, hother, -⟩ := saveBackup_spec back inside hstacked haux
    refine ⟨saved_congr hcopied fun x hx ↦ hm x (Or.inr hx), saved_congr h.taken fun x hx ↦ ?_⟩
    have hout := Set.disjoint_right.mp hroom (Or.inl hx)
    have hsaved : x ∉ span (enter handler c).rsp 160 := by
      intro hx'
      have hx' : (x - (enter handler c).rsp).toNat < 160 := hx'
      apply hout
      change (x - ((enter handler c).rsp - 24)).toNat < 184
      bv_omega
    have hcalls : x ∉ span ((enter handler c).rsp - 24) 24 :=
      fun hx' ↦ hout (Nat.lt_trans hx' (by decide))
    change m' x = c.mem x
    rw [hm x (Or.inl hx), hother x hcalls (Set.disjoint_left.mp P.apart hx), houtside x hsaved]
  | f1 =>
    refine ⟨saved_congr h.aux fun x hx ↦ ?_, loadRegisters_stacked h.aux P.apart.symm⟩
    exact loadRegisters_outside (Set.disjoint_right.mp P.apart hx)
  | other hm =>
    exact ⟨saved_congr h.aux fun x hx ↦ hm x (Or.inr hx),
      saved_congr h.taken fun x hx ↦ hm x (Or.inl hx)⟩

/-- `inforeg` shows the registers of the process that was interrupted by the last
key before F1 was read, the release of a key included. -/
theorem inforeg_snapshot (hstart : Holds P s)
    (hrun : Run (Noted (Step P handler back inside) observe) s tr t)
    (hroom : ∀ e ∈ tr, Room P handler e.2)
    (hapart : Disjoint (span P.backupRegisters 120) (span registers 120)) :
    Stacked (inforeg P t.1 registers) registers t.2.2.saved := by
  have hstep : ∀ s e t, Holds P s → Room P handler e →
      Noted (Step P handler back inside) observe s e t → Holds P t :=
    fun _ _ _ h hroom hs ↦ step_holds h hroom hs
  have h : Holds P t := hrun.invariant_of hstep hroom hstart
  exact loadRegisters_stacked h.taken hapart

theorem smallPlaces_apart : Disjoint (span (0x5000 : Word) 120) (span 0x6000 120) :=
  disjoint_span (by decide) (by decide)

def smallPlaces : Places := ⟨0x5000, 0x6000, smallPlaces_apart⟩

def typing : Cpu where
  reg := ⟨0, 1, 2, 3, 4, 5, 6, 7, 8, 9, 10, 11, 12, 13, 14⟩
  rsp := 0x9000
  rip := 0x3000
  rflags := 0x202
  cs := 8
  ss := 0
  mem := 0

def blank : Registers := ⟨0, 0, 0, 0, 0, 0, 0, 0, 0, 0, 0, 0, 0, 0, 0⟩

theorem inforeg_snapshot_f1 : ∃ tr t,
    Run (Noted (Step smallPlaces 0x2000 0x2010 0x2020) observe) (typing.mem, blank, blank) tr t ∧
      Stacked (inforeg smallPlaces t.1 0x8000) 0x8000 typing.reg.saved := by
  obtain ⟨m, hm⟩ : ∃ m : Memory, ∀ x ∈ smallPlaces.area, m x =
      (saveBackup smallPlaces.backupAuxRegisters 0x2010 0x2020 (enter 0x2000 typing)).mem x :=
    ⟨_, fun _ _ ↦ rfl⟩
  have hkey : Noted (Step smallPlaces 0x2000 0x2010 0x2020) observe (typing.mem, blank, blank)
      (.keyboard typing m) (m, typing.reg, blank) := ⟨.keyboard hm, rfl⟩
  have hf1 : Noted (Step smallPlaces 0x2000 0x2010 0x2020) observe (m, typing.reg, blank) .f1
      (loadRegisters m smallPlaces.backupRegisters smallPlaces.backupAuxRegisters,
        typing.reg, typing.reg) := ⟨.f1, rfl⟩
  have hrun := Run.cons hkey (Run.one hf1)
  have hstart : Holds smallPlaces (typing.mem, blank, blank) := by
    constructor <;> simp [Stacked, Registers.saved, blank, typing, load]
  have hrsp : (enter 0x2000 typing).rsp = 0x8f60 := by decide +kernel
  have hroom : Room smallPlaces 0x2000 (.keyboard typing m) := by
    change Disjoint (span ((enter 0x2000 typing).rsp - 24) 184) (span 0x5000 120 ∪ span 0x6000 120)
    rw [hrsp]
    have hbackup : Disjoint (span (0x5000 : Word) 120) (span (0x8f60 - 24) 184) :=
      disjoint_span (by decide) (by decide)
    have haux : Disjoint (span (0x6000 : Word) 120) (span (0x8f60 - 24) 184) :=
      disjoint_span (by decide) (by decide)
    exact Disjoint.symm (hbackup.sup_left haux)
  refine ⟨_, _, hrun, inforeg_snapshot hstart hrun ?_ ?_⟩
  · simp only [List.forall_mem_cons]
    exact ⟨hroom, trivial, fun e he ↦ absurd he List.not_mem_nil⟩
  · exact disjoint_span (by decide) (by decide)

end Run

end ShellOS.Asm.Snapshot
