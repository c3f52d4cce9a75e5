import ShellOS.Asm.Processor

namespace ShellOS.Asm.Yield

open Library.Bytes Processor Cpu

inductive Instr
  | sti
  | int (vector : ℕ)
  | movRaxRsi
  | xchgRdiEax
  | ret

/-- `runScheduler` and `_xchg` as they stand in the file, with the sizes that
they are assembled to. `_xchg` begins at the third one. -/
def text : List (Instr × ℕ) :=
  [(.sti, 1), (.int 0x20, 2), (.movRaxRsi, 3), (.xchgRdiEax, 2), (.ret, 1)]

def fetch : List (Instr × ℕ) → Word → Word → Option (Instr × ℕ)
  | [], _, _ => none
  | (i, size) :: rest, label, rip =>
    if rip = label then some (i, size) else fetch rest (label + BitVec.ofNat 64 size) rip

/-- The effect of an instruction, with `rip` behind it. An interrupt goes to
`handler`. -/
def exec (handler : Word) (c : Cpu) : Instr → Cpu
  | .sti => c.sti
  | .int _ => c.interrupt handler
  | .movRaxRsi => { c with reg := { c.reg with rax := c.reg.rsi } }
  | .xchgRdiEax =>
    { c with
      reg := { c.reg with rax := (load c.mem 4 c.reg.rdi).setWidth 64 }
      mem := store c.mem 4 c.reg.rdi (c.reg.rax.setWidth 32) }
  | .ret =>
    let (rip, c) := c.pop
    { c with rip := rip }

/-- A process takes a step, unless it has left the two functions. -/
def step (runScheduler handler : Word) (c : Cpu) : Cpu :=
  match fetch text runScheduler c.rip with
  | none => c
  | some (i, size) => exec handler { c with rip := c.rip + BitVec.ofNat 64 size } i

/-- A call of `runScheduler`, up to the save of the registers at the start of
`irqHandlerMaster`. -/
def suspend (runScheduler handler : Word) (c : Cpu) : Cpu :=
  ((step runScheduler handler)^[2] { c with rip := runScheduler }).cli.pushState

/-- The end of `irqHandlerMaster` when the saved stack pointer `sp` was
selected, in the state `k` that it is then in. -/
def resume (k : Cpu) (sp : Word) : Cpu := ({ k with rsp := sp } : Cpu).popState.sti.iretq

def leave (runScheduler handler : Word) (c : Cpu) : Cpu := (step runScheduler handler)^[3] c

def xchg (runScheduler handler : Word) (c : Cpu) : Cpu :=
  leave runScheduler handler { c with rip := runScheduler + 3 }

def frame (runScheduler handler : Word) (c : Cpu) : Set Word :=
  span (suspend runScheduler handler c).rsp
    (c.rsp + 8 - (suspend runScheduler handler c).rsp).toNat

/-- The process that called `runScheduler` is switched back in: its frame lies
in its stack, and nobody else has written there. -/
structure SwitchedBack (runScheduler handler : Word) (stack : Set Word) (c k : Cpu) : Prop where
  stack : frame runScheduler handler c ⊆ stack
  kept : ∀ x ∈ frame runScheduler handler c, k.mem x = (suspend runScheduler handler c).mem x

/-- The call returns to its caller, and the process's own instructions leave
the memory outside its stack as they find it. -/
structure QuietYield (runScheduler handler : Word) (stack : Set Word) (c k : Cpu) : Prop where
  before : ∀ x, x ∉ stack → (suspend runScheduler handler c).mem x = c.mem x
  after : ∀ x, x ∉ stack → (leave runScheduler handler
    (resume k (suspend runScheduler handler c).rsp)).mem x = k.mem x
  rip : (leave runScheduler handler (resume k (suspend runScheduler handler c).rsp)).rip =
    load c.mem 8 c.rsp
  rsp : (leave runScheduler handler (resume k (suspend runScheduler handler c).rsp)).rsp = c.rsp + 8

/-- The call puts the low byte of its second argument where the first one
points, returns the old byte, and changes no other. -/
structure QuietXchg (runScheduler handler : Word) (c : Cpu) : Prop where
  stored : (xchg runScheduler handler c).mem c.reg.rdi = byte c.reg.rsi 0
  other : ∀ x, x ≠ c.reg.rdi → (xchg runScheduler handler c).mem x = c.mem x
  result : byte (xchg runScheduler handler c).reg.rax 0 = c.mem c.reg.rdi

variable {c k : Cpu} {runScheduler handler : Word} {stack : Set Word}

section Fetch

variable (runScheduler)

theorem fetch_sti : fetch text runScheduler runScheduler = some (.sti, 1) := if_pos rfl

theorem fetch_int : fetch text runScheduler (runScheduler + 1) = some (.int 0x20, 2) := by
  simp [text, fetch]

theorem fetch_mov : fetch text runScheduler (runScheduler + 3) = some (.movRaxRsi, 3) := by
  simp [text, fetch, BitVec.add_assoc]

theorem fetch_xchg : fetch text runScheduler (runScheduler + 6) = some (.xchgRdiEax, 2) := by
  simp [text, fetch, BitVec.add_assoc]

theorem fetch_ret : fetch text runScheduler (runScheduler + 8) = some (.ret, 1) := by
  simp [text, fetch, BitVec.add_assoc]

variable {runScheduler} (handler)

theorem step_at {label next : Word} {i : Instr} {size : ℕ} (hrip : c.rip = label)
    (hfetch : fetch text runScheduler label = some (i, size))
    (hnext : label + BitVec.ofNat 64 size = next) :
    step runScheduler handler c = exec handler { c with rip := next } i := by
  rw [step, hrip, hfetch]
  simp only [hnext]

end Fetch

theorem leave_eq (handler : Word) (hrip : c.rip = runScheduler + 3) : leave runScheduler handler c =
    { c with
      reg := { c.reg with rax := (load c.mem 4 c.reg.rdi).setWidth 64 }
      rip := load (store c.mem 4 c.reg.rdi (c.reg.rsi.setWidth 32)) 8 c.rsp
      rsp := c.rsp + 8
      mem := store c.mem 4 c.reg.rdi (c.reg.rsi.setWidth 32) } := by
  have h6 : runScheduler + 3 + BitVec.ofNat 64 3 = runScheduler + 6 := by bv_omega
  have h8 : runScheduler + 6 + BitVec.ofNat 64 2 = runScheduler + 8 := by bv_omega
  let c₁ := exec handler { c with rip := runScheduler + 6 } .movRaxRsi
  let c₂ := exec handler { c₁ with rip := runScheduler + 8 } .xchgRdiEax
  have hmov : step runScheduler handler c = c₁ := step_at handler hrip (fetch_mov runScheduler) h6
  have hxchg : step runScheduler handler c₁ = c₂ := step_at handler rfl (fetch_xchg runScheduler) h8
  have hret := step_at (c := c₂) handler rfl (fetch_ret runScheduler) rfl
  change step runScheduler handler (step runScheduler handler (step runScheduler handler c)) = _
  rw [hmov, hxchg, hret]
  rfl

section Suspend

def interrupted (runScheduler handler : Word) (c : Cpu) : Cpu :=
  let called : Cpu := { c with rip := runScheduler + 3, rflags := c.rflags ||| interruptFlag }
  (called.interrupt handler).cli

theorem interrupted_spec (runScheduler handler : Word) (c : Cpu) :
    (interrupted runScheduler handler c).rsp = c.rsp - c.rsp % 16 - 40 ∧
      Stacked (interrupted runScheduler handler c).mem (interrupted runScheduler handler c).rsp
        [runScheduler + 3, c.cs, c.rflags ||| interruptFlag, c.rsp, c.ss] ∧
      ∀ x, x ∉ span (c.rsp - c.rsp % 16 - 40) 40 →
        (interrupted runScheduler handler c).mem x = c.mem x := by
  let called : Cpu := { c with rip := runScheduler + 3, rflags := c.rflags ||| interruptFlag }
  let aligned : Cpu := { called with rsp := c.rsp - c.rsp % 16 }
  have hlen : called.interruptFrame.length = 5 := rfl
  have hrsp : (aligned.pushes called.interruptFrame).rsp = c.rsp - c.rsp % 16 - 40 :=
    pushes_rsp aligned called.interruptFrame
  have hempty : Stacked aligned.mem aligned.rsp [] := trivial
  have hpushed := pushes_stacked hempty
    (by rw [hlen]; decide : 8 * (called.interruptFrame.length + 0) ≤ 2 ^ 64)
  rw [List.append_nil] at hpushed
  refine ⟨hrsp, hpushed, fun x hx ↦ ?_⟩
  refine pushes_outside (c := aligned) (by rw [hlen]; decide) ?_
  rwa [hrsp, hlen]

theorem suspend_eq (runScheduler handler : Word) (c : Cpu) :
    suspend runScheduler handler c = (interrupted runScheduler handler c).pushes c.reg.saved := by
  have h3 : runScheduler + 1 + BitVec.ofNat 64 2 = runScheduler + 3 := by bv_omega
  let called : Cpu := exec handler { c with rip := runScheduler + 1 } .sti
  have hsti : step runScheduler handler { c with rip := runScheduler } = called :=
    step_at handler rfl (fetch_sti runScheduler) rfl
  have hint := step_at (c := called) handler rfl (fetch_int runScheduler) h3
  have hreg : (interrupted runScheduler handler c).reg = c.reg := by
    change (Cpu.pushes _ _).reg = c.reg
    rw [pushes_eq]
  change (step runScheduler handler
    (step runScheduler handler { c with rip := runScheduler })).cli.pushState = _
  rw [hsti, hint, ← hreg]
  rfl

theorem suspend_spec (runScheduler handler : Word) (c : Cpu) :
    (suspend runScheduler handler c).rsp = c.rsp - c.rsp % 16 - 160 ∧
      Stacked (suspend runScheduler handler c).mem (suspend runScheduler handler c).rsp
        (c.reg.saved.reverse ++
          [runScheduler + 3, c.cs, c.rflags ||| interruptFlag, c.rsp, c.ss]) ∧
      ∀ x, x ∉ span (suspend runScheduler handler c).rsp 160 →
        (suspend runScheduler handler c).mem x = c.mem x := by
  obtain ⟨hrsp₀, hstacked, houtside⟩ := interrupted_spec runScheduler handler c
  have hlen : c.reg.saved.length = 15 := rfl
  have hrsp : (suspend runScheduler handler c).rsp = c.rsp - c.rsp % 16 - 160 := by
    rw [suspend_eq, pushes_rsp, hrsp₀, hlen]
    bv_omega
  refine ⟨hrsp, ?_, fun x hx ↦ ?_⟩
  · rw [suspend_eq]
    exact pushes_stacked hstacked (by simp [hlen])
  · rw [hrsp] at hx
    replace hx : ¬ (x - (c.rsp - c.rsp % 16 - 160)).toNat < 160 := hx
    have hsaved : x ∉ span (suspend runScheduler handler c).rsp (8 * c.reg.saved.length) := by
      rw [hrsp, hlen]
      change ¬ (x - (c.rsp - c.rsp % 16 - 160)).toNat < 120
      omega
    have hframe : x ∉ span (c.rsp - c.rsp % 16 - 40) 40 := by
      change ¬ (x - (c.rsp - c.rsp % 16 - 40)).toNat < 40
      bv_omega
    rw [suspend_eq] at hsaved ⊢
    rw [pushes_outside (by rw [hlen]; decide) hsaved]
    exact houtside x hframe

end Suspend

theorem resume_eq {sp flags : Word} (h : Stacked k.mem sp (c.reg.saved.reverse ++
    [runScheduler + 3, c.cs, flags, c.rsp, c.ss])) : resume k sp =
      { c with rip := runScheduler + 3, rflags := flags, mem := k.mem } := by
  obtain ⟨hpop, hrest⟩ := popState_eq (c := { k with rsp := sp }) h
  rw [resume, hpop]
  exact iretq_eq (c := sti _) hrest

section Frame

variable (runScheduler handler c)

theorem frame_size : (c.rsp + 8 - (suspend runScheduler handler c).rsp).toNat =
    (c.rsp % 16).toNat + 168 := by
  have hlt : (c.rsp % 16).toNat < 16 := by
    rw [BitVec.toNat_umod]
    exact Nat.mod_lt _ (by decide)
  rw [(suspend_spec runScheduler handler c).1]
  generalize c.rsp % 16 = d at hlt ⊢
  bv_omega

variable {runScheduler handler c}

theorem saved_mem_frame {x : Word} (hx : x ∈ span (suspend runScheduler handler c).rsp 160) :
    x ∈ frame runScheduler handler c := by
  have hx : (x - (suspend runScheduler handler c).rsp).toNat < 160 := hx
  change (x - (suspend runScheduler handler c).rsp).toNat < _
  rw [frame_size]
  omega

theorem return_mem_frame {x : Word} (hx : x ∈ span c.rsp 8) :
    x ∈ frame runScheduler handler c ∧ x ∉ span (suspend runScheduler handler c).rsp 160 := by
  have hlt : (c.rsp % 16).toNat < 16 := by
    rw [BitVec.toNat_umod]
    exact Nat.mod_lt _ (by decide)
  have hx : (x - c.rsp).toNat < 8 := hx
  have hoffset : (x - (suspend runScheduler handler c).rsp).toNat =
      (x - c.rsp).toNat + (c.rsp % 16).toNat + 160 := by
    rw [(suspend_spec runScheduler handler c).1]
    generalize c.rsp % 16 = d at hlt ⊢
    bv_omega
  constructor
  · change (x - (suspend runScheduler handler c).rsp).toNat < _
    rw [frame_size]
    omega
  · change ¬ (x - (suspend runScheduler handler c).rsp).toNat < 160
    omega

end Frame

section Back

variable (h : SwitchedBack runScheduler handler stack c k)

include h

theorem SwitchedBack.resumed : ∃ flags, resume k (suspend runScheduler handler c).rsp =
    { c with rip := runScheduler + 3, rflags := flags, mem := k.mem } := by
  obtain ⟨-, hstacked, -⟩ := suspend_spec runScheduler handler c
  refine ⟨_, resume_eq (hstacked.congr (by simp [Registers.saved]) (fun x hx ↦ ?_))⟩
  exact h.kept x (saved_mem_frame hx)

theorem SwitchedBack.return_kept : load k.mem 8 c.rsp = load c.mem 8 c.rsp := by
  rw [load_eq_iff]
  intro x hx
  obtain ⟨hframe, hout⟩ : x ∈ frame runScheduler handler c ∧
      x ∉ span (suspend runScheduler handler c).rsp 160 := return_mem_frame hx
  rw [h.kept x hframe, (suspend_spec runScheduler handler c).2.2 x hout]

theorem SwitchedBack.before {x : Word} (hx : x ∉ stack) :
    (suspend runScheduler handler c).mem x = c.mem x := by
  apply (suspend_spec runScheduler handler c).2.2
  exact fun hsaved ↦ hx (h.stack (saved_mem_frame hsaved))

theorem SwitchedBack.left : ∃ flags,
    leave runScheduler handler (resume k (suspend runScheduler handler c).rsp) =
      { c with
        reg := { c.reg with rax := (load k.mem 4 c.reg.rdi).setWidth 64 }
        rip := load (store k.mem 4 c.reg.rdi (c.reg.rsi.setWidth 32)) 8 c.rsp
        rsp := c.rsp + 8
        rflags := flags
        mem := store k.mem 4 c.reg.rdi (c.reg.rsi.setWidth 32) } := by
  obtain ⟨flags, hresume⟩ := h.resumed
  refine ⟨flags, ?_⟩
  rw [hresume]
  exact leave_eq handler rfl

/-- The call is quiet when the four bytes that `_xchg` stores are in the stack,
though not in the return address, or are there already. -/
theorem SwitchedBack.quiet_iff : QuietYield runScheduler handler stack c k ↔
    ∀ i < 4, c.reg.rdi + BitVec.ofNat 64 i ∉ stack ∨
        c.reg.rdi + BitVec.ofNat 64 i ∈ span c.rsp 8 →
      k.mem (c.reg.rdi + BitVec.ofNat 64 i) = byte c.reg.rsi i := by
  obtain ⟨flags, hleft⟩ := h.left
  let stored : Memory := store k.mem 4 c.reg.rdi (c.reg.rsi.setWidth 32)
  have hagrees := store_agrees_iff (m := k.mem) (a := c.reg.rdi) (v := c.reg.rsi.setWidth 32)
    (by omega : 4 ≤ 2 ^ 64) {x | x ∉ stack ∨ x ∈ span c.rsp 8}
  have hbyte : ∀ i < 4, byte (c.reg.rsi.setWidth 32) i = byte c.reg.rsi i := by
    intro i hi
    apply byte_setWidth
    omega
  have hreturn : load stored 8 c.rsp = load c.mem 8 c.rsp ↔
      ∀ x ∈ span c.rsp 8, stored x = k.mem x := by
    rw [← h.return_kept]
    exact load_eq_iff
  calc QuietYield runScheduler handler stack c k
      ↔ ∀ x ∈ {x | x ∉ stack ∨ x ∈ span c.rsp 8}, stored x = k.mem x := by
        constructor
        · intro ⟨_, hafter, hrip, _⟩ x hx
          rw [hleft] at hafter hrip
          exact hx.elim (hafter x) (hreturn.mp hrip x)
        · intro hkept
          refine ⟨fun x hx ↦ h.before hx, ?_, ?_, ?_⟩ <;> rw [hleft]
          · exact fun x hx ↦ hkept x (Or.inl hx)
          · exact hreturn.mpr fun x hx ↦ hkept x (Or.inr hx)
    _ ↔ ∀ i < 4, c.reg.rdi + BitVec.ofNat 64 i ∈ {x | x ∉ stack ∨ x ∈ span c.rsp 8} →
          k.mem (c.reg.rdi + BitVec.ofNat 64 i) = byte (c.reg.rsi.setWidth 32) i := hagrees
    _ ↔ _ := by
        refine forall₂_congr fun i hi ↦ ?_
        rw [hbyte i hi]
        rfl

end Back

section Xchg

theorem xchg_eq (runScheduler handler : Word) (c : Cpu) :
    (xchg runScheduler handler c).mem = store c.mem 4 c.reg.rdi (c.reg.rsi.setWidth 32) ∧
      (xchg runScheduler handler c).reg.rax = (load c.mem 4 c.reg.rdi).setWidth 64 := by
  have hleave := leave_eq (c := { c with rip := runScheduler + 3 }) handler rfl
  rw [xchg, hleave]
  exact ⟨rfl, rfl⟩

theorem xchg_stores {i : ℕ} (hi : i < 4) :
    (xchg runScheduler handler c).mem (c.reg.rdi + BitVec.ofNat 64 i) = byte c.reg.rsi i := by
  rw [(xchg_eq runScheduler handler c).1, store_offset hi (by omega)]
  apply byte_setWidth
  omega

theorem offset_eq_base_iff {a : Word} {i : ℕ} (hi : i < 4) :
    a + BitVec.ofNat 64 i = a ↔ i = 0 := by
  constructor
  · intro h
    bv_omega
  · intro h
    rw [h]
    simp

theorem quietXchg_iff : QuietXchg runScheduler handler c ↔
    ∀ i < 4, i ≠ 0 → c.mem (c.reg.rdi + BitVec.ofNat 64 i) = byte c.reg.rsi i := by
  obtain ⟨hmem, hrax⟩ := xchg_eq runScheduler handler c
  have hbase : c.reg.rdi + BitVec.ofNat 64 0 = c.reg.rdi := by simp
  constructor
  · intro h i hi hne
    have hstored : (xchg runScheduler handler c).mem _ = _ := xchg_stores hi
    rw [← hstored]
    symm
    apply h.other
    rwa [Ne, offset_eq_base_iff hi]
  · intro h
    refine ⟨?_, ?_, ?_⟩
    · rw [← xchg_stores (by omega : 0 < 4), hbase]
    · have hagrees := (store_agrees_iff (m := c.mem) (a := c.reg.rdi)
        (v := c.reg.rsi.setWidth 32) (by omega : 4 ≤ 2 ^ 64) {x | x ≠ c.reg.rdi}).mpr
      rw [hmem]
      apply hagrees
      intro i hi hne
      have hi0 : i ≠ 0 := mt (offset_eq_base_iff hi).mpr hne
      rw [h i hi hi0, byte_setWidth]
      omega
    · rw [hrax, byte_setWidth _ (by omega), byte_load (by omega), hbase]

end Xchg

/-- What `runScheduler` and `_xchg` leave alone: a process that is switched
back in stores four bytes of its leftover `esi` at its leftover `rdi`, since
`runScheduler` has no `ret`, and `_xchg` stores four bytes too. -/
theorem stores_elsewhere_iff (runScheduler handler : Word) (c : Cpu) :
    (∀ stack k, SwitchedBack runScheduler handler stack c k →
      (QuietYield runScheduler handler stack c k ↔
        ∀ i < 4, c.reg.rdi + BitVec.ofNat 64 i ∉ stack ∨
            c.reg.rdi + BitVec.ofNat 64 i ∈ span c.rsp 8 →
          k.mem (c.reg.rdi + BitVec.ofNat 64 i) = byte c.reg.rsi i)) ∧
      (QuietXchg runScheduler handler c ↔
        ∀ i < 4, i ≠ 0 → c.mem (c.reg.rdi + BitVec.ofNat 64 i) = byte c.reg.rsi i) ∧
      ∀ i < 4,
        (xchg runScheduler handler c).mem (c.reg.rdi + BitVec.ofNat 64 i) = byte c.reg.rsi i :=
  ⟨fun _ _ h ↦ h.quiet_iff, quietXchg_iff, fun _ hi ↦ xchg_stores hi⟩

/-- A process that has opened a semaphore's lock with `_xchg(&sem->lock, 0)`
and then waits in `sem_wait`. The lock is at `0x5000`. -/
def waiter : Cpu where
  reg := ⟨1, 0, 0, 0, 0, 0x5000, 0, 0, 0, 0, 0, 0, 0, 0, 0⟩
  rsp := 0x9000
  rip := 0x3000
  rflags := 0x202
  cs := 8
  ss := 0
  mem := 0

theorem stores_elsewhere_waiter : QuietYield 0x1000 0x2000 (frame 0x1000 0x2000 waiter) waiter
    (suspend 0x1000 0x2000 waiter) := by
  have hback : SwitchedBack 0x1000 0x2000 (frame 0x1000 0x2000 waiter) waiter
      (suspend 0x1000 0x2000 waiter) := ⟨fun _ hx ↦ hx, fun _ _ ↦ rfl⟩
  apply ((stores_elsewhere_iff 0x1000 0x2000 waiter).1 _ _ hback).mpr
  have hsame : ∀ i < 4, (suspend 0x1000 0x2000 waiter).mem
      (waiter.reg.rdi + BitVec.ofNat 64 i) = byte waiter.reg.rsi i := by decide +kernel
  exact fun i hi _ ↦ hsame i hi

/-- While the process waits, another one takes the lock. The one that waited
opens it when it is switched back in. -/
theorem lock_opened : ∃ k, SwitchedBack 0x1000 0x2000 (frame 0x1000 0x2000 waiter) waiter k ∧
    ¬ QuietYield 0x1000 0x2000 (frame 0x1000 0x2000 waiter) waiter k := by
  let c := suspend 0x1000 0x2000 waiter
  let k : Cpu := { c with mem := fun x ↦ if x = 0x5000 then 1 else c.mem x }
  have hlock : (0x5000 : Word) ∉ frame 0x1000 0x2000 waiter := by
    change ¬ ((0x5000 : Word) - c.rsp).toNat < (waiter.rsp + 8 - c.rsp).toNat
    decide +kernel
  have hback : SwitchedBack 0x1000 0x2000 (frame 0x1000 0x2000 waiter) waiter k :=
    ⟨fun _ hx ↦ hx, fun x hx ↦ if_neg fun heq : x = 0x5000 ↦ hlock (heq ▸ hx)⟩
  refine ⟨k, hback, fun hquiet ↦ ?_⟩
  have hopen := hback.quiet_iff.mp hquiet 0 (by omega) (Or.inl hlock)
  exact absurd hopen (by decide +kernel)

end ShellOS.Asm.Yield
