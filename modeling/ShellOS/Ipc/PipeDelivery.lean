import ShellOS.Asm.Syscall
import ShellOS.Ipc.PipeSpec

namespace ShellOS.Ipc.PipeDelivery

open Library.Ring Asm.Processor Asm.Syscall Pipes PipeSpec

def stores (buffer : Word) (bytes : List UInt8) : List (Word × UInt8) :=
  bytes.mapIdx fun i c ↦ (buffer + BitVec.ofNat 64 i, c)

/-- What a read leaves: the kernel, the value returned and the stores into user
memory, in order. -/
structure Effect where
  kernel : Kernel
  value : ℤ
  stores : List (Word × UInt8)

def effect (buffer : Word) : Kernel × Read → Option Effect
  | (k, .returned i bytes) => some ⟨k, i, stores buffer bytes⟩
  | (_, .blocked) => none

/-- `pipeRead` to its return. If it waits, `resumed` is the kernel when
`runScheduler` returns. -/
def completeRead (k resumed : Kernel) (current : ℕ) (fd : FdPipe) (buffer : Word) (limit : ℤ) :
    Option Effect :=
  (pipeRead k current fd limit).bind fun r ↦
    match r.2 with
    | .blocked => (resumeRead resumed fd limit).bind (effect buffer)
    | .returned _ _ => effect buffer r

/-- `sys_pipeRead`, with the descriptors by address. -/
def sysPipeRead (handler : Word) (c : Cpu) (fds : Word → FdPipe) (k resumed : Kernel)
    (current : ℕ) : Option Effect :=
  (sys 32 handler c).bind fun
    | .pipeRead fd buffer limit => completeRead k resumed current (fds fd) buffer limit
    | _ => none

/-- The bytes that a read gets: those that are in the pipe, or those that are
there after it has waited. -/
def pending (k resumed : Kernel) (fd : FdPipe) : List UInt8 :=
  if (k.pipe fd.pipe).bytesToRead = 0 ∧ (k.pipe fd.pipe).writeOpen ≠ 0 then
    unread (resumed.pipe fd.pipe)
  else unread (k.pipe fd.pipe)

structure Delivered (k resumed : Kernel) (fd : FdPipe) (buffer : Word) (e : Effect) : Prop where
  value : e.value = (pending k resumed fd).length
  stores : e.stores = PipeDelivery.stores buffer (pending k resumed fd)
  empty : (e.kernel.pipe fd.pipe).bytesToRead = 0

variable {p : Pipe} {k resumed : Kernel} {fd : FdPipe} {a b buffer : Word} {bytes : List UInt8}
  {n current : ℕ}

theorem stores_eq_iff : stores a bytes = stores b bytes ↔ a = b ∨ bytes = [] := by
  cases bytes with
  | nil => simp [stores]
  | cons c bytes =>
    constructor
    · intro h
      rw [stores, stores, List.mapIdx_cons, List.mapIdx_cons, List.cons.injEq, Prod.mk.injEq] at h
      left
      simpa using h.1.1
    · rintro (rfl | hnil)
      · rfl
      · cases hnil

theorem readLoop_all (h : p.readPos ≤ pipeSize) (n : ℕ) (bytes : List UInt8) :
    ∃ p', readLoop 0 n p bytes = some (p', .returned (bytes.length + n : ℕ)
        (bytes ++ window pipeSize p.data p.readPos n)) ∧
      p'.bytesToRead = p.bytesToRead - n := by
  induction n generalizing p bytes with
  | zero => exact ⟨p, by simp [readLoop], rfl⟩
  | succ n ih =>
    have hlt : p.readPos % pipeSize < pipeSize := Nat.mod_lt _ (by decide)
    obtain ⟨p', hloop, hbytes⟩ := ih (p := { p with
      bytesToRead := p.bytesToRead - 1, readPos := p.readPos % pipeSize + 1 }) hlt
      (bytes ++ [p.data (p.readPos % pipeSize)])
    refine ⟨p', ?_, ?_⟩
    · have hwindow : window pipeSize p.data (p.readPos % pipeSize + 1) n =
          window pipeSize p.data (p.readPos + 1) n := by
        rw [← window_mod, Nat.mod_add_mod, window_mod]
      rw [readLoop, takeByte_eq h, Option.bind_some, if_neg (by decide), hloop, window_pop, hwindow,
        List.append_assoc, List.singleton_append, List.length_append, List.length_singleton,
        Nat.add_assoc, Nat.add_comm 1]
    · rw [hbytes, Nat.add_comm n]
      exact Nat.sub_sub p.bytesToRead 1 n

theorem resumeRead_all (h : (k.pipe fd.pipe).readPos ≤ pipeSize) :
    ∃ k', resumeRead k fd 0 = some (k', .returned (unread (k.pipe fd.pipe)).length
        (unread (k.pipe fd.pipe))) ∧ (k'.pipe fd.pipe).bytesToRead = 0 := by
  obtain ⟨p', hloop, hbytes⟩ := readLoop_all h (k.pipe fd.pipe).bytesToRead []
  have hlen : (unread (k.pipe fd.pipe)).length = (k.pipe fd.pipe).bytesToRead := by
    simp [unread, window]
  rw [List.nil_append, List.length_nil, Nat.zero_add] at hloop
  refine ⟨awake (k.setPipe fd.pipe p') fd.pipe, ?_, ?_⟩
  · rw [resumeRead, hloop, Option.map_some, hlen]
    rfl
  · rw [awake_pipe]
    simp [hbytes]

theorem completeRead_spec (k resumed : Kernel) (fd : FdPipe) (current : ℕ) (hfd : fd.readable ≠ 0)
    (hread : (k.pipe fd.pipe).readPos ≤ pipeSize)
    (hresumed : (resumed.pipe fd.pipe).readPos ≤ pipeSize) :
    ∃ k', (k'.pipe fd.pipe).bytesToRead = 0 ∧ ∀ buffer,
      completeRead k resumed current fd buffer 0 =
        some ⟨k', (pending k resumed fd).length, stores buffer (pending k resumed fd)⟩ := by
  unfold completeRead pipeRead
  by_cases hnone : (k.pipe fd.pipe).bytesToRead = 0
  · by_cases hopen : (k.pipe fd.pipe).writeOpen = 0
    · have hpending : pending k resumed fd = [] := by
        rw [pending, if_neg (fun h ↦ h.2 hopen), unread, hnone, window_zero]
      refine ⟨k, hnone, fun buffer ↦ ?_⟩
      simp only [if_neg hfd, if_pos hnone, if_pos hopen, hpending]
      rfl
    · have hpending : pending k resumed fd = unread (resumed.pipe fd.pipe) :=
        if_pos ⟨hnone, hopen⟩
      obtain ⟨k', hresume, hbytes⟩ := resumeRead_all hresumed
      refine ⟨k', hbytes, fun buffer ↦ ?_⟩
      simp only [if_neg hfd, if_pos hnone, if_neg hopen, Option.bind_some, hpending, hresume]
      rfl
  · have hpending : pending k resumed fd = unread (k.pipe fd.pipe) := if_neg (fun h ↦ hnone h.1)
    obtain ⟨k', hresume, hbytes⟩ := resumeRead_all hread
    refine ⟨k', hbytes, fun buffer ↦ ?_⟩
    simp only [if_neg hfd, if_neg hnone, hpending, hresume]
    rfl

theorem sysPipeRead_eq (handler : Word) (c : Cpu) (fds : Word → FdPipe) :
    sysPipeRead handler c fds k resumed current =
      completeRead k resumed current (fds c.reg.rdi) c.reg.rdx 0 := by
  rw [sysPipeRead, sys_eq handler c (by decide)]
  rfl

/-- `sys_pipeRead` is `pipeRead` of its buffer as long as the third argument
register holds that too, or there is nothing to read. -/
theorem sysPipeRead_iff (handler : Word) (c : Cpu) (fds : Word → FdPipe) (k resumed : Kernel)
    (current : ℕ) (hfd : (fds c.reg.rdi).readable ≠ 0)
    (hread : (k.pipe (fds c.reg.rdi).pipe).readPos ≤ pipeSize)
    (hresumed : (resumed.pipe (fds c.reg.rdi).pipe).readPos ≤ pipeSize) :
    (∃ e, sysPipeRead handler c fds k resumed current = some e ∧
        completeRead k resumed current (fds c.reg.rdi) c.reg.rsi 0 = some e ∧
        Delivered k resumed (fds c.reg.rdi) c.reg.rsi e) ↔
      c.reg.rdx = c.reg.rsi ∨ pending k resumed (fds c.reg.rdi) = [] := by
  obtain ⟨k', hempty, heffect⟩ := completeRead_spec k resumed _ current hfd hread hresumed
  rw [sysPipeRead_eq, heffect, heffect, ← stores_eq_iff]
  constructor
  · rintro ⟨e, hcall, hread, -⟩
    rw [← hcall, Option.some.injEq, Effect.mk.injEq] at hread
    exact hread.2.2.symm
  · intro hstores
    rw [hstores]
    exact ⟨_, rfl, rfl, rfl, rfl, hempty⟩

def oneByte : Kernel where
  pipe _ := ⟨20, fun _ ↦ 65, 0, 1, 1, 1, 1, 0⟩
  pipes := [0x9000]
  pipeIds := 1
  pstate _ := 1

def caller (rdx : Word) : Cpu where
  reg := ⟨0, 0, 0, rdx, 0, 0x5000, 0x6000, 0, 0, 0, 0, 0, 0, 0, 0⟩
  rsp := 0x8000
  rip := 0x400000
  rflags := 0x202
  cs := 8
  ss := 0
  mem _ := 0

theorem sysPipeRead_one : ∃ e, sysPipeRead 0x100000 (caller 0x6000) (fun _ ↦ ⟨1, 0, 0x9000⟩)
    oneByte oneByte 2 = some e ∧ e.value = 1 ∧ e.stores = [(0x6000, 65)] := by
  obtain ⟨e, hcall, -, hdelivered⟩ := (sysPipeRead_iff 0x100000 (caller 0x6000)
    (fun _ ↦ ⟨1, 0, 0x9000⟩) oneByte oneByte 2 (by decide) (by decide) (by decide)).mpr (Or.inl rfl)
  exact ⟨e, hcall, hdelivered.value, hdelivered.stores⟩

/-- The byte goes to where `rdx` points, and not into the buffer. -/
theorem sysPipeRead_elsewhere : ¬ ∃ e, sysPipeRead 0x100000 (caller 0x7000)
    (fun _ ↦ ⟨1, 0, 0x9000⟩) oneByte oneByte 2 = some e ∧
      Delivered oneByte oneByte ⟨1, 0, 0x9000⟩ 0x6000 e := by
  rintro ⟨e, hcall, hdelivered⟩
  obtain ⟨k', -, heffect⟩ := completeRead_spec oneByte oneByte ⟨1, 0, 0x9000⟩ 2
    (by decide) (by decide) (by decide)
  rw [sysPipeRead_eq, heffect, Option.some.injEq] at hcall
  have hstores := hdelivered.stores
  rw [← hcall, stores_eq_iff] at hstores
  exact absurd hstores (by decide)

end ShellOS.Ipc.PipeDelivery
