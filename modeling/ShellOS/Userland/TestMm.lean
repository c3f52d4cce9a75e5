import ShellOS.Boot.Lib
import ShellOS.Memory.Heap2BytesRun

namespace ShellOS.Userland.TestMm

open Library.Bytes Library.Runs Memory.Region
open Memory.Heap2 (structSize cdtSize)
open Memory.Heap2Bytes Memory.Heap2Refines Memory.Heap2BytesRun
open Memory.Heap2Run (Call header)

/-- The test has a copy of the kernel's function. -/
def memset : Memory → BitVec 64 → BitVec 32 → BitVec 64 → Memory := Boot.Lib.memset

/-- `for (i = 0; i < size; i++, p++) if (*p != value) return 0`. -/
def memcheckLoop (m : Memory) (value : BitVec 8) : ℕ → BitVec 64 → Bool
  | 0, _ => true
  | left + 1, p => if m p ≠ value then false else memcheckLoop m value left (p + 1)

def memcheck (m : Memory) (start : BitVec 64) (value : BitVec 8) (size : BitVec 32) : Bool :=
  memcheckLoop m value size.toNat start

variable {m : Memory} {value : BitVec 8} {p fuel n : ℕ} {a : BitVec 64} {c r : BitVec 32}
  {L : Layout cdtSize} {s t u : State} {S : Memory.Heap2Run.State} {tr mid post : List (State × Call)}

theorem memcheckLoop_of_span (h : ∀ x ∈ span a n, m x = value) :
    memcheckLoop m value n a = true := by
  induction n generalizing a with
  | zero => rfl
  | succ n ih =>
    have hfirst : m a = value := h a (by
      change (a - a).toNat < n + 1
      simp)
    have hrest : ∀ x ∈ span (a + 1) n, m x = value := by
      intro x hx
      refine h x ?_
      have hx : (x - (a + 1)).toNat < n := hx
      change (x - a).toNat < n + 1
      bv_omega
    rw [memcheckLoop, if_neg (not_not.mpr hfirst)]
    exact ih hrest

def setBlock (s : State) (p : ℕ) (c : BitVec 32) (r : BitVec 32) : State :=
  { s with memory := memset s.memory (BitVec.ofNat 64 p) c (r.setWidth 64) }

theorem toNat_size (r : BitVec 32) : (r.setWidth 64).toNat = r.toNat := by
  rw [BitVec.toNat_setWidth]
  omega

theorem setBlock_step (hp : p ∈ s.live) (hroom : r.toNat ≤ size s.memory (header p) - structSize) :
    Step L s (.write p) (setBlock s p c r) := by
  refine .write hp (fun x _ hx ↦ Boot.Lib.memset_outside (fun hmem ↦ hx ?_))
  rw [toNat_size] at hmem
  exact Nat.lt_of_lt_of_le hmem hroom

theorem setBlock_bytes (s : State) (p : ℕ) (c r : BitVec 32) {x : BitVec 64}
    (hx : x ∈ span (BitVec.ofNat 64 p) r.toNat) :
    (setBlock s p c r).memory x = c.setWidth 8 := by
  refine Boot.Lib.memset_inside ?_
  rw [toNat_size]
  exact hx

/-- A block passes the check although other clients are served and write
between the request, the setting and the check. -/
theorem memcheck_after_memset (hL : Addressable L) (memory : Memory)
    (h : Run (Step L) (boot L memory) tr s) (hr : r.toNat ≤ totalHeapSize)
    (ha : allocMem L fuel s.memory r.toNat = some (m, p)) (hp : p ≠ 0)
    (hmid : Run (Step L) ⟨m, p :: s.live⟩ mid t) (hkeep : ∀ e ∈ mid, e.2 ≠ .free p)
    (hpost : Run (Step L) (setBlock t p c r) post u)
    (hown : ∀ e ∈ post, e.2 ≠ .free p ∧ e.2 ≠ .write p) :
    memcheck u.memory (BitVec.ofNat 64 p) (c.setWidth 8) r = true := by
  obtain ⟨S, hR⟩ := run_refines hL h
  have hroom := alloc_room hL hR hr ha hp
  obtain ⟨T, -, hT, -⟩ := alloc_refines hL hR hr ha
  rw [if_neg hp] at hT
  obtain ⟨⟨T', hT'⟩, hlive, hsize⟩ := run_size hL hT List.mem_cons_self hmid hkeep
  rw [← hsize] at hroom
  have hset : Step L t (.write p) (setBlock t p c r) := setBlock_step hlive hroom
  obtain ⟨U, -, hU, hkept⟩ := step_refines hL hT' hset
  obtain ⟨-, hsame⟩ := run_payload hL hU hlive hpost hown
  refine memcheckLoop_of_span (fun x hx ↦ ?_)
  rw [hsame x ?_, setBlock_bytes t p c r hx]
  have hsize' := (hkept p hlive).1
  change (x - BitVec.ofNat 64 p).toNat < _
  rw [hsize']
  exact Nat.lt_of_lt_of_le hx hroom

theorem memcheck_after_memset_first :
    ∃ m m', allocMem kernelHeap 3 (boot kernelHeap zeros).memory 184 = some (m, 0x600010) ∧
      allocMem kernelHeap 3 m 24 = some (m', 0x6000d8) ∧
      ∀ m'' : Memory,
        (∀ x ∉ payload (setBlock ⟨m', [0x6000d8, 0x600010]⟩ 0x600010 7 184).memory 0x6000d8,
          m'' x = (setBlock ⟨m', [0x6000d8, 0x600010]⟩ 0x600010 7 184).memory x) →
        memcheck m'' (BitVec.ofNat 64 0x600010) 7 184 = true := by
  obtain ⟨m, m', hm, hm'⟩ := two_blocks
  refine ⟨m, m', hm, hm', fun m'' hwrite ↦ ?_⟩
  have hlast : Step kernelHeap (setBlock ⟨m', [0x6000d8, 0x600010]⟩ 0x600010 7 184)
      (.write 0x6000d8) ⟨m'', [0x6000d8, 0x600010]⟩ :=
    .write List.mem_cons_self fun x _ hx ↦ hwrite x hx
  exact memcheck_after_memset (c := 7) (r := 184) kernelHeap_addressable zeros (.nil _) (by decide)
    hm (by decide) (.one (second_step hm')) (by simp) (.one hlast) (by simp)

end ShellOS.Userland.TestMm
