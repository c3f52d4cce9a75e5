import ShellOS.Library.Links
import ShellOS.Library.Words
import Mathlib.Tactic.NormNum

namespace ShellOS.Memory.Region

open Library.Links Library.Words

def totalHeapSize : ℕ := 134217728
def byteAlignment : ℕ := 8
def byteAlignmentMask : ℕ := 0x07

/-- `n & ~BYTE_ALIGNMENT_MASK` -/
def clearMask (n : ℕ) : ℕ := n - (n &&& byteAlignmentMask)

/-- Where the manager's own structure, of `cdtSize` bytes, and the managed
heap lie in memory. The two regions are apart, and `NULL` is in neither. -/
structure Layout (cdtSize : ℕ) where
  memoryForMemoryManager : ℕ
  managedMemory : ℕ
  manager_ne_null : memoryForMemoryManager ≠ 0
  memory_ne_null : managedMemory ≠ 0
  apart : memoryForMemoryManager + cdtSize ≤ managedMemory ∨
    managedMemory + totalHeapSize ≤ memoryForMemoryManager

/-- The addresses at which `main` sets up the kernel's heap. -/
def kernelLayout (cdtSize : ℕ) (h : cdtSize ≤ 0x1000) : Layout cdtSize where
  memoryForMemoryManager := 0x50000
  managedMemory := 0x600000
  manager_ne_null := by decide
  memory_ne_null := by decide
  apart := Or.inl (by omega)

/-- The bytes a request needs: its header is added and the sum is rounded up
to the alignment, all in 32 bits. -/
def requestSize (structSize memoryToAllocate : ℕ) : ℕ :=
  let size := u32 (memoryToAllocate + structSize)
  if size &&& byteAlignmentMask ≠ 0 then
    u32 (size + (byteAlignment - (size &&& byteAlignmentMask)))
  else size

theorem and_mask (n : ℕ) : n &&& byteAlignmentMask = n % 8 :=
  Nat.and_two_pow_sub_one_eq_mod n 3

def InRange (structSize r : ℕ) : Prop := r + structSize + byteAlignment ≤ 2 ^ 32

theorem inRange_of_le {structSize r : ℕ} (hr : r ≤ totalHeapSize) (hs : structSize ≤ 24) :
    InRange structSize r := by
  unfold InRange byteAlignment
  unfold totalHeapSize at hr
  omega

def needed (structSize r : ℕ) : ℕ := (r + structSize + 7) / 8 * 8

theorem requestSize_eq {structSize r : ℕ} (h : InRange structSize r) :
    requestSize structSize r = needed structSize r := by
  unfold InRange byteAlignment at h
  unfold requestSize byteAlignment u32 needed
  simp only [and_mask]
  split <;> omega

theorem requestSize_wrapped {structSize r : ℕ} (hd : 8 ∣ structSize) (hs : structSize ≤ 24)
    (hr : r < 2 ^ 32) (h : ¬ InRange structSize r) : requestSize structSize r ≤ structSize := by
  unfold InRange byteAlignment at h
  unfold requestSize byteAlignment u32
  simp only [and_mask]
  split <;> omega

theorem eight_dvd_requestSize (structSize r : ℕ) : 8 ∣ requestSize structSize r := by
  unfold requestSize byteAlignment u32
  simp only [and_mask]
  split <;> omega

section Clients

variable {live F F' : List ℕ} {p structSize start endBlock : ℕ} {next : ℕ → ℕ}

theorem live_perm (header : ℕ → ℕ) (hp : p ∈ live) :
    (live.map header).Perm (header p :: (live.erase p).map header) :=
  (List.perm_cons_erase hp).map header

theorem erase_null (hlive : ∀ p ∈ live, structSize < p) : live.erase 0 = live :=
  List.erase_of_not_mem fun h0 ↦ absurd (hlive 0 h0) (Nat.not_lt_zero structSize)

def Lists (next : ℕ → ℕ) (start endBlock : ℕ) (F : List ℕ) : Prop :=
  Path next start (start :: F) endBlock ∧ endBlock ∉ start :: F

theorem Lists.unique (h : Lists next start endBlock F) (h' : Lists next start endBlock F') :
    F = F' :=
  (List.cons.inj (h.1.unique h'.1 h.2 h'.2)).2

end Clients

section Calls

variable {α : Type} {call : ℕ → Option α} {r r' : α}

/-- With enough turns for its loops the call gives `r`. -/
def Answers (call : ℕ → Option α) (r : α) : Prop := ∃ n, ∀ fuel, n < fuel → call fuel = some r

theorem Answers.unique (h : Answers call r) (h' : Answers call r') : r = r' := by
  obtain ⟨n, hn⟩ := h
  obtain ⟨k, hk⟩ := h'
  exact Option.some.inj ((hn (n + k + 1) (by omega)).symm.trans (hk (n + k + 1) (by omega)))

end Calls

end ShellOS.Memory.Region
