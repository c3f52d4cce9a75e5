import ShellOS.Library.Fuel
import ShellOS.Library.Runs
import ShellOS.Library.Tiling
import ShellOS.Memory.Region

namespace ShellOS.Memory.Heap2

open Library.Fuel Library.Links Library.Words Region Function

structure MemoryBlock where
  nextFreeBlock : ℕ
  blockSize : ℕ

/-- The manager together with the memory it works on. Headers are read and
written as records at the address of their first byte; headers of two
different blocks never share a byte, as every block is longer than its header. -/
structure MemoryManager where
  block : ℕ → MemoryBlock
  freeBytesRemaining : ℕ

def structSize : ℕ := clearMask (16 + (byteAlignment - 1))
def minimumBlockSize : ℕ := structSize * 2
def cdtSize : ℕ := 40

namespace MemoryManager

variable (m : MemoryManager) (a v : ℕ)

def next : ℕ := (m.block a).nextFreeBlock
def size : ℕ := (m.block a).blockSize

def setNext : MemoryManager :=
  { m with block := update m.block a { m.block a with nextFreeBlock := v } }

def setSize : MemoryManager :=
  { m with block := update m.block a { m.block a with blockSize := v } }

def setFreeBytes : MemoryManager := { m with freeBytesRemaining := v }

@[simp] theorem next_setNext : (m.setNext a v).next = update m.next a v := by
  funext x
  by_cases hx : x = a
  · subst hx; simp [next, setNext]
  · simp [next, setNext, hx]

@[simp] theorem size_setNext : (m.setNext a v).size = m.size := by
  funext x
  by_cases hx : x = a
  · subst hx; simp [size, setNext]
  · simp [size, setNext, hx]

@[simp] theorem next_setSize : (m.setSize a v).next = m.next := by
  funext x
  by_cases hx : x = a
  · subst hx; simp [next, setSize]
  · simp [next, setSize, hx]

@[simp] theorem size_setSize : (m.setSize a v).size = update m.size a v := by
  funext x
  by_cases hx : x = a
  · subst hx; simp [size, setSize]
  · simp [size, setSize, hx]

@[simp] theorem freeBytesRemaining_setNext :
    (m.setNext a v).freeBytesRemaining = m.freeBytesRemaining := rfl

@[simp] theorem freeBytesRemaining_setSize :
    (m.setSize a v).freeBytesRemaining = m.freeBytesRemaining := rfl

@[simp] theorem next_setFreeBytes : (m.setFreeBytes v).next = m.next := by
  funext x
  rfl

@[simp] theorem size_setFreeBytes : (m.setFreeBytes v).size = m.size := by
  funext x
  rfl

@[simp] theorem freeBytesRemaining_setFreeBytes :
    (m.setFreeBytes v).freeBytesRemaining = v := rfl

end MemoryManager

variable (L : Layout cdtSize)

abbrev start : ℕ := L.memoryForMemoryManager
abbrev endBlock : ℕ := L.memoryForMemoryManager + 16

def createMemoryManager (memory : ℕ → MemoryBlock) : MemoryManager :=
  let memory := update memory (start L) ⟨L.managedMemory, 0⟩
  let memory := update memory (endBlock L) ⟨0, totalHeapSize⟩
  let memory := update memory L.managedMemory ⟨endBlock L, totalHeapSize⟩
  ⟨memory, totalHeapSize⟩

def insertBlockIntoFreeList (fuel : ℕ) (m : MemoryManager) (blockToInsert : ℕ) :
    Option MemoryManager :=
  (seek (fun a ↦ !decide (m.size (m.next a) < m.size blockToInsert)) m.next fuel (start L)).map
    fun blockIterator ↦
      (m.setNext blockToInsert (m.next blockIterator)).setNext blockIterator blockToInsert

/-- The pair `(previousBlock, block)` at which the first-fit walk stops. -/
def findBlock (fuel : ℕ) (m : MemoryManager) (memoryToAllocate : ℕ) : Option (ℕ × ℕ) :=
  seek (fun w ↦ !(decide (m.size w.2 < memoryToAllocate) && decide (m.next w.2 ≠ 0)))
    (fun w ↦ (w.2, m.next w.2)) fuel (start L, m.next (start L))

def splitBlock (fuel : ℕ) (m : MemoryManager) (block memoryToAllocate : ℕ) :
    Option MemoryManager :=
  let rest := u32Sub (m.size block) memoryToAllocate
  if rest > minimumBlockSize then
    let newBlock := block + memoryToAllocate
    insertBlockIntoFreeList L fuel ((m.setSize newBlock rest).setSize block memoryToAllocate)
      newBlock
  else some m

def allocMem (fuel : ℕ) (m : MemoryManager) (memoryToAllocate : ℕ) :
    Option (MemoryManager × ℕ) :=
  if memoryToAllocate = 0 then some (m, 0)
  else
    let memoryToAllocate := requestSize structSize memoryToAllocate
    if memoryToAllocate < totalHeapSize then do
      let (previousBlock, block) ← findBlock L fuel m memoryToAllocate
      if block = endBlock L then some (m, 0)
      else
        let blockToReturn := m.next previousBlock + structSize
        let m := m.setNext previousBlock (m.next block)
        let m ← splitBlock L fuel m block memoryToAllocate
        some (m.setFreeBytes (u32Sub m.freeBytesRemaining (m.size block)), blockToReturn)
    else some (m, 0)

def freeMem (fuel : ℕ) (m : MemoryManager) (block : ℕ) : Option MemoryManager :=
  if block = 0 then some m
  else
    let blockToFree := block - structSize
    (insertBlockIntoFreeList L fuel m blockToFree).map fun m ↦
      m.setFreeBytes (u32 (m.freeBytesRemaining + m.size blockToFree))

theorem freeMem_null (fuel : ℕ) (m : MemoryManager) : freeMem L fuel m 0 = some m := if_pos rfl

theorem insertBlockIntoFreeList_mono (m : MemoryManager) (b : ℕ) {n k : ℕ} (hk : n ≤ k) :
    Extends (insertBlockIntoFreeList L n m b) (insertBlockIntoFreeList L k m b) :=
  (extends_seek _ hk).map _

theorem splitBlock_mono (m : MemoryManager) (b need : ℕ) {n k : ℕ} (hk : n ≤ k) :
    Extends (splitBlock L n m b need) (splitBlock L k m b need) :=
  (insertBlockIntoFreeList_mono L _ _ hk).ite (.refl _)

theorem allocMem_mono (m : MemoryManager) (r : ℕ) {n k : ℕ} (hk : n ≤ k) :
    Extends (allocMem L n m r) (allocMem L k m r) := by
  apply Extends.ite (.refl _)
  refine Extends.ite ?_ (.refl _)
  apply Extends.bind (extends_seek _ hk)
  intro w
  apply Extends.ite (.refl _)
  exact (splitBlock_mono L _ _ _ hk).bind (fun _ ↦ .refl _)

theorem freeMem_mono (m : MemoryManager) (p : ℕ) {n k : ℕ} (hk : n ≤ k) :
    Extends (freeMem L n m p) (freeMem L k m p) := by
  apply Extends.ite (.refl _)
  exact (insertBlockIntoFreeList_mono L _ _ hk).map _

def heapSize : ℕ := totalHeapSize
def heapLeft (m : MemoryManager) : ℕ := m.freeBytesRemaining
def usedHeap (m : MemoryManager) : ℕ := u32Sub heapSize (heapLeft m)

end ShellOS.Memory.Heap2
