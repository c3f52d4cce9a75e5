import ShellOS.Library.Fuel
import ShellOS.Library.Runs
import ShellOS.Library.Tiling
import ShellOS.Memory.Region

namespace ShellOS.Memory.Buddy

open Library.Fuel Library.Links Library.Words Region Function

/-- The manager and the headers it works on, one map from addresses to values
for each field of a header. Headers lie at distances of at least 512 bytes. -/
structure MemoryManager where
  free : ℕ → ℕ
  history : ℕ → ℕ
  blockSize : ℕ → ℕ
  nextFreeBlock : ℕ → ℕ
  freeBytesRemaining : ℕ

def structSize : ℕ := clearMask (24 + (byteAlignment - 1))
def minimumBlockSize : ℕ := 512
def cdtSize : ℕ := 56

namespace MemoryManager

variable (m : MemoryManager) (a v : ℕ)

@[simp] def setFree : MemoryManager := { m with free := update m.free a v }
@[simp] def setHistory : MemoryManager := { m with history := update m.history a v }
@[simp] def setSize : MemoryManager := { m with blockSize := update m.blockSize a v }
@[simp] def setNext : MemoryManager := { m with nextFreeBlock := update m.nextFreeBlock a v }

end MemoryManager

variable (L : Layout cdtSize)

abbrev start : ℕ := L.memoryForMemoryManager
abbrev endBlock : ℕ := L.memoryForMemoryManager + 24

def createMemoryManager (memory : MemoryManager) : MemoryManager :=
  let m := { memory with freeBytesRemaining := totalHeapSize }
  let firstFreeBlock := L.managedMemory
  let m := (m.setNext (start L) firstFreeBlock).setSize (start L) 0
  let m := (m.setNext (endBlock L) 0).setSize (endBlock L) totalHeapSize
  let m := (m.setSize firstFreeBlock totalHeapSize).setNext firstFreeBlock (endBlock L)
  (m.setFree firstFreeBlock 1).setHistory firstFreeBlock 0

def removeBlockFromFreeList (fuel : ℕ) (m : MemoryManager) (blockToRemove : ℕ) :
    Option MemoryManager :=
  (seek (fun a ↦ decide (a = 0) || decide (m.nextFreeBlock a = blockToRemove)) m.nextFreeBlock
    fuel (start L)).map fun blockIterator ↦
      if blockIterator ≠ 0 then
        m.setNext blockIterator (m.nextFreeBlock (m.nextFreeBlock blockIterator))
      else m

/-- The merge test: the memory with the doubled size, the block that goes on
as `blockToInsert`, and the buddy to take out of the free list. -/
def tryMerge (m : MemoryManager) (blockToInsert : ℕ) : Option (MemoryManager × ℕ × ℕ) :=
  let size := m.blockSize blockToInsert
  if m.history blockToInsert &&& 0x1 = 1 then
    let buddy := blockToInsert - size
    if m.free buddy ≠ 0 ∧ m.blockSize buddy = size then
      some (m.setSize buddy (u32 (m.blockSize buddy * 2)), buddy, buddy)
    else none
  else
    let buddy := blockToInsert + size
    if m.free buddy ≠ 0 ∧ m.blockSize buddy = size then
      some (m.setSize blockToInsert (u32 (size * 2)), blockToInsert, buddy)
    else none

/-- The sorted insertion at the end of `insertBlockIntoFreeList`. -/
def linkBlock (fuel : ℕ) (m : MemoryManager) (blockToInsert : ℕ) :
    Option (MemoryManager × ℕ) :=
  (seek (fun a ↦ !decide (m.blockSize (m.nextFreeBlock a) < m.blockSize blockToInsert))
    m.nextFreeBlock fuel (start L)).map fun blockIterator ↦
      let m := m.setNext blockToInsert (m.nextFreeBlock blockIterator)
      let m := m.setNext blockIterator blockToInsert
      (m.setFree blockToInsert 1, m.blockSize blockToInsert)

/-- `depth` bounds the merging recursion and `fuel` each walk of the list. -/
def insertBlockIntoFreeList (fuel : ℕ) : ℕ → MemoryManager → ℕ → Bool →
    Option (MemoryManager × ℕ)
  | 0, _, _, _ => none
  | depth + 1, m, blockToInsert, checkMerge =>
    if m.blockSize blockToInsert = totalHeapSize then
      let m := m.setNext (start L) blockToInsert
      let m := m.setNext blockToInsert (endBlock L)
      some (m.setFree blockToInsert 1, m.blockSize blockToInsert)
    else
      match (if checkMerge then tryMerge m blockToInsert else none) with
      | some (m, blockToInsert, buddy) =>
        let m := m.setHistory blockToInsert (m.history blockToInsert >>> 1)
        (removeBlockFromFreeList L fuel m buddy).bind fun m ↦
          insertBlockIntoFreeList fuel depth m blockToInsert true
      | none => linkBlock L fuel m blockToInsert

def halve (m : MemoryManager) (block : ℕ) : MemoryManager :=
  let m := m.setSize block (m.blockSize block / 2)
  let m := m.setHistory block (u32 (m.history block <<< 1))
  let newBlock := block + m.blockSize block
  let m := m.setSize newBlock (m.blockSize block)
  let m := m.setFree newBlock 1
  m.setHistory newBlock (m.history block ||| 0x1)

def splitLoop (fuel : ℕ) : ℕ → MemoryManager → ℕ → ℕ → Option MemoryManager
  | 0, _, _, _ => none
  | depth + 1, m, block, memoryToAllocate =>
    if minimumBlockSize ≤ m.blockSize block / 2 ∧ memoryToAllocate ≤ m.blockSize block / 2 then
      let newBlock := block + m.blockSize block / 2
      (insertBlockIntoFreeList L fuel fuel (halve m block) newBlock false).bind fun r ↦
        splitLoop fuel depth r.1 block memoryToAllocate
    else some m

/-- The pair `(previousBlock, block)` at which the first-fit walk stops. -/
def findBlock (fuel : ℕ) (m : MemoryManager) (memoryToAllocate : ℕ) : Option (ℕ × ℕ) :=
  seek (fun w ↦ !(decide (m.blockSize w.2 < memoryToAllocate) &&
      decide (m.nextFreeBlock w.2 ≠ 0)))
    (fun w ↦ (w.2, m.nextFreeBlock w.2)) fuel (start L, m.nextFreeBlock (start L))

def allocMem (fuel : ℕ) (m : MemoryManager) (memoryToAllocate : ℕ) :
    Option (MemoryManager × ℕ) :=
  if memoryToAllocate = 0 then some (m, 0)
  else
    let memoryToAllocate := requestSize structSize memoryToAllocate
    if memoryToAllocate > totalHeapSize then some (m, 0)
    else do
      let (previousBlock, block) ← findBlock L fuel m memoryToAllocate
      if block = endBlock L then some (m, 0)
      else
        let blockToReturn := m.nextFreeBlock previousBlock + structSize
        let m := m.setNext previousBlock (m.nextFreeBlock block)
        let m ← splitLoop L fuel fuel m block memoryToAllocate
        let left := u32Sub m.freeBytesRemaining (m.blockSize block)
        some (({ m with freeBytesRemaining := left }).setFree block 0, blockToReturn)

def freeMem (fuel : ℕ) (m : MemoryManager) (block : ℕ) : Option MemoryManager :=
  if block = 0 then some m
  else
    let blockToFree := block - structSize
    (insertBlockIntoFreeList L fuel fuel m blockToFree true).map fun r ↦
      { r.1 with freeBytesRemaining := u32 (r.1.freeBytesRemaining + r.2) }

theorem freeMem_null (fuel : ℕ) (m : MemoryManager) : freeMem L fuel m 0 = some m := if_pos rfl

theorem insertBlockIntoFreeList_mono {n k d e : ℕ} (m : MemoryManager) (b : ℕ) (checkMerge : Bool)
    (hk : n ≤ k) (hd : d ≤ e) :
    Extends (insertBlockIntoFreeList L n d m b checkMerge)
      (insertBlockIntoFreeList L k e m b checkMerge) := by
  induction d generalizing e m b checkMerge with
  | zero => exact extends_none _
  | succ d ih =>
    obtain ⟨e, rfl⟩ : ∃ i, e = i + 1 := ⟨e - 1, by omega⟩
    simp only [insertBlockIntoFreeList]
    apply Extends.ite (.refl _)
    split
    · apply Extends.bind ((extends_seek _ hk).map _)
      intro m
      exact ih m _ true (by omega)
    · exact (extends_seek _ hk).map _

theorem splitLoop_mono {n k d e : ℕ} (m : MemoryManager) (b need : ℕ) (hk : n ≤ k) (hd : d ≤ e) :
    Extends (splitLoop L n d m b need) (splitLoop L k e m b need) := by
  induction d generalizing e m with
  | zero => exact extends_none _
  | succ d ih =>
    obtain ⟨e, rfl⟩ : ∃ i, e = i + 1 := ⟨e - 1, by omega⟩
    simp only [splitLoop]
    refine Extends.ite ?_ (.refl _)
    apply Extends.bind (insertBlockIntoFreeList_mono L _ _ _ hk hk)
    intro r
    exact ih _ (by omega)

theorem allocMem_mono {n k : ℕ} (m : MemoryManager) (r : ℕ) (hk : n ≤ k) :
    Extends (allocMem L n m r) (allocMem L k m r) := by
  apply Extends.ite (.refl _)
  apply Extends.ite (.refl _)
  apply Extends.bind (extends_seek _ hk)
  intro w
  apply Extends.ite (.refl _)
  exact (splitLoop_mono L _ _ _ hk hk).bind (fun _ ↦ .refl _)

theorem freeMem_mono {n k : ℕ} (m : MemoryManager) (p : ℕ) (hk : n ≤ k) :
    Extends (freeMem L n m p) (freeMem L k m p) := by
  apply Extends.ite (.refl _)
  exact (insertBlockIntoFreeList_mono L _ _ _ hk hk).map _

def heapSize : ℕ := totalHeapSize
def heapLeft (m : MemoryManager) : ℕ := m.freeBytesRemaining
def usedHeap (m : MemoryManager) : ℕ := u32Sub heapSize (heapLeft m)

end ShellOS.Memory.Buddy
