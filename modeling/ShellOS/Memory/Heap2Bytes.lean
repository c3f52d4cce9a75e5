import ShellOS.Library.Copying
import ShellOS.Memory.Heap2Run

namespace ShellOS.Memory.Heap2Bytes

open Library.Bytes Library.Copying Library.Fuel Library.Links Library.Words Region Function
open Heap2 (MemoryManager structSize minimumBlockSize cdtSize start endBlock)

section Fields

variable (m : Memory) (a v : ℕ)

/-- `nextFreeBlock`, the first eight bytes of a record. -/
def next : ℕ := (load m 8 (BitVec.ofNat 64 a)).toNat

/-- `blockSize`, the four bytes behind the pointer. -/
def size : ℕ := (load m 4 (BitVec.ofNat 64 (a + 8))).toNat

def setNext : Memory := store m 8 (BitVec.ofNat 64 a) (BitVec.ofNat 64 v)

def setSize : Memory := store m 4 (BitVec.ofNat 64 (a + 8)) (BitVec.ofNat 32 v)

end Fields

variable (L : Layout cdtSize)

/-- The address of `freeBytesRemaining`. -/
def counter : ℕ := L.memoryForMemoryManager + 32

def freeBytesRemaining (m : Memory) : ℕ := (load m 4 (BitVec.ofNat 64 (counter L))).toNat

def setFreeBytes (m : Memory) (v : ℕ) : Memory :=
  store m 4 (BitVec.ofNat 64 (counter L)) (BitVec.ofNat 32 v)

def createMemoryManager (m : Memory) : Memory :=
  let m := setFreeBytes L m totalHeapSize
  let firstFreeBlock := L.managedMemory
  let m := setSize (setNext m (start L) firstFreeBlock) (start L) 0
  let m := setNext (setSize m (endBlock L) totalHeapSize) (endBlock L) 0
  setNext (setSize m firstFreeBlock totalHeapSize) firstFreeBlock (endBlock L)

def insertBlockIntoFreeList (fuel : ℕ) (m : Memory) (blockToInsert : ℕ) : Option Memory :=
  let blockSize := size m blockToInsert
  (seek (fun a ↦ !decide (size m (next m a) < blockSize)) (next m) fuel (start L)).map
    fun blockIterator ↦
      setNext (setNext m blockToInsert (next m blockIterator)) blockIterator blockToInsert

def findBlock (fuel : ℕ) (m : Memory) (memoryToAllocate : ℕ) : Option (ℕ × ℕ) :=
  seek (fun w ↦ !(decide (size m w.2 < memoryToAllocate) && decide (next m w.2 ≠ 0)))
    (fun w ↦ (w.2, next m w.2)) fuel (start L, next m (start L))

def splitBlock (fuel : ℕ) (m : Memory) (block memoryToAllocate : ℕ) : Option Memory :=
  let rest := u32Sub (size m block) memoryToAllocate
  if rest > minimumBlockSize then
    let newBlock := block + memoryToAllocate
    insertBlockIntoFreeList L fuel (setSize (setSize m newBlock rest) block memoryToAllocate)
      newBlock
  else some m

def allocMem (fuel : ℕ) (m : Memory) (memoryToAllocate : ℕ) : Option (Memory × ℕ) :=
  if memoryToAllocate = 0 then some (m, 0)
  else
    let memoryToAllocate := requestSize structSize memoryToAllocate
    if memoryToAllocate < totalHeapSize then do
      let (previousBlock, block) ← findBlock L fuel m memoryToAllocate
      if block = endBlock L then some (m, 0)
      else
        let blockToReturn := next m previousBlock + structSize
        let m := setNext m previousBlock (next m block)
        let m ← splitBlock L fuel m block memoryToAllocate
        some (setFreeBytes L m (u32Sub (freeBytesRemaining L m) (size m block)), blockToReturn)
    else some (m, 0)

def freeMem (fuel : ℕ) (m : Memory) (block : ℕ) : Option Memory :=
  if block = 0 then some m
  else
    let blockToFree := block - structSize
    (insertBlockIntoFreeList L fuel m blockToFree).map fun m ↦
      setFreeBytes L m (u32 (freeBytesRemaining L m + size m blockToFree))

section Apart

variable {m : Memory} {a b k n v : ℕ} {x : BitVec 64}

theorem mem_span_ofNat (hn : 0 < n) (h : a + n ≤ 2 ^ 64) :
    x ∈ span (BitVec.ofNat 64 a) n ↔ a ≤ x.toNat ∧ x.toNat < a + n := by
  have ha : (BitVec.ofNat 64 a).toNat = a := by
    rw [BitVec.toNat_ofNat]
    omega
  rw [mem_span_iff (by omega), ha]

theorem load_store_apart {w : BitVec (8 * k)} (hn : 0 < n) (hk : 0 < k) (ha : a + n ≤ 2 ^ 64)
    (hb : b + k ≤ 2 ^ 64) (h : a + n ≤ b ∨ b + k ≤ a) :
    load (store m k (BitVec.ofNat 64 b) w) n (BitVec.ofNat 64 a) =
      load m n (BitVec.ofNat 64 a) := by
  rw [load_eq_iff]
  intro x hx
  have hx := (mem_span_ofNat hn ha).mp hx
  refine store_outside (fun hx' ↦ ?_)
  have hx' := (mem_span_ofNat hk hb).mp hx'
  omega

theorem next_setNext_self (hv : v < 2 ^ 64) : next (setNext m a v) a = v := by
  unfold next setNext
  rw [load_store (by decide), BitVec.toNat_ofNat]
  exact Nat.mod_eq_of_lt hv

theorem size_setSize_self (hv : v < 2 ^ 32) : size (setSize m a v) a = v := by
  unfold size setSize
  rw [load_store (by decide), BitVec.toNat_ofNat]
  exact Nat.mod_eq_of_lt hv

theorem next_lt (m : Memory) (a : ℕ) : next m a < 2 ^ 64 := BitVec.isLt _

end Apart

/-- Records that share no byte with each other or with the counter. -/
structure Spaced (K : Set ℕ) : Prop where
  apart : ∀ a ∈ K, ∀ b ∈ K, a ≠ b → a + 16 ≤ b ∨ b + 16 ≤ a
  counter : ∀ a ∈ K, a + 16 ≤ counter L ∨ counter L + 4 ≤ a
  fits : ∀ a ∈ K, a + 16 ≤ 2 ^ 64
  counter_fits : Heap2Bytes.counter L + 4 ≤ 2 ^ 64

def ownBytes (K : Set ℕ) : Set (BitVec 64) :=
  {x | (∃ a ∈ K, x ∈ span (BitVec.ofNat 64 a) 16) ∨ x ∈ span (BitVec.ofNat 64 (counter L)) 4}

/-- The bytes hold what the records hold: the pointers of the records in `N`
and the sizes of those in `S`. Bytes of no record of `K` are as they were in `m₀`. -/
structure Holds (K N S : Set ℕ) (m₀ m : Memory) (M : MemoryManager) : Prop where
  next : ∀ a ∈ N, next m a = M.next a
  size : ∀ a ∈ S, size m a = M.size a
  free : freeBytesRemaining L m = M.freeBytesRemaining
  frame : ∀ x ∉ ownBytes L K, m x = m₀ x

variable {L} {K N S : Set ℕ} {m₀ m m' : Memory} {M : MemoryManager} {a v : ℕ}

theorem ownBytes_mono {K' : Set ℕ} (h : K ⊆ K') : ownBytes L K ⊆ ownBytes L K' := by
  rintro x (⟨a, ha, hx⟩ | hx)
  · exact Or.inl ⟨a, h ha, hx⟩
  · exact Or.inr hx

theorem Holds.mono {K' N' S' : Set ℕ} (h : Holds L K N S m₀ m M) (hK : K ⊆ K') (hN : N' ⊆ N)
    (hS : S' ⊆ S) : Holds L K' N' S' m₀ m M where
  next a ha := h.next a (hN ha)
  size a ha := h.size a (hS ha)
  free := h.free
  frame x hx := h.frame x (fun hmem ↦ hx (ownBytes_mono hK hmem))

theorem setNext_frame {x : BitVec 64} (hK : Spaced L K) (ha : a ∈ K) (hx : x ∉ ownBytes L K) :
    setNext m a v x = m x := by
  refine store_outside (fun hmem ↦ hx (Or.inl ⟨a, ha, ?_⟩))
  have hfits := hK.fits a ha
  have hmem := (mem_span_ofNat (by decide) (by omega)).mp hmem
  exact (mem_span_ofNat (by decide) hfits).mpr ⟨hmem.1, by omega⟩

theorem setSize_frame {x : BitVec 64} (hK : Spaced L K) (ha : a ∈ K) (hx : x ∉ ownBytes L K) :
    setSize m a v x = m x := by
  refine store_outside (fun hmem ↦ hx (Or.inl ⟨a, ha, ?_⟩))
  have hfits := hK.fits a ha
  have hmem := (mem_span_ofNat (by decide) (by omega)).mp hmem
  exact (mem_span_ofNat (by decide) hfits).mpr ⟨by omega, by omega⟩

theorem Holds.setNext (hK : Spaced L K) (h : Holds L K N S m₀ m M) (hN : N ⊆ K) (hS : S ⊆ K)
    (ha : a ∈ K) (hv : v < 2 ^ 64) :
    Holds L K (insert a N) S m₀ (setNext m a v) (M.setNext a v) := by
  have hfits := hK.fits a ha
  constructor
  · intro b hb
    rw [MemoryManager.next_setNext]
    by_cases hba : b = a
    · rw [hba, update_self, next_setNext_self hv]
    · have hbN : b ∈ N := hb.resolve_left hba
      have hbfits := hK.fits b (hN hbN)
      have hapart := hK.apart b (hN hbN) a ha hba
      rw [update_of_ne hba, ← h.next b hbN]
      exact congrArg BitVec.toNat
        (load_store_apart (by decide) (by decide) (by omega) (by omega) (by omega))
  · intro b hb
    rw [MemoryManager.size_setNext, ← h.size b hb]
    have hbfits := hK.fits b (hS hb)
    have hapart := hK.apart b (hS hb) a ha
    refine congrArg BitVec.toNat
      (load_store_apart (by decide) (by decide) (by omega) (by omega) ?_)
    by_cases hba : b = a
    · omega
    · have hapart := hapart hba
      omega
  · rw [MemoryManager.freeBytesRemaining_setNext, ← h.free]
    have hcounter := hK.counter a ha
    have hcfits := hK.counter_fits
    exact congrArg BitVec.toNat
      (load_store_apart (by decide) (by decide) (by omega) (by omega) (by omega))
  · intro x hx
    rw [setNext_frame hK ha hx]
    exact h.frame x hx

theorem Holds.setSize (hK : Spaced L K) (h : Holds L K N S m₀ m M) (hN : N ⊆ K) (hS : S ⊆ K)
    (ha : a ∈ K) (hv : v < 2 ^ 32) :
    Holds L K N (insert a S) m₀ (setSize m a v) (M.setSize a v) := by
  have hfits := hK.fits a ha
  constructor
  · intro b hb
    rw [MemoryManager.next_setSize, ← h.next b hb]
    have hbfits := hK.fits b (hN hb)
    have hapart := hK.apart b (hN hb) a ha
    refine congrArg BitVec.toNat
      (load_store_apart (by decide) (by decide) (by omega) (by omega) ?_)
    by_cases hba : b = a
    · omega
    · have hapart := hapart hba
      omega
  · intro b hb
    rw [MemoryManager.size_setSize]
    by_cases hba : b = a
    · rw [hba, update_self, size_setSize_self hv]
    · have hbS : b ∈ S := hb.resolve_left hba
      have hbfits := hK.fits b (hS hbS)
      have hapart := hK.apart b (hS hbS) a ha hba
      rw [update_of_ne hba, ← h.size b hbS]
      exact congrArg BitVec.toNat
        (load_store_apart (by decide) (by decide) (by omega) (by omega) (by omega))
  · rw [MemoryManager.freeBytesRemaining_setSize, ← h.free]
    have hcounter := hK.counter a ha
    have hcfits := hK.counter_fits
    exact congrArg BitVec.toNat
      (load_store_apart (by decide) (by decide) (by omega) (by omega) (by omega))
  · intro x hx
    rw [setSize_frame hK ha hx]
    exact h.frame x hx

theorem Holds.setFreeBytes (hK : Spaced L K) (h : Holds L K N S m₀ m M) (hN : N ⊆ K) (hS : S ⊆ K)
    (hv : v < 2 ^ 32) : Holds L K N S m₀ (setFreeBytes L m v) (M.setFreeBytes v) := by
  have hcfits := hK.counter_fits
  constructor
  · intro b hb
    rw [MemoryManager.next_setFreeBytes, ← h.next b hb]
    have hbfits := hK.fits b (hN hb)
    have hcounter := hK.counter b (hN hb)
    exact congrArg BitVec.toNat
      (load_store_apart (by decide) (by decide) (by omega) (by omega) (by omega))
  · intro b hb
    rw [MemoryManager.size_setFreeBytes, ← h.size b hb]
    have hbfits := hK.fits b (hS hb)
    have hcounter := hK.counter b (hS hb)
    exact congrArg BitVec.toNat
      (load_store_apart (by decide) (by decide) (by omega) (by omega) (by omega))
  · rw [MemoryManager.freeBytesRemaining_setFreeBytes, freeBytesRemaining, Heap2Bytes.setFreeBytes,
      load_store (by decide), BitVec.toNat_ofNat]
    exact Nat.mod_eq_of_lt hv
  · intro x hx
    rw [← h.frame x hx]
    exact store_outside (fun hmem ↦ hx (Or.inr hmem))

theorem Holds.rebase (h : Holds L K N S m₀ m M) : Holds L K N S m m M :=
  ⟨h.next, h.size, h.free, fun _ _ ↦ rfl⟩

theorem Holds.congr (h : Holds L K K K m₀ m M) (hm : ∀ x ∈ ownBytes L K, m' x = m x) :
    Holds L K K K m' m' M := by
  have hrecord (a : ℕ) (ha : a ∈ K) (k n : ℕ) (hn : k + n ≤ 16) :
      load m' n (BitVec.ofNat 64 (a + k)) = load m n (BitVec.ofNat 64 (a + k)) := by
    rw [load_eq_iff]
    intro x hx
    refine hm x (Or.inl ⟨a, ha, ?_⟩)
    rw [BitVec.ofNat_add] at hx
    exact mem_span_offset hn hx
  constructor
  · intro a ha
    rw [← h.next a ha]
    exact congrArg BitVec.toNat (hrecord a ha 0 8 (by omega))
  · intro a ha
    rw [← h.size a ha]
    exact congrArg BitVec.toNat (hrecord a ha 8 4 (by omega))
  · rw [← h.free]
    refine congrArg BitVec.toNat (load_eq_iff.mpr (fun x hx ↦ hm x (Or.inr hx)))
  · exact fun _ _ ↦ rfl

end ShellOS.Memory.Heap2Bytes
