import ShellOS.Library.Copying

namespace ShellOS.Boot.Lib

open Library.Bytes Library.Copying Function

/-- `while(length--) dst[length] = chr`. -/
def memsetLoop (dst : BitVec 64) (chr : BitVec 8) : ℕ → Memory → Memory
  | 0, m => m
  | length + 1, m => memsetLoop dst chr length (update m (dst + BitVec.ofNat 64 length) chr)

def memset (m : Memory) (destination : BitVec 64) (c : BitVec 32) (length : BitVec 64) : Memory :=
  memsetLoop destination (c.setWidth 8) length.toNat m

def sizeofUint32 : ℕ := 4

/-- Words are copied when both pointers and the length are word-aligned, and
bytes otherwise. -/
def memcpy (m : Memory) (destination source length : BitVec 64) : Memory :=
  if destination.toNat % sizeofUint32 = 0 ∧ source.toNat % sizeofUint32 = 0 ∧
      length.toNat % sizeofUint32 = 0 then
    copyUnits sizeofUint32 m destination source (length.toNat / sizeofUint32)
  else copyUnits 1 m destination source length.toNat

variable {m : Memory} {destination source length x : BitVec 64} {c : BitVec 32}

section Memset

variable {dst : BitVec 64} {chr : BitVec 8} {n : ℕ}

theorem memsetLoop_outside (h : x ∉ span dst n) : memsetLoop dst chr n m x = m x := by
  induction n generalizing m with
  | zero => rfl
  | succ n ih =>
    have hne : x ≠ dst + BitVec.ofNat 64 n := by
      rintro rfl
      exact h (offset_mem (Nat.lt_succ_self n))
    rw [memsetLoop, ih (fun hx ↦ h (Nat.lt_succ_of_lt hx)), update_of_ne hne]

theorem memsetLoop_inside (hn : n ≤ 2 ^ 64) (h : x ∈ span dst n) :
    memsetLoop dst chr n m x = chr := by
  induction n generalizing m with
  | zero => exact absurd h (Nat.not_lt_zero _)
  | succ n ih =>
    rw [memsetLoop]
    by_cases hx : x ∈ span dst n
    · exact ih (by omega) hx
    · obtain ⟨i, hi, rfl⟩ := exists_offset h
      have hin : i = n := by
        have hnot : ¬ i < n := fun hlt ↦ hx (offset_mem hlt)
        omega
      rw [memsetLoop_outside hx, hin, update_self]

theorem memset_inside (h : x ∈ span destination length.toNat) :
    memset m destination c length x = c.setWidth 8 :=
  memsetLoop_inside length.isLt.le h

theorem memset_outside (h : x ∉ span destination length.toNat) :
    memset m destination c length x = m x :=
  memsetLoop_outside h

end Memset

section Memcpy

/-- The copy of words leaves the memory that the copy of bytes leaves,
wherever the two places are. -/
theorem memcpy_eq_copyBytes (m : Memory) (destination source length : BitVec 64) :
    memcpy m destination source length = copyUnits 1 m destination source length.toNat := by
  unfold memcpy sizeofUint32
  split
  · rename_i haligned
    obtain ⟨hd, hs, hl⟩ := haligned
    have hdist : 4 ∣ (destination - source).toNat := by bv_omega
    rw [copyUnits_eq_bytes (by omega) hdist, Nat.mul_div_cancel' (Nat.dvd_of_mod_eq_zero hl)]
  · rfl

theorem memcpy_outside (h : x ∉ span destination length.toNat) :
    memcpy m destination source length x = m x := by
  rw [memcpy_eq_copyBytes]
  exact copyBytes_outside h

/-- The bytes arrive as they were exactly when the destination does not begin
inside the source, and no other byte changes. -/
theorem memcpy_copies_iff (destination source length : BitVec 64) :
    ((∀ m, ∀ i < length.toNat, memcpy m destination source length (destination + BitVec.ofNat 64 i) =
        m (source + BitVec.ofNat 64 i)) ↔
      destination = source ∨ length.toNat ≤ (destination - source).toNat) ∧
    ∀ m, ∀ x ∉ span destination length.toNat, memcpy m destination source length x = m x := by
  have heq : (destination - source).toNat = 0 ↔ destination = source := by
    constructor
    · intro h
      bv_omega
    · rintro rfl
      simp
  refine ⟨?_, fun m x hx ↦ memcpy_outside hx⟩
  simp only [memcpy_eq_copyBytes, ← heq]
  exact copyBytes_copies_iff length.isLt.le

end Memcpy

end ShellOS.Boot.Lib
