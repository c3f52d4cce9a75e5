import Mathlib.Data.BitVec
import Mathlib.Data.Set.Basic

namespace ShellOS.Library.Bytes

abbrev Memory := BitVec 64 → BitVec 8

variable {m m' : Memory} {n k i : ℕ} {a b x : BitVec 64} {v w : BitVec (8 * n)}

def byte (v : BitVec k) (i : ℕ) : BitVec 8 := v.extractLsb' (8 * i) 8

/-- The `n` bytes at `a`, the lowest one first. -/
def load (m : Memory) : (n : ℕ) → BitVec 64 → BitVec (8 * n)
  | 0, _ => 0
  | n + 1, a => load m n (a + 1) ++ m a

def store (m : Memory) (n : ℕ) (a : BitVec 64) (v : BitVec (8 * n)) : Memory := fun x ↦
  if (x - a).toNat < n then byte v (x - a).toNat else m x

section Byte

theorem eq_of_byte (h : ∀ i < n, byte v i = byte w i) : v = w := by
  apply BitVec.eq_of_getLsbD_eq
  intro j hj
  have hbyte := congrArg (fun u : BitVec 8 ↦ u.getLsbD (j % 8)) (h (j / 8) (by omega))
  have hlt : j % 8 < 8 := by omega
  have hsum : 8 * (j / 8) + j % 8 = j := by omega
  simpa [byte, BitVec.getLsbD_extractLsb', hlt, hsum] using hbyte

theorem byte_append_zero (u : BitVec k) (y : BitVec 8) : byte (u ++ y) 0 = y := by
  apply BitVec.eq_of_getLsbD_eq
  intro j hj
  simp [byte, BitVec.getLsbD_append, hj]

theorem byte_append_succ (u : BitVec k) (y : BitVec 8) (i : ℕ) :
    byte (u ++ y) (i + 1) = byte u i := by
  apply BitVec.eq_of_getLsbD_eq
  intro j hj
  have hle : ¬ 8 * (i + 1) + j < 8 := by omega
  have hsub : 8 * (i + 1) + j - 8 = 8 * i + j := by omega
  simp [byte, BitVec.getLsbD_append, hj, hle, hsub]

theorem byte_setWidth {j : ℕ} (u : BitVec j) (h : 8 * (i + 1) ≤ k) :
    byte (u.setWidth k) i = byte u i := by
  apply BitVec.eq_of_getLsbD_eq
  intro t ht
  have hlt : 8 * i + t < k := by omega
  simp [byte, ht, hlt]

theorem byte_load (hi : i < n) : byte (load m n a) i = m (a + BitVec.ofNat 64 i) := by
  induction n generalizing a i with
  | zero => exact absurd hi (Nat.not_lt_zero i)
  | succ n ih =>
    cases i with
    | zero =>
      rw [load, byte_append_zero]
      simp
    | succ i =>
      have hnext : a + 1 + BitVec.ofNat 64 i = a + BitVec.ofNat 64 (i + 1) := by bv_omega
      rw [load, byte_append_succ, ih (Nat.lt_of_succ_lt_succ hi), hnext]

end Byte

/-- The addresses of the `n` bytes at `a`. -/
def span (a : BitVec 64) (n : ℕ) : Set (BitVec 64) := {x | (x - a).toNat < n}

theorem offset_mem (hi : i < n) : a + BitVec.ofNat 64 i ∈ span a n := by
  change (a + BitVec.ofNat 64 i - a).toNat < n
  have hle : (a + BitVec.ofNat 64 i - a).toNat ≤ i := by
    have hsub : a + BitVec.ofNat 64 i - a = BitVec.ofNat 64 i := by bv_omega
    rw [hsub, BitVec.toNat_ofNat]
    exact Nat.mod_le _ _
  omega

theorem exists_offset (hx : x ∈ span a n) : ∃ i < n, x = a + BitVec.ofNat 64 i :=
  ⟨(x - a).toNat, hx, by bv_omega⟩

theorem load_eq_iff : load m n a = load m' n a ↔ ∀ x ∈ span a n, m x = m' x := by
  constructor
  · intro h x hx
    obtain ⟨i, hi, rfl⟩ := exists_offset hx
    rw [← byte_load (m := m) hi, h, byte_load hi]
  · intro h
    apply eq_of_byte
    intro i hi
    rw [byte_load hi, byte_load hi]
    exact h _ (offset_mem hi)

section Store

theorem store_outside (hx : x ∉ span a n) : store m n a v x = m x := if_neg hx

theorem store_offset (hi : i < n) (hn : n ≤ 2 ^ 64) :
    store m n a v (a + BitVec.ofNat 64 i) = byte v i := by
  have hsub : (a + BitVec.ofNat 64 i - a).toNat = i := by bv_omega
  rw [store, hsub, if_pos hi]

theorem load_store (hn : n ≤ 2 ^ 64) : load (store m n a v) n a = v := by
  apply eq_of_byte
  intro i hi
  rw [byte_load hi, store_offset hi hn]

theorem store_agrees_iff (hn : n ≤ 2 ^ 64) (S : Set (BitVec 64)) :
    (∀ x ∈ S, store m n a v x = m x) ↔
      ∀ i < n, a + BitVec.ofNat 64 i ∈ S → m (a + BitVec.ofNat 64 i) = byte v i := by
  constructor
  · intro h i hi hmem
    rw [← h _ hmem, store_offset hi hn]
  · intro h x hx
    by_cases hspan : x ∈ span a n
    · obtain ⟨i, hi, rfl⟩ := exists_offset hspan
      rw [store_offset hi hn, h i hi hx]
    · exact store_outside hspan

end Store

section Stack

variable {sp : BitVec 64} {u : BitVec 64} {us us' : List (BitVec 64)}

def Stacked (m : Memory) : BitVec 64 → List (BitVec 64) → Prop
  | _, [] => True
  | sp, u :: us => load m 8 sp = u ∧ Stacked m (sp + 8) us

theorem Stacked.congr (h : Stacked m sp us) (hn : 8 * us.length ≤ 2 ^ 64)
    (hm : ∀ x ∈ span sp (8 * us.length), m' x = m x) : Stacked m' sp us := by
  induction us generalizing sp with
  | nil => trivial
  | cons u us ih =>
    obtain ⟨hload, hrest⟩ := h
    rw [List.length_cons] at hn hm
    refine ⟨?_, ih hrest (by omega) (fun x hx ↦ hm x ?_)⟩
    · rw [← hload, load_eq_iff]
      intro x hx
      apply hm
      have hx : (x - sp).toNat < 8 := hx
      change (x - sp).toNat < 8 * (us.length + 1)
      omega
    · have hx : (x - (sp + 8)).toNat < 8 * us.length := hx
      change (x - sp).toNat < 8 * (us.length + 1)
      bv_omega

theorem Stacked.push (h : Stacked m sp us) (hn : 8 * (us.length + 1) ≤ 2 ^ 64) :
    Stacked (store m 8 (sp - 8) u) (sp - 8) (u :: us) := by
  have hsp : sp - 8 + 8 = sp := by bv_omega
  refine ⟨load_store (by omega), ?_⟩
  rw [hsp]
  refine h.congr (by omega) (fun x hx ↦ store_outside (fun hbelow ↦ ?_))
  have hx : (x - sp).toNat < 8 * us.length := hx
  have hbelow : (x - (sp - 8)).toNat < 8 := hbelow
  bv_omega

end Stack

end ShellOS.Library.Bytes
