import Mathlib.Data.Set.Lattice
import Mathlib.Order.CompletePartialOrder
import ShellOS.Library.Bytes

namespace ShellOS.Library.Copying

open Bytes Function

variable {m m' : Memory} {a b d s x : BitVec 64} {i j k n w : ℕ}

theorem add_offset (a : BitVec 64) (i j : ℕ) :
    a + BitVec.ofNat 64 i + BitVec.ofNat 64 j = a + BitVec.ofNat 64 (i + j) := by
  rw [BitVec.ofNat_add, BitVec.add_assoc]

theorem mem_span_offset (h : i + j ≤ n) : x ∈ span (a + BitVec.ofNat 64 i) j → x ∈ span a n := by
  intro hx
  obtain ⟨t, ht, rfl⟩ := exists_offset hx
  rw [add_offset]
  exact offset_mem (by omega)

theorem mem_span_iff (h : a.toNat + n ≤ 2 ^ 64) :
    x ∈ span a n ↔ a.toNat ≤ x.toNat ∧ x.toNat < a.toNat + n := by
  change (x - a).toNat < n ↔ _
  rw [BitVec.toNat_sub]
  constructor
  · intro hx
    omega
  · intro hx
    omega

theorem disjoint_span (h : a.toNat + n ≤ b.toNat) (hb : b.toNat + k ≤ 2 ^ 64) :
    Disjoint (span a n) (span b k) := by
  rw [Set.disjoint_left]
  intro x hx hx'
  have hx := (mem_span_iff (by omega)).mp hx
  have hx' := (mem_span_iff hb).mp hx'
  omega

/-- The bytes at `s` in the order of their addresses, one word of `w` bytes
after the other, to those at `d`. -/
def copyUnits (w : ℕ) (m : Memory) (d s : BitVec 64) : ℕ → Memory
  | 0 => m
  | i + 1 =>
    let m := copyUnits w m d s i
    store m w (d + BitVec.ofNat 64 (w * i)) (load m w (s + BitVec.ofNat 64 (w * i)))

section Loop

theorem store_load_one (m : Memory) (a b : BitVec 64) :
    store m 1 a (load m 1 b) = update m a (m b) := by
  funext x
  by_cases hx : x = a
  · subst hx
    have hbyte := store_offset (m := m) (a := x) (v := load m 1 b) Nat.one_pos (by omega)
    rw [byte_load Nat.one_pos] at hbyte
    simpa using hbyte
  · have hout : x ∉ span a 1 := by
      intro hmem
      obtain ⟨i, hi, rfl⟩ := exists_offset hmem
      exact hx (by simp [Nat.lt_one_iff.mp hi])
    rw [store_outside hout, update_of_ne hx]

theorem copyBytes_succ :
    copyUnits 1 m d s (n + 1) = update (copyUnits 1 m d s n) (d + BitVec.ofNat 64 n)
      (copyUnits 1 m d s n (s + BitVec.ofNat 64 n)) := by
  rw [copyUnits, Nat.one_mul]
  exact store_load_one _ _ _

theorem copyBytes_outside (hx : x ∉ span d n) : copyUnits 1 m d s n x = m x := by
  induction n with
  | zero => rfl
  | succ n ih =>
    have hne : x ≠ d + BitVec.ofNat 64 n := by
      rintro rfl
      exact hx (offset_mem (Nat.lt_succ_self n))
    rw [copyBytes_succ, update_of_ne hne]
    exact ih (fun h ↦ hx (Nat.lt_succ_of_lt h))

/-- A source that the copy has reached holds the bytes that were copied
there: the bytes before the destination repeat. -/
theorem copyBytes_apply (hn : n ≤ 2 ^ 64) (hi : i < n) :
    copyUnits 1 m d s n (d + BitVec.ofNat 64 i) =
      m (s + BitVec.ofNat 64 (i % (d - s).toNat)) := by
  induction n generalizing i with
  | zero => exact absurd hi (Nat.not_lt_zero i)
  | succ n ih =>
    rw [copyBytes_succ]
    by_cases hlast : i = n
    · subst hlast
      rw [update_self]
      by_cases hk : (d - s).toNat ≤ i ∧ (d - s).toNat ≠ 0
      · obtain ⟨hk, hk0⟩ := hk
        have hs : s + BitVec.ofNat 64 i = d + BitVec.ofNat 64 (i - (d - s).toNat) := by bv_omega
        rw [hs, ih (by omega) (by omega), Nat.mod_eq_sub_mod hk]
      · have hmod : i % (d - s).toNat = i := by
          by_cases hk0 : (d - s).toNat = 0
          · rw [hk0, Nat.mod_zero]
          · exact Nat.mod_eq_of_lt (by omega)
        rw [hmod]
        apply copyBytes_outside
        intro hmem
        have hmem : (s + BitVec.ofNat 64 i - d).toNat < i := hmem
        bv_omega
    · have hne : d + BitVec.ofNat 64 i ≠ d + BitVec.ofNat 64 n := by bv_omega
      rw [update_of_ne hne]
      exact ih (by omega) (by omega)

/-- The forward copy of bytes is one store when the destination does not begin
inside the source. -/
theorem copyBytes_eq_store (hn : n ≤ 2 ^ 64) (h : (d - s).toNat = 0 ∨ n ≤ (d - s).toNat) :
    copyUnits 1 m d s n = store m n d (load m n s) := by
  funext x
  by_cases hx : x ∈ span d n
  · obtain ⟨i, hi, rfl⟩ := exists_offset hx
    have hmod : i % (d - s).toNat = i := by
      rcases h with h | h
      · rw [h, Nat.mod_zero]
      · exact Nat.mod_eq_of_lt (by omega)
    rw [copyBytes_apply hn hi, hmod, store_offset hi hn, byte_load hi]
  · rw [copyBytes_outside hx, store_outside hx]

theorem copyBytes_add :
    copyUnits 1 (copyUnits 1 m d s i) (d + BitVec.ofNat 64 i) (s + BitVec.ofNat 64 i) j =
      copyUnits 1 m d s (i + j) := by
  induction j with
  | zero => rfl
  | succ j ih =>
    rw [← Nat.add_assoc, copyBytes_succ, copyBytes_succ, ih, add_offset, add_offset]

theorem copyUnits_eq_bytes (hw : w ≤ 2 ^ 64) (h : w ∣ (d - s).toNat) :
    copyUnits w m d s n = copyUnits 1 m d s (w * n) := by
  induction n with
  | zero => rfl
  | succ n ih =>
    have hdist : d + BitVec.ofNat 64 (w * n) - (s + BitVec.ofNat 64 (w * n)) = d - s := by bv_omega
    have hfar : (d - s).toNat = 0 ∨ w ≤ (d - s).toNat := by
      rcases Nat.eq_zero_or_pos (d - s).toNat with h0 | hpos
      · exact .inl h0
      · exact .inr (Nat.le_of_dvd hpos h)
    rw [copyUnits, ih, ← copyBytes_eq_store hw (by rw [hdist]; exact hfar), copyBytes_add,
      Nat.mul_succ]

theorem copyBytes_copies_iff (hn : n ≤ 2 ^ 64) :
    (∀ m, ∀ i < n, copyUnits 1 m d s n (d + BitVec.ofNat 64 i) = m (s + BitVec.ofNat 64 i)) ↔
      (d - s).toNat = 0 ∨ n ≤ (d - s).toNat := by
  constructor
  · intro h
    by_contra hnear
    obtain ⟨hne, hlt⟩ := not_or.mp hnear
    have hlt : (d - s).toNat < n := by omega
    have hread := h (fun x ↦ if x = s then 1 else 0) (d - s).toNat hlt
    have hs : s + BitVec.ofNat 64 (d - s).toNat ≠ s := by bv_omega
    rw [copyBytes_apply hn hlt, Nat.mod_self, BitVec.ofNat_eq_ofNat, BitVec.add_zero] at hread
    simp only [if_pos, if_neg hs] at hread
    exact absurd hread (by decide)
  · intro h m i hi
    rw [copyBytes_eq_store hn h, store_offset hi hn, byte_load hi]

end Loop

section Contents

variable {xs ys : List (BitVec 8)} {y : BitVec 8}

/-- The bytes from `a` upwards. -/
def Holds (m : Memory) (a : BitVec 64) (ys : List (BitVec 8)) : Prop :=
  ∀ i y, ys[i]? = some y → m (a + BitVec.ofNat 64 i) = y

theorem holds_append : Holds m a (xs ++ ys) ↔
    Holds m a xs ∧ Holds m (a + BitVec.ofNat 64 xs.length) ys := by
  constructor
  · intro h
    refine ⟨fun i y hy ↦ h i y ?_, fun i y hy ↦ ?_⟩
    · rw [List.getElem?_append_left (List.getElem?_eq_some_iff.mp hy).1]
      exact hy
    · rw [add_offset]
      apply h
      rw [List.getElem?_append_right (Nat.le_add_right _ _), Nat.add_sub_cancel_left]
      exact hy
  · intro ⟨hxs, hys⟩ i y hy
    rcases Nat.lt_or_ge i xs.length with hi | hi
    · rw [List.getElem?_append_left hi] at hy
      exact hxs i y hy
    · rw [List.getElem?_append_right hi] at hy
      have hy := hys _ y hy
      rw [add_offset, Nat.add_sub_cancel' hi] at hy
      exact hy

theorem Holds.congr (h : Holds m a ys) (hm : ∀ x ∈ span a ys.length, m' x = m x) :
    Holds m' a ys := by
  intro i y hy
  rw [hm _ (offset_mem (List.getElem?_eq_some_iff.mp hy).1)]
  exact h i y hy

def bytesOf (n : ℕ) (v : BitVec (8 * n)) : List (BitVec 8) := (List.range n).map (byte v)

@[simp]
theorem length_bytesOf (v : BitVec (8 * n)) : (bytesOf n v).length = n := by simp [bytesOf]

theorem Holds.load {v : BitVec (8 * n)} (h : Holds m a (bytesOf n v)) : load m n a = v := by
  apply eq_of_byte
  intro i hi
  rw [byte_load hi]
  apply h
  simp [bytesOf, hi]

theorem Holds.copy (h : Holds m s ys) (hlen : ys.length ≤ 2 ^ 64)
    (hfar : (d - s).toNat = 0 ∨ ys.length ≤ (d - s).toNat) :
    Holds (copyUnits 1 m d s ys.length) d ys := by
  intro i y hy
  have hi := (List.getElem?_eq_some_iff.mp hy).1
  rw [(copyBytes_copies_iff hlen).mpr hfar m i hi]
  exact h i y hy

end Contents

section Gather

variable {ss ws : List (BitVec 64)}

/-- The words at the addresses `ss`, one after the other, to consecutive places
from `d` on. -/
def gather (m : Memory) (d : BitVec 64) : List (BitVec 64) → Memory
  | [] => m
  | s :: ss => gather (store m 8 d (load m 8 s)) (d + 8) ss

theorem gather_outside (hn : 8 * ss.length ≤ 2 ^ 64) (hx : x ∉ span d (8 * ss.length)) :
    gather m d ss x = m x := by
  induction ss generalizing m d with
  | nil => rfl
  | cons s ss ih =>
    rw [List.length_cons] at hn hx
    have hx : ¬ (x - d).toNat < 8 * (ss.length + 1) := hx
    have hrest : x ∉ span (d + 8) (8 * ss.length) := by
      change ¬ (x - (d + 8)).toNat < 8 * ss.length
      bv_omega
    rw [gather, ih (by omega) hrest]
    apply store_outside
    change ¬ (x - d).toNat < 8
    omega

theorem gather_stacked (hn : 8 * ss.length ≤ 2 ^ 64)
    (hapart : ∀ s ∈ ss, Disjoint (span s 8) (span d (8 * ss.length))) :
    Stacked (gather m d ss) d (ss.map fun s ↦ load m 8 s) := by
  induction ss generalizing m d with
  | nil => trivial
  | cons s ss ih =>
    rw [List.length_cons] at hn hapart
    rw [List.forall_mem_cons] at hapart
    have hrest : ∀ x ∈ span (d + 8) (8 * ss.length),
        x ∈ span d (8 * (ss.length + 1)) ∧ x ∉ span d 8 := by
      intro x hx
      have hx : (x - (d + 8)).toNat < 8 * ss.length := hx
      constructor
      · change (x - d).toNat < 8 * (ss.length + 1)
        bv_omega
      · change ¬ (x - d).toNat < 8
        bv_omega
    have hfirst : ∀ x ∈ span d 8, x ∈ span d (8 * (ss.length + 1)) := by
      intro x hx
      have hx : (x - d).toNat < 8 := hx
      change (x - d).toNat < 8 * (ss.length + 1)
      omega
    let m' := store m 8 d (load m 8 s)
    have hsame : ∀ t ∈ ss, load m' 8 t = load m 8 t := by
      intro t ht
      rw [load_eq_iff]
      intro x hx
      exact store_outside fun hx' ↦ Set.disjoint_left.mp (hapart.2 t ht) hx (hfirst x hx')
    have hapart' : ∀ t ∈ ss, Disjoint (span t 8) (span (d + 8) (8 * ss.length)) :=
      fun t ht ↦ (hapart.2 t ht).mono_right fun x hx ↦ (hrest x hx).1
    have hgathered : Stacked (gather m' (d + 8) ss) (d + 8) (ss.map fun t ↦ load m' 8 t) :=
      ih (by omega) hapart'
    rw [List.map_congr_left hsame] at hgathered
    refine ⟨?_, hgathered⟩
    have hkept : load (gather m' (d + 8) ss) 8 d = load m' 8 d := by
      rw [load_eq_iff]
      exact fun x hx ↦ gather_outside (by omega) fun hx' ↦ (hrest x hx').2 hx
    exact hkept.trans (load_store (by decide))

theorem stacked_left {us vs : List (BitVec 64)} (h : Stacked m a (us ++ vs)) : Stacked m a us := by
  induction us generalizing a with
  | nil => trivial
  | cons u us ih => exact ⟨h.1, ih h.2⟩

theorem stacked_map {us : List (BitVec 64)} (h : Stacked m a us) :
    ((List.range us.length).map fun i ↦ load m 8 (a + BitVec.ofNat 64 (8 * i))) = us := by
  induction us generalizing a with
  | nil => rfl
  | cons u us ih =>
    obtain ⟨hload, hrest⟩ := h
    have hnext : ∀ i, load m 8 (a + BitVec.ofNat 64 (8 * (i + 1))) =
        load m 8 (a + 8 + BitVec.ofNat 64 (8 * i)) := by
      intro i
      congr 1
      bv_omega
    have hfirst : load m 8 (a + BitVec.ofNat 64 (8 * 0)) = u := by
      rw [Nat.mul_zero, ← hload]
      exact congrArg (load m 8) (BitVec.add_zero a)
    rw [List.length_cons, List.range_succ_eq_map, List.map_cons, List.map_map, hfirst]
    have htail := (List.map_congr_left fun i (_ : i ∈ List.range us.length) ↦ hnext i).trans (ih hrest)
    exact congrArg (u :: ·) htail

end Gather

section Fields

structure Field where
  offset : ℕ
  width : ℕ
  value : BitVec (8 * width)

namespace Field

def place (f : Field) (a : BitVec 64) : Set (BitVec 64) := span (a + BitVec.ofNat 64 f.offset) f.width

def Apart (f g : Field) : Prop := f.offset + f.width ≤ g.offset ∨ g.offset + g.width ≤ f.offset

instance (f g : Field) : Decidable (Apart f g) := inferInstanceAs (Decidable (_ ∨ _))

end Field

variable {f g : Field} {fs : List Field}

def storeFields (m : Memory) (a : BitVec 64) (fs : List Field) : Memory :=
  fs.foldl (fun m f ↦ store m f.width (a + BitVec.ofNat 64 f.offset) f.value) m

theorem mem_place (h : f.offset + f.width ≤ 2 ^ 64) :
    x ∈ f.place a ↔ f.offset ≤ (x - a).toNat ∧ (x - a).toNat < f.offset + f.width := by
  change (x - (a + BitVec.ofNat 64 f.offset)).toNat < f.width ↔ _
  rcases Nat.eq_zero_or_pos f.width with h0 | hpos
  · constructor <;> intro <;> omega
  · have hoffset : (BitVec.ofNat 64 f.offset).toNat = f.offset := by
      rw [BitVec.toNat_ofNat]
      omega
    have hsub : x - (a + BitVec.ofNat 64 f.offset) = x - a - BitVec.ofNat 64 f.offset := by bv_omega
    rw [hsub, BitVec.toNat_sub, hoffset]
    constructor <;> intro <;> omega

theorem storeFields_outside (hx : ∀ f ∈ fs, x ∉ f.place a) : storeFields m a fs x = m x := by
  induction fs generalizing m with
  | nil => rfl
  | cons f fs ih =>
    rw [List.forall_mem_cons] at hx
    rw [storeFields, List.foldl_cons, ← storeFields, ih hx.2]
    exact store_outside hx.1

theorem load_storeFields (hfs : fs.Pairwise Field.Apart)
    (hsize : ∀ f ∈ fs, f.offset + f.width ≤ 2 ^ 64) (hf : f ∈ fs) :
    load (storeFields m a fs) f.width (a + BitVec.ofNat 64 f.offset) = f.value := by
  induction fs generalizing m with
  | nil => exact absurd hf List.not_mem_nil
  | cons g fs ih =>
    obtain ⟨hg, hfs⟩ := List.pairwise_cons.mp hfs
    rw [List.forall_mem_cons] at hsize
    rw [storeFields, List.foldl_cons, ← storeFields]
    rcases List.mem_cons.mp hf with rfl | hf
    · have hwidth : f.width ≤ 2 ^ 64 := by omega
      have hkept : ∀ x ∈ f.place a, storeFields
          (store m f.width (a + BitVec.ofNat 64 f.offset) f.value) a fs x =
            store m f.width (a + BitVec.ofNat 64 f.offset) f.value x := by
        intro x hx
        refine storeFields_outside (fun g hmem hx' ↦ ?_)
        have hapart : f.Apart g := hg g hmem
        have hx := (mem_place hsize.1).mp hx
        have hx' := (mem_place (hsize.2 g hmem)).mp hx'
        rcases hapart with h | h <;> omega
      rw [load_eq_iff.mpr hkept, load_store hwidth]
    · exact ih hfs hsize.2 hf

end Fields

end ShellOS.Library.Copying
