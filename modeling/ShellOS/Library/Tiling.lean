import ShellOS.Library.Links
import Mathlib.Algebra.BigOperators.Group.List.Basic
import Mathlib.Algebra.Group.Nat.Even
import Mathlib.Data.List.Pairwise
import Mathlib.Tactic.Ring

namespace ShellOS.Library.Tiling

open Links

/-- The blocks that start at the addresses of `A` cover the range from `a` to
`e`, each one beginning where the one before it ends. -/
structure Tiles (size : ℕ → ℕ) (a : ℕ) (A : List ℕ) (e : ℕ) : Prop where
  path : Path (fun x ↦ x + size x) a A e
  pos : ∀ x ∈ A, 0 < size x

variable {size size' : ℕ → ℕ} {a e x y z : ℕ} {A A₁ A₂ : List ℕ}

theorem tiles_cons : Tiles size a (x :: A) e ↔ a = x ∧ 0 < size x ∧ Tiles size (x + size x) A e := by
  constructor
  · rintro ⟨⟨rfl, hp⟩, hpos⟩
    exact ⟨rfl, hpos _ List.mem_cons_self, hp, fun y hy ↦ hpos y (List.mem_cons_of_mem _ hy)⟩
  · rintro ⟨rfl, hx, hp, hpos⟩
    exact ⟨⟨rfl, hp⟩, List.forall_mem_cons.mpr ⟨hx, hpos⟩⟩

theorem Tiles.bounds (h : Tiles size a A e) : a ≤ e ∧ ∀ x ∈ A, a ≤ x ∧ x + size x ≤ e := by
  induction A generalizing a with
  | nil =>
    have hae : a = e := h.path
    exact ⟨by omega, by simp⟩
  | cons y A ih =>
    obtain ⟨rfl, hy, h⟩ := tiles_cons.mp h
    obtain ⟨hle, hall⟩ := ih h
    refine ⟨by omega, fun x hx ↦ ?_⟩
    rcases List.mem_cons.mp hx with rfl | hx
    · omega
    · have hx' := hall x hx
      omega

theorem Tiles.pairwise (h : Tiles size a A e) : A.Pairwise (fun x y ↦ x + size x ≤ y) := by
  induction A generalizing a with
  | nil => exact List.Pairwise.nil
  | cons y A ih =>
    obtain ⟨rfl, -, h⟩ := tiles_cons.mp h
    exact List.pairwise_cons.mpr ⟨fun x hx ↦ (h.bounds.2 x hx).1, ih h⟩

theorem Tiles.nodup (h : Tiles size a A e) : A.Nodup := by
  refine h.pairwise.imp_of_mem (fun {x y} hx _ hxy ↦ ?_)
  have hpos := h.pos x hx
  omega

theorem Tiles.disjoint (h : Tiles size a A e) (hx : x ∈ A) (hy : y ∈ A) (hne : x ≠ y) :
    x + size x ≤ y ∨ y + size y ≤ x := by
  have hor : A.Pairwise (fun x y ↦ x + size x ≤ y ∨ y + size y ≤ x) :=
    h.pairwise.imp (fun h ↦ Or.inl h)
  have hsymm : Std.Symm (fun x y ↦ x + size x ≤ y ∨ y + size y ≤ x) := ⟨fun _ _ h ↦ h.symm⟩
  exact hor.forall hx hy hne

theorem Tiles.cover (h : Tiles size a A e) (ha : a ≤ z) (he : z < e) :
    ∃ x ∈ A, x ≤ z ∧ z < x + size x := by
  induction A generalizing a with
  | nil =>
    have hae : a = e := h.path
    omega
  | cons y A ih =>
    obtain ⟨rfl, -, h⟩ := tiles_cons.mp h
    by_cases hz : z < a + size a
    · exact ⟨a, List.mem_cons_self, ha, hz⟩
    · obtain ⟨x, hx, hzx⟩ := ih h (by omega)
      exact ⟨x, List.mem_cons_of_mem _ hx, hzx⟩

theorem Tiles.not_mem_inside (h : Tiles size a A e) (hx : x ∈ A) (hlo : x < z)
    (hhi : z < x + size x) : z ∉ A := by
  intro hz
  have hpos := h.pos z hz
  have hd := h.disjoint hx hz (by omega)
  omega

theorem Tiles.congr (h : Tiles size a A e) (hA : ∀ x ∈ A, size' x = size x) :
    Tiles size' a A e :=
  ⟨h.path.congr (fun x hx ↦ by rw [hA x hx]), fun x hx ↦ by rw [hA x hx]; exact h.pos x hx⟩

theorem Tiles.sum (h : Tiles size a A e) : a + (A.map size).sum = e := by
  induction A generalizing a with
  | nil => exact h.path
  | cons y A ih =>
    obtain ⟨rfl, -, h⟩ := tiles_cons.mp h
    rw [List.map_cons, List.sum_cons, ← Nat.add_assoc]
    exact ih h

theorem tiles_append : Tiles size a (A₁ ++ A₂) e ↔
    ∃ c, Tiles size a A₁ c ∧ Tiles size c A₂ e := by
  constructor
  · rintro ⟨hp, hpos⟩
    obtain ⟨c, h₁, h₂⟩ := path_append.mp hp
    exact ⟨c, ⟨h₁, fun x hx ↦ hpos x (List.mem_append_left _ hx)⟩,
      ⟨h₂, fun x hx ↦ hpos x (List.mem_append_right _ hx)⟩⟩
  · rintro ⟨c, h₁, h₂⟩
    refine ⟨path_append.mpr ⟨c, h₁.path, h₂.path⟩, fun x hx ↦ ?_⟩
    rcases List.mem_append.mp hx with hx | hx
    · exact h₁.pos x hx
    · exact h₂.pos x hx

theorem Tiles.split (h : Tiles size a (A₁ ++ x :: A₂) e) (hy : y = x + size' x)
    (hs : size' x + size' y = size x) (hx0 : 0 < size' x) (hy0 : 0 < size' y)
    (hA : ∀ z ∈ A₁ ++ A₂, size' z = size z) : Tiles size' a (A₁ ++ x :: y :: A₂) e := by
  obtain ⟨c, h₁, h₂⟩ := tiles_append.mp h
  obtain ⟨rfl, -, h₂⟩ := tiles_cons.mp h₂
  have h₁' := h₁.congr (fun z hz ↦ hA z (List.mem_append_left _ hz))
  have h₂' := h₂.congr (fun z hz ↦ hA z (List.mem_append_right _ hz))
  refine tiles_append.mpr ⟨c, h₁', tiles_cons.mpr ⟨rfl, hx0, tiles_cons.mpr ⟨hy.symm, hy0, ?_⟩⟩⟩
  rw [hy, Nat.add_assoc, ← hy, hs]
  exact h₂'

theorem Tiles.split_mem (h : Tiles size a A e) (hx : x ∈ A) (hs : size' x + size' y = size x)
    (hy : y = x + size' x) (hx0 : 0 < size' x) (hy0 : 0 < size' y)
    (hA : ∀ z ∈ A, z ≠ x → size' z = size z) :
    ∃ A', A'.Perm (y :: A) ∧ Tiles size' a A' e := by
  obtain ⟨A₁, A₂, rfl⟩ := List.append_of_mem hx
  have hnd := h.nodup
  refine ⟨A₁ ++ x :: y :: A₂, ?_, h.split hy hs hx0 hy0 (fun z hz ↦ hA z ?_ ?_)⟩
  · exact (List.perm_middle.trans ((List.perm_middle.cons x).trans (.swap y x _))).trans
      (List.perm_middle.symm.cons y)
  · rcases List.mem_append.mp hz with hz | hz <;> simp [hz]
  · rintro rfl
    exact (List.nodup_middle.mp hnd).notMem hz

theorem Tiles.merge (h : Tiles size a (A₁ ++ x :: y :: A₂) e) (hs : size' x = size x + size y)
    (hA : ∀ z ∈ A₁ ++ A₂, size' z = size z) : Tiles size' a (A₁ ++ x :: A₂) e := by
  obtain ⟨c, h₁, h₂⟩ := tiles_append.mp h
  obtain ⟨rfl, hx0, h₂⟩ := tiles_cons.mp h₂
  obtain ⟨rfl, hy0, h₂⟩ := tiles_cons.mp h₂
  have h₁' := h₁.congr (fun z hz ↦ hA z (List.mem_append_left _ hz))
  have h₂' := h₂.congr (fun z hz ↦ hA z (List.mem_append_right _ hz))
  refine tiles_append.mpr ⟨c, h₁', tiles_cons.mpr ⟨rfl, by omega, ?_⟩⟩
  rw [hs, ← Nat.add_assoc]
  exact h₂'

theorem Tiles.follows (h : Tiles size a (A₁ ++ x :: A₂) e) (he : x + size x ≠ e) :
    ∃ A₃, A₂ = (x + size x) :: A₃ := by
  obtain ⟨c, -, h₂⟩ := tiles_append.mp h
  obtain ⟨rfl, -, h₂⟩ := tiles_cons.mp h₂
  cases A₂ with
  | nil => exact absurd h₂.path he
  | cons y A₃ => exact ⟨A₃, by rw [(tiles_cons.mp h₂).1]⟩

def Aligned (size : ℕ → ℕ) (a : ℕ) (A : List ℕ) : Prop :=
  ∀ x ∈ A, (∃ k, size x = 2 ^ k) ∧ size x ∣ x - a

/-- In an aligned tiling, when a block is one half of an aligned range of
twice its length, a block starts at the other half. -/
theorem Tiles.buddy_mem (h : Tiles size a A e) (hal : Aligned size a A) (hx : x ∈ A)
    {p : ℕ} (hap : a ≤ p) (hp : 2 * size x ∣ p - a) (hpe : p + 2 * size x ≤ e)
    (hxp : x = p ∨ x = p + size x) (hz : z = p ∨ z = p + size x) : z ∈ A := by
  obtain ⟨⟨k, hk⟩, -⟩ := hal x hx
  have hx0 := h.pos x hx
  obtain ⟨y, hy, hyz, hzy⟩ := h.cover (z := z) (by omega) (by omega)
  obtain ⟨⟨j, hj⟩, hdy⟩ := hal y hy
  have hay := (h.bounds.2 y hy).1
  rcases Nat.lt_or_ge k j with hkj | hjk
  · -- a longer block around `z` would contain the whole range, and so `x`
    have hdvd : 2 * size x ∣ size y := by
      rw [hk, hj, ← Nat.pow_succ']
      exact Nat.pow_dvd_pow 2 hkj
    have hle : y ≤ p := by
      by_contra hlt
      have hd : 2 * size x ∣ y - p := by
        have hd' := Nat.dvd_sub (hdvd.trans hdy) hp
        rwa [show y - a - (p - a) = y - p by omega] at hd'
      have := Nat.le_of_dvd (by omega) hd
      omega
    have hge : p + 2 * size x ≤ y + size y := by
      have hd : 2 * size x ∣ y + size y - p := by
        have hd' := Nat.dvd_sub (Nat.dvd_add (hdvd.trans hdy) hdvd) hp
        rwa [show y - a + size y - (p - a) = y + size y - p by omega] at hd'
      have := Nat.le_of_dvd (by omega) hd
      omega
    have hne : x ≠ y := by
      rintro rfl
      have := Nat.pow_lt_pow_right (a := 2) (by omega) hkj
      omega
    have hd := h.disjoint hx hy hne
    omega
  · have hdvd : size y ∣ size x := by
      rw [hk, hj]
      exact Nat.pow_dvd_pow 2 hjk
    have hdz : size y ∣ z - a := by
      have hdp : size y ∣ p - a := (hdvd.trans (Nat.dvd_mul_left _ _)).trans hp
      rcases hz with rfl | rfl
      · exact hdp
      · rw [show p + size x - a = p - a + size x by omega]
        exact Nat.dvd_add hdp hdvd
    have hd : size y ∣ z - y := by
      have hd' := Nat.dvd_sub hdz hdy
      rwa [show z - a - (y - a) = z - y by omega] at hd'
    have hzero := Nat.eq_zero_of_dvd_of_lt hd (by omega)
    have hzy' : z = y := by omega
    rw [hzy']
    exact hy

def Halves (size : ℕ → ℕ) (a y z : ℕ) : Prop :=
  size z = size y ∧ z = y + size y ∧ 2 * size y ∣ y - a

theorem le_of_dvd_of_lt {d u v : ℕ} (hu : d ∣ u) (hv : d ∣ v) (h : u < v + d) : u ≤ v := by
  obtain ⟨m, rfl⟩ := hu
  obtain ⟨n, rfl⟩ := hv
  rw [← Nat.mul_succ] at h
  exact Nat.mul_le_mul_left d (Nat.le_of_lt_succ (Nat.lt_of_mul_lt_mul_left h))

/-- A block of an aligned range that does not fill it has a neighbour with
which it fills an aligned range of twice its length, or a smaller one has. -/
theorem Tiles.exists_halves (h : Tiles size a A e) (hal : Aligned size a A) {p j : ℕ}
    (hap : a ≤ p) (hp : 2 ^ j ∣ p - a) (hpe : p + 2 ^ j ≤ e) (hx : x ∈ A) (hpx : p ≤ x)
    (hxp : x + size x ≤ p + 2 ^ j) (hlt : size x < 2 ^ j) :
    ∃ y ∈ A, ∃ z ∈ A, p ≤ y ∧ z + size z ≤ p + 2 ^ j ∧ Halves size a y z := by
  obtain ⟨n, hn⟩ : ∃ n, size x ≤ n := ⟨_, le_rfl⟩
  induction n generalizing x with
  | zero =>
    have hpos := h.pos x hx
    omega
  | succ n ih =>
    obtain ⟨⟨k, hk⟩, c, hc⟩ := hal x hx
    have hpos := h.pos x hx
    have hkj : k < j := (Nat.pow_lt_pow_iff_right (a := 2) (by omega)).mp (hk ▸ hlt)
    have hdvd : 2 * size x ∣ 2 ^ j := by
      rw [hk, ← Nat.pow_succ']
      exact Nat.pow_dvd_pow 2 hkj
    have hlow : 2 * size x ∣ p - a := hdvd.trans hp
    have hhigh : 2 * size x ∣ p - a + 2 ^ j := Nat.dvd_add hlow hdvd
    have hsmaller : ∀ z ∈ A, p ≤ z → z + size z ≤ p + 2 ^ j → size z < size x →
        ∃ y ∈ A, ∃ z ∈ A, p ≤ y ∧ z + size z ≤ p + 2 ^ j ∧ Halves size a y z :=
      fun z hz hpz hzp hzx ↦ ih hz hpz hzp (by omega) (by omega)
    rcases Nat.even_or_odd' c with ⟨d, rfl | rfl⟩
    · -- the first half: its neighbour begins where it ends
      have hoff : x - a = 2 * size x * d := by rw [hc]; ring
      have hfit : x - a + 2 * size x ≤ p - a + 2 ^ j := by
        by_contra hover
        have hle := le_of_dvd_of_lt hhigh (⟨d, hoff⟩ : 2 * size x ∣ x - a) (by omega)
        omega
      have hz := h.buddy_mem hal hx (p := x) (z := x + size x) (by omega) ⟨d, hoff⟩ (by omega)
        (Or.inl rfl) (Or.inr rfl)
      obtain ⟨⟨i, hi⟩, hdz⟩ := hal _ hz
      have hik : i ≤ k := by
        by_contra hki
        have hd : 2 * size x ∣ x + size x - a := by
          refine Dvd.dvd.trans ?_ hdz
          rw [hi, hk, ← Nat.pow_succ']
          exact Nat.pow_dvd_pow 2 (by omega)
        rw [show x + size x - a = x - a + size x by omega, hoff] at hd
        have hle := Nat.le_of_dvd hpos ((Nat.dvd_add_right ⟨d, rfl⟩).mp hd)
        omega
      have hle : size (x + size x) ≤ size x := by
        rw [hi, hk]
        exact Nat.pow_le_pow_right (by omega) hik
      rcases Nat.lt_or_eq_of_le hle with hlt' | heq
      · exact hsmaller _ hz (by omega) (by omega) hlt'
      · exact ⟨x, hx, _, hz, hpx, by omega, heq, rfl, d, hoff⟩
    · -- the second half: its neighbour lies before it
      have hoff : x - a = 2 * size x * d + size x := by rw [hc]; ring
      have hdq : 2 * size x ∣ x - size x - a := ⟨d, by omega⟩
      have hpq : p - a ≤ x - size x - a := le_of_dvd_of_lt hlow hdq (by omega)
      have hz := h.buddy_mem hal hx (p := x - size x) (z := x - size x) (by omega) hdq (by omega)
        (Or.inr (by omega)) (Or.inl rfl)
      have hd := h.disjoint hz hx (by omega)
      rcases Nat.lt_or_eq_of_le (show size (x - size x) ≤ size x by omega) with hlt' | heq
      · exact hsmaller _ hz (by omega) (by omega) hlt'
      · exact ⟨_, hz, x, hx, by omega, by omega, heq.symm, by omega, by rw [heq]; exact hdq⟩

/-- Blocks `U` of a tiling are in use. When no two of the other blocks are the
halves of one range, the blocks in use determine the others. -/
theorem Tiles.unused_unique {size₁ size₂ : ℕ → ℕ} {U₁ U₂ : List ℕ} (h₁ : Tiles size₁ a A₁ e)
    (h₂ : Tiles size₂ a A₂ e) (hal₁ : Aligned size₁ a A₁) (hal₂ : Aligned size₂ a A₂)
    (hU₁ : ∀ u ∈ U₁, u ∈ A₁) (hU₂ : ∀ u ∈ U₂, u ∈ A₂)
    (hU : ∀ u, u ∈ U₁ ↔ u ∈ U₂) (hsize : ∀ u ∈ U₁, size₂ u = size₁ u)
    (hno₁ : ∀ y ∈ A₁, ∀ z ∈ A₁, y ∉ U₁ → z ∉ U₁ → ¬ Halves size₁ a y z)
    (hno₂ : ∀ y ∈ A₂, ∀ z ∈ A₂, y ∉ U₂ → z ∉ U₂ → ¬ Halves size₂ a y z)
    (hx : x ∈ A₁) (hxU : x ∉ U₁) : x ∈ A₂ ∧ x ∉ U₂ ∧ size₂ x = size₁ x := by
  have hb := h₁.bounds.2 x hx
  have hpos := h₁.pos x hx
  obtain ⟨y, hy, hyx, hxy⟩ := h₂.cover (z := x) (by omega) (by omega)
  have hyb := h₂.bounds.2 y hy
  obtain ⟨⟨k, hk⟩, hdx⟩ := hal₁ x hx
  obtain ⟨⟨j, hj⟩, hdy⟩ := hal₂ y hy
  -- a block in use lies in both tilings and so overlaps no other block of either
  have hyU : y ∉ U₂ := by
    intro hyU
    have hyU₁ := (hU y).mpr hyU
    have hne : y ≠ x := fun heq ↦ hxU (heq ▸ hyU₁)
    have hd := h₁.disjoint (hU₁ y hyU₁) hx hne
    rw [hsize y hyU₁] at hxy
    omega
  rcases Nat.lt_trichotomy j k with hjk | rfl | hkj
  · exfalso
    have hdvd : size₂ y ∣ size₁ x := by
      rw [hj, hk]
      exact Nat.pow_dvd_pow 2 hjk.le
    have hxle := le_of_dvd_of_lt (hdvd.trans hdx) hdy (by omega)
    obtain rfl : y = x := by omega
    have hlt : size₂ y < size₁ y := by
      rw [hj, hk]
      exact Nat.pow_lt_pow_right (by omega) hjk
    obtain ⟨u, hu, v, hv, hpu, hvp, hhalf⟩ := h₂.exists_halves hal₂ hb.1 (hk ▸ hdx) (hk ▸ hb.2) hy
      le_rfl (by omega) (by omega)
    have hout : ∀ w ∈ A₂, y ≤ w → w + size₂ w ≤ y + 2 ^ k → w ∉ U₂ := by
      intro w hw hyw hwy hwU
      have hwU₁ := (hU w).mpr hwU
      have hne : w ≠ y := fun heq ↦ hxU (heq ▸ hwU₁)
      have hd := h₁.disjoint (hU₁ w hwU₁) hx hne
      have hposw := h₂.pos w hw
      rw [← hsize w hwU₁] at hd
      omega
    have hposu := h₂.pos u hu
    obtain ⟨hs, hv', -⟩ := id hhalf
    exact hno₂ u hu v hv (hout u hu hpu (by omega)) (hout v hv (by omega) hvp) hhalf
  · have hxle := le_of_dvd_of_lt (d := size₂ y) (hj ▸ hk ▸ hdx) hdy (by omega)
    obtain rfl : y = x := by omega
    exact ⟨hy, hyU, by rw [hj, hk]⟩
  · exfalso
    have hdvd : size₁ x ∣ size₂ y := by
      rw [hj, hk]
      exact Nat.pow_dvd_pow 2 hkj.le
    have hlt : size₁ x < size₂ y := by
      rw [hj, hk]
      exact Nat.pow_lt_pow_right (by omega) hkj
    have hin : x + size₁ x ≤ y + size₂ y := by
      by_contra hover
      have hle := le_of_dvd_of_lt (Nat.dvd_add (hdvd.trans hdy) hdvd) hdx (by omega)
      omega
    obtain ⟨u, hu, v, hv, hpu, hvp, hhalf⟩ := h₁.exists_halves hal₁ hyb.1 (hj ▸ hdy) (hj ▸ hyb.2) hx
      hyx (by omega) (by omega)
    have hout : ∀ w ∈ A₁, y ≤ w → w + size₁ w ≤ y + 2 ^ j → w ∉ U₁ := by
      intro w hw hyw hwy hwU
      have hne : w ≠ y := fun heq ↦ hyU ((hU y).mp (heq ▸ hwU))
      have hd := h₂.disjoint (hU₂ w ((hU w).mp hwU)) hy hne
      have hposw := h₁.pos w hw
      rw [hsize w hwU] at hd
      omega
    have hposu := h₁.pos u hu
    obtain ⟨hs, hv', -⟩ := id hhalf
    exact hno₁ u hu v hv (hout u hu hpu (by omega)) (hout v hv (by omega) hvp) hhalf

end ShellOS.Library.Tiling
