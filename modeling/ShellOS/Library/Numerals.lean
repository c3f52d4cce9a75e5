import Mathlib.Data.Nat.Digits.Lemmas

namespace ShellOS.Library.Numerals

/-- The digits of the canonical numeral of a number, the lowest first. -/
def numeral (base value : ℕ) : List ℕ := if value = 0 then [0] else Nat.digits base value

/-- The number that digits stand for, the highest first, behind those of `n`. -/
def readFrom (base n : ℕ) (ds : List ℕ) : ℕ := ds.foldl (fun n d ↦ n * base + d) n

variable {base value d n : ℕ} {ds : List ℕ}

theorem numeral_of_lt (h : value < base) : numeral base value = [value] := by
  unfold numeral
  split
  · rename_i h0
    rw [h0]
  · rename_i hne
    exact Nat.digits_of_lt base value hne h

theorem numeral_step (hbase : 1 < base) (h : value / base ≠ 0) :
    numeral base value = value % base :: numeral base (value / base) := by
  have hpos : 0 < value := Nat.pos_of_ne_zero (fun h0 ↦ h (by rw [h0, Nat.zero_div]))
  rw [numeral, numeral, if_neg h, if_neg hpos.ne', Nat.digits_def' hbase hpos]

theorem lt_of_mem_numeral (hbase : 1 < base) (h : d ∈ numeral base value) : d < base := by
  unfold numeral at h
  split at h
  · rw [List.mem_singleton.mp h]
    exact Nat.zero_lt_of_lt hbase
  · exact Nat.digits_lt_base hbase h

theorem length_numeral_pos (base value : ℕ) : 0 < (numeral base value).length := by
  unfold numeral
  split
  · exact Nat.one_pos
  · rename_i hne
    exact List.length_pos_iff.mpr (Nat.digits_ne_nil_iff_ne_zero.mpr hne)

theorem length_numeral_le_iff (hbase : 1 < base) (hn : 0 < n) :
    (numeral base value).length ≤ n ↔ value < base ^ n := by
  unfold numeral
  split
  · rename_i h0
    rw [h0]
    exact iff_of_true hn (Nat.pow_pos (Nat.zero_lt_of_lt hbase))
  · exact Nat.digits_length_le_iff hbase value

theorem ofDigits_numeral (base value : ℕ) : Nat.ofDigits base (numeral base value) = value := by
  unfold numeral
  split
  · rename_i h0
    rw [h0, Nat.ofDigits_singleton]
  · exact Nat.ofDigits_digits base value

theorem readFrom_reverse (base : ℕ) (ds : List ℕ) :
    readFrom base 0 ds.reverse = Nat.ofDigits base ds := by
  induction ds with
  | nil => rfl
  | cons d ds ih =>
    have hlast : readFrom base 0 (d :: ds).reverse = readFrom base 0 ds.reverse * base + d := by
      rw [List.reverse_cons, readFrom, List.foldl_append]
      rfl
    rw [hlast, ih, Nat.ofDigits_cons, Nat.mul_comm, Nat.add_comm]

theorem readFrom_numeral (base value : ℕ) :
    readFrom base 0 (numeral base value).reverse = value := by
  rw [readFrom_reverse, ofDigits_numeral]

theorem foldl_mod (base m : ℕ) (ds : List ℕ) (n : ℕ) :
    ds.foldl (fun n d ↦ (n * base + d) % m) (n % m) = readFrom base n ds % m := by
  induction ds generalizing n with
  | nil => rfl
  | cons d ds ih =>
    have hstep : (n % m * base + d) % m = (n * base + d) % m := by
      rw [Nat.add_mod, Nat.mod_mul_mod, ← Nat.add_mod]
    rw [List.foldl_cons, hstep, ih]
    rfl

theorem getLast?_numeral (base : ℕ) (h : value ≠ 0) : (numeral base value).getLast? ≠ some 0 := by
  have hne : Nat.digits base value ≠ [] := Nat.digits_ne_nil_iff_ne_zero.mpr h
  rw [numeral, if_neg h, List.getLast?_eq_some_getLast hne]
  exact fun heq ↦ Nat.getLast_digit_ne_zero base h (Option.some.inj heq)

end ShellOS.Library.Numerals
