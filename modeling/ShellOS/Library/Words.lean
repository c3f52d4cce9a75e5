import Mathlib.Tactic.NormNum

namespace ShellOS.Library.Words

/-- A number as the 32-bit unsigned type stores it. -/
def u32 (n : ℕ) : ℕ := n % 2 ^ 32

def u32Sub (a b : ℕ) : ℕ := u32 (a + 2 ^ 32 - b)

def u64 (n : ℕ) : ℕ := n % 2 ^ 64

/-- An integer as the 32-bit signed type stores it. -/
def i32 (n : ℤ) : ℤ := n.bmod (2 ^ 32)

def int32Max : ℤ := 2 ^ 31 - 1

theorem i32_of_mem {n : ℤ} (hlo : -2 ^ 31 ≤ n) (hhi : n ≤ int32Max) : i32 n = n := by
  unfold int32Max at hhi
  exact Int.bmod_eq_of_le (by omega) (by omega)

theorem u64_of_lt {n : ℕ} (h : n < 2 ^ 64) : u64 n = n := Nat.mod_eq_of_lt h

theorem u32_of_lt {n : ℕ} (h : n < 2 ^ 32) : u32 n = n := Nat.mod_eq_of_lt h

theorem u32_lt (n : ℕ) : u32 n < 2 ^ 32 := Nat.mod_lt _ (by decide)

theorem u32Sub_of_le {a b : ℕ} (h : b ≤ a) (ha : a < 2 ^ 32) : u32Sub a b = a - b := by
  unfold u32Sub u32
  omega

end ShellOS.Library.Words
