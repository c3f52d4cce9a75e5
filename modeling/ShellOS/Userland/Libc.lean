import ShellOS.Ipc.PipeConsole
import ShellOS.Library.Links
import ShellOS.Library.Numerals

namespace ShellOS.Userland.Libc

open Library.Links Library.Numerals Function
open Ipc.PipeConsole (Buffer Text)

/-- `sys_write(buf, count)` to the console: the bytes that are put out. -/
def sysWrite (buf : Buffer) (count : ℕ) : List UInt8 := (List.range count).map buf

/-- There is no result when no NUL is among the `size` bytes of `str`. -/
def strlen (size : ℕ) (str : Buffer) : Option ℕ := seek (fun len ↦ str len = 0) (· + 1) size 0

def printf (size : ℕ) (str : Buffer) : Option (List UInt8) := (strlen size str).map (sysWrite str)

def putChar (c : UInt8) : List UInt8 := sysWrite (fun _ ↦ c) 1

def digit (remainder : ℕ) : UInt8 :=
  UInt8.ofNat (if remainder < 10 then remainder + 48 else remainder + 65 - 10)

def digitsLoop (base : ℕ) : ℕ → ℕ → Buffer → ℕ → Option (Buffer × ℕ)
  | 0, _, _, _ => none
  | room + 1, value, buffer, digits =>
    let buffer := update buffer digits (digit (value % base))
    if value / base ≠ 0 then digitsLoop base room (value / base) buffer (digits + 1)
    else some (buffer, digits + 1)

def swap (buffer : Buffer) (p1 p2 : ℕ) : Buffer :=
  update (update buffer p1 (buffer p2)) p2 (buffer p1)

def reverseLoop : ℕ → Buffer → ℕ → ℕ → Buffer
  | 0, buffer, _, _ => buffer
  | n + 1, buffer, p1, p2 =>
    if p1 < p2 then reverseLoop n (swap buffer p1 p2) (p1 + 1) (p2 - 1) else buffer

/-- There is no result when a store is not in the `size` bytes of `buffer`. -/
def uintToBase (size value : ℕ) (buffer : Buffer) (base : ℕ) : Option (Buffer × ℕ) :=
  (digitsLoop base size value buffer 0).bind fun r ↦
    if r.2 < size then some (reverseLoop r.2 (update r.1 r.2 0) 0 (r.2 - 1), r.2) else none

def printInt (num : ℕ) (buffer : Buffer) : Option (List UInt8) :=
  (uintToBase 10 num buffer 10).map fun r ↦ sysWrite r.1 r.2

/-- `printReg`, of a name that is its bytes up to the NUL. The digits come
behind zeros, which are printed one by one. -/
def printReg (regName : List UInt8) (regValue : ℕ) (buffer : Buffer) : Option (List UInt8) :=
  (uintToBase 17 regValue buffer 16).bind fun r ↦
    (printf 17 r.1).map fun string ↦
      regName ++ [0x3A, 0x20] ++ (List.range' 1 (16 - r.2 - 1)).map (fun _ ↦ 0x30) ++ string ++
        putChar 10

def decimal (num : ℕ) : List UInt8 := ((numeral 10 num).map digit).reverse

variable {buffer : Buffer} {base value room i n p q j : ℕ} {c : UInt8}

theorem sysWrite_update_last : sysWrite (update buffer i c) (i + 1) = sysWrite buffer i ++ [c] := by
  unfold sysWrite
  rw [List.range_succ, List.map_append, List.map_singleton, update_self]
  congr 1
  apply List.map_congr_left
  intro j hj
  exact update_of_ne (Nat.ne_of_lt (List.mem_range.mp hj)) _ _

theorem sysWrite_update_of_le (h : n ≤ i) : sysWrite (update buffer i c) n = sysWrite buffer n := by
  apply List.map_congr_left
  intro j hj
  exact update_of_ne (Nat.ne_of_lt (Nat.lt_of_lt_of_le (List.mem_range.mp hj) h)) _ _

/-- What the kernel's `write` puts out when there is no pipe. -/
theorem sysWrite_eq (k : Ipc.Pipes.Kernel) :
    (Ipc.PipeConsole.write k none buffer n).put = sysWrite buffer n := rfl

theorem text_eq {line : List UInt8} (h : Text buffer i line) :
    (List.range line.length).map (fun j ↦ buffer (i + j)) = line := by
  induction line generalizing i with
  | nil => rfl
  | cons c line ih =>
    obtain ⟨hc, -, hrest⟩ := h
    have hrest' := ih hrest
    rw [List.length_cons, List.range_succ_eq_map, List.map_cons, List.map_map, Nat.add_zero, hc]
    congr 1
    refine Eq.trans ?_ hrest'
    apply List.map_congr_left
    intro j _
    rw [comp_apply, Nat.succ_eq_add_one, Nat.add_comm j, Nat.add_assoc]

theorem seek_nul {line : List UInt8} (h : Text buffer i line) (hn : line.length < n) :
    seek (fun len ↦ buffer len = 0) (· + 1) n i = some (i + line.length) := by
  induction line generalizing i n with
  | nil =>
    obtain ⟨n, rfl⟩ := exists_succ hn
    have hnul : buffer i = 0 := h
    simp [seek, hnul]
  | cons c line ih =>
    obtain ⟨hc, hne, hrest⟩ := h
    obtain ⟨n, rfl⟩ := exists_succ hn
    have hnul : buffer i ≠ 0 := by rwa [hc]
    rw [seek, if_neg (by simpa using hnul), ih hrest (Nat.lt_of_succ_lt_succ hn), List.length_cons,
      Nat.add_assoc, Nat.add_comm 1]

theorem printf_spec {line : List UInt8} {size : ℕ} (h : Text buffer 0 line)
    (hsize : line.length < size) : printf size buffer = some line := by
  have htext := text_eq h
  simp only [Nat.zero_add] at htext
  rw [printf, strlen, seek_nul h hsize, Option.map_some, Nat.zero_add, sysWrite, htext]

theorem digitsLoop_spec (hbase : 1 < base) (room value : ℕ) (buffer : Buffer) (i : ℕ) :
    (room < (numeral base value).length ∧ digitsLoop base room value buffer i = none) ∨
      (numeral base value).length ≤ room ∧
        ∃ buffer', digitsLoop base room value buffer i =
            some (buffer', i + (numeral base value).length) ∧
          sysWrite buffer' (i + (numeral base value).length) =
            sysWrite buffer i ++ (numeral base value).map digit := by
  induction room generalizing value buffer i with
  | zero => exact Or.inl ⟨length_numeral_pos base value, rfl⟩
  | succ room ih =>
    have hstored : sysWrite (update buffer i (digit (value % base))) (i + 1) =
        sysWrite buffer i ++ [digit (value % base)] := sysWrite_update_last
    by_cases hlast : value / base = 0
    · have hlt : value < base := (Nat.div_eq_zero_iff_lt (Nat.zero_lt_of_lt hbase)).mp hlast
      rw [numeral_of_lt hlt]
      refine Or.inr ⟨Nat.succ_le_succ (Nat.zero_le room),
        update buffer i (digit (value % base)), ?_, ?_⟩
      · simp only [digitsLoop, hlast, ne_eq, not_true_eq_false, if_false, List.length_singleton]
      · rw [List.length_singleton, hstored, Nat.mod_eq_of_lt hlt, List.map_singleton]
    · rw [numeral_step hbase hlast, List.length_cons, digitsLoop]
      simp only [ne_eq, hlast, not_false_eq_true, if_true]
      rcases ih (value / base) (update buffer i (digit (value % base))) (i + 1) with
        ⟨hroom, hloop⟩ | ⟨hroom, buffer', hloop, hbuffer⟩
      · exact Or.inl ⟨Nat.succ_lt_succ hroom, hloop⟩
      · refine Or.inr ⟨Nat.succ_le_succ hroom, buffer', ?_, ?_⟩
        · rw [hloop, Nat.add_assoc, Nat.add_comm 1]
        · rw [Nat.add_comm _ 1, ← Nat.add_assoc, hbuffer, hstored, List.append_assoc]
          rfl

theorem reverseLoop_apply (hn : q ≤ p + 2 * n) :
    reverseLoop n buffer p q j = if p ≤ j ∧ j ≤ q then buffer (p + q - j) else buffer j := by
  induction n generalizing buffer p q with
  | zero =>
    rw [reverseLoop]
    split
    · have hj : p + q - j = j := by omega
      rw [hj]
    · rfl
  | succ n ih =>
    rw [reverseLoop]
    by_cases hpq : p < q
    · rw [if_pos hpq, ih (by omega)]
      by_cases hp : j = p
      · have hq : p + q - p = q := by omega
        rw [if_neg (by omega), if_pos (by omega), hp, hq]
        rw [swap, update_of_ne (by omega), update_self]
      · by_cases hq : j = q
        · have hp : p + q - q = p := by omega
          rw [if_neg (by omega), if_pos (by omega), hq, hp, swap, update_self]
        · by_cases hin : p ≤ j ∧ j ≤ q
          · have hj : p + 1 + (q - 1) - j = p + q - j := by omega
            rw [if_pos (by omega), if_pos hin, hj, swap, update_of_ne (by omega),
              update_of_ne (by omega)]
          · rw [if_neg (by omega), if_neg hin, swap, update_of_ne hq, update_of_ne hp]
    · rw [if_neg hpq]
      split
      · have hj : p + q - j = j := by omega
        rw [hj]
      · rfl

theorem sysWrite_reverseLoop (hn : 0 < n) :
    sysWrite (reverseLoop n buffer 0 (n - 1)) n = (sysWrite buffer n).reverse := by
  apply List.ext_getElem
  · simp [sysWrite]
  · intro j hj _
    have hlt : j < n := by simpa [sysWrite] using hj
    have hindex : 0 + (n - 1) - j = n - 1 - j := by omega
    simp only [sysWrite, List.getElem_map, List.getElem_range, List.getElem_reverse,
      List.length_map, List.length_range]
    rw [reverseLoop_apply (by omega), if_pos (by omega), hindex]

theorem uintToBase_cases (hbase : 1 < base) (size value : ℕ) (buffer : Buffer) :
    (size ≤ (numeral base value).length ∧ uintToBase size value buffer base = none) ∨
      (numeral base value).length < size ∧
        ∃ buffer', uintToBase size value buffer base =
            some (buffer', (numeral base value).length) ∧
          sysWrite buffer' (numeral base value).length =
            ((numeral base value).map digit).reverse ∧
          buffer' (numeral base value).length = 0 := by
  have hpos := length_numeral_pos base value
  rcases digitsLoop_spec hbase size value buffer 0 with
    ⟨hroom, hloop⟩ | ⟨-, buffer', hloop, hbuffer⟩
  · refine Or.inl ⟨Nat.le_of_lt hroom, ?_⟩
    rw [uintToBase, hloop]
    rfl
  · rw [Nat.zero_add] at hloop hbuffer
    have hwritten : sysWrite buffer' (numeral base value).length =
        (numeral base value).map digit := hbuffer
    by_cases hfits : (numeral base value).length < size
    · refine Or.inr ⟨hfits, reverseLoop (numeral base value).length
        (update buffer' (numeral base value).length 0) 0 ((numeral base value).length - 1),
        ?_, ?_, ?_⟩
      · rw [uintToBase, hloop, Option.bind_some, if_pos hfits]
      · rw [sysWrite_reverseLoop hpos, sysWrite_update_of_le le_rfl, hwritten]
      · rw [reverseLoop_apply (by omega), if_neg (by omega)]
        exact update_self _ _ _
    · refine Or.inl ⟨Nat.not_lt.mp hfits, ?_⟩
      rw [uintToBase, hloop, Option.bind_some, if_neg hfits]

theorem printInt_spec {num : ℕ} :
    printInt num buffer = if num < 10 ^ 9 then some (decimal num) else none := by
  have hlen : num < 10 ^ 9 ↔ (numeral 10 num).length ≤ 9 :=
    (length_numeral_le_iff (by decide) (by decide)).symm
  unfold printInt
  rcases uintToBase_cases (by decide : 1 < 10) 10 num buffer with
    ⟨hfull, hnone⟩ | ⟨hfits, buffer', hsome, hwritten, -⟩
  · rw [hnone, if_neg (by rw [hlen]; omega)]
    rfl
  · rw [hsome, if_pos (hlen.mpr (Nat.le_of_lt_succ hfits)), Option.map_some, hwritten]
    rfl

theorem numeral_of_decimal (num : ℕ) :
    (decimal num).reverse.map (fun c ↦ c.toNat - 48) = numeral 10 num := by
  have hdigit : ∀ d ∈ numeral 10 num, ((fun c : UInt8 ↦ c.toNat - 48) ∘ digit) d = id d := by
    intro d hd
    have hlt := lt_of_mem_numeral (by decide) hd
    rw [comp_apply, digit, if_pos hlt, UInt8.toNat_ofNat', id]
    omega
  rw [decimal, List.reverse_reverse, List.map_map, List.map_congr_left hdigit, List.map_id]

theorem decimal_injective : Injective decimal := by
  intro m n h
  have hnumeral : numeral 10 m = numeral 10 n := by
    rw [← numeral_of_decimal, h, numeral_of_decimal]
  rw [← ofDigits_numeral 10 m, hnumeral, ofDigits_numeral]

end ShellOS.Userland.Libc
