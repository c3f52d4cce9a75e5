import ShellOS.Terminal.ConsoleText
import ShellOS.Userland.Numbers

namespace ShellOS.Terminal.ConsoleNumbers

open Library.Links Library.Numerals Library.Words Userland.Libc Userland.Numbers Function
open Ipc.PipeConsole (Buffer Text)

/-- The kernel's own `uintToBase`, which is that of the C library. -/
def uintToBase (size value : ℕ) (buffer : Buffer) (base : ℕ) : Option (Buffer × ℕ) :=
  Userland.Libc.uintToBase size value buffer base

/-- The kernel's own `itos`, which is that of the C library. -/
def itos (aux : Buffer) (value : ℤ) (target : ℤ → UInt8) (initialIndex : ℤ) :
    Option ((ℤ → UInt8) × ℤ) :=
  Userland.Numbers.itos aux value target initialIndex

/-- The bytes that the loop of `ncPrint` prints, of a string whose NUL is among
`size` bytes. -/
def stringBytes (size : ℕ) (string : Buffer) : Option (List UInt8) :=
  (seek (fun i ↦ string i = 0) (· + 1) size 0).map fun i ↦ (List.range i).map string

/-- What `ncPrintDec` leaves in the static buffer of 64 bytes for `ncPrint`. -/
def decText (aux : Buffer) (buffer : ℤ → UInt8) (value : ℤ) : Option (List UInt8) :=
  (itos aux (i32 value) buffer 0).bind fun r ↦ stringBytes 64 fun i ↦ r.1 i

def ncPrintDec (aux : Buffer) (buffer : ℤ → UInt8) (c : NaiveConsole.Console) (value : ℤ) :
    Option NaiveConsole.Console :=
  (decText aux buffer value).bind (ConsoleText.ncPrint c)

def ncPrintBase (buffer : Buffer) (c : NaiveConsole.Console) (value base : ℕ) :
    Option (Buffer × NaiveConsole.Console) :=
  (uintToBase 64 value buffer base).bind fun r ↦
    (stringBytes 64 r.1).bind fun string ↦ (ConsoleText.ncPrint c string).map fun c ↦ (r.1, c)

def ncPrintHex (buffer : Buffer) (c : NaiveConsole.Console) (value : ℕ) :
    Option (Buffer × NaiveConsole.Console) :=
  ncPrintBase buffer c value 16

def ncPrintBin (buffer : Buffer) (c : NaiveConsole.Console) (value : ℕ) :
    Option (Buffer × NaiveConsole.Console) :=
  ncPrintBase buffer c value 2

def ncPrintReg (buffer : Buffer) (c : NaiveConsole.Console) (regName : List UInt8)
    (regValue : ℕ) : Option (Buffer × NaiveConsole.Console) :=
  (ConsoleText.ncPrint c regName).bind fun c ↦
    (ConsoleText.ncPrint c [0x3A, 0x20]).bind fun c ↦
      (uintToBase 64 regValue buffer 16).bind fun r ↦
        ((List.range' 1 (16 - r.2 - 1)).foldlM (fun c _ ↦ ConsoleText.ncPrint c [0x30]) c).bind
          fun c ↦ (stringBytes 64 r.1).bind fun string ↦
            (ConsoleText.ncPrint c string).bind fun c ↦
              (NaiveConsole.ncNewline c).map fun c ↦ (r.1, c)

variable {aux : Buffer} {buffer target : ℤ → UInt8} {value initialIndex : ℤ}

/-- Both versions of `uintToBase` write the numeral, and `atoi` and `hex2int`
read it back. -/
theorem numbers_round_trip {v : ℕ} (hv : v < 2 ^ 64) :
    (∀ base size buffer, 2 ≤ base → base ≤ 16 → (canonical base v).length < size →
      (v ≠ 0 → (canonical base v).head? ≠ some 48) ∧
      (∃ buffer', Userland.Libc.uintToBase size v buffer base =
          some (buffer', (canonical base v).length) ∧ Text buffer' 0 (canonical base v)) ∧
      ∃ buffer', uintToBase size v buffer base =
          some (buffer', (canonical base v).length) ∧ Text buffer' 0 (canonical base v)) ∧
    (∀ size str ok, Text str 0 (canonical 10 v) → (canonical 10 v).length < size →
      atoi size str ok = some (v, ok)) ∧
    ∀ size hex ok, Text hex 0 (canonical 16 v) → (canonical 16 v).length < size →
      hex2int size hex ok = some (v, ok) := by
  refine ⟨fun base size buffer hlo hhi hsize ↦ ?_, fun size str ok htext hsize ↦ ?_,
    fun size hex ok htext hsize ↦ ?_⟩
  · have hwrites := uintToBase_spec hlo hhi hsize buffer
    exact ⟨head?_canonical hlo hhi, hwrites, hwrites⟩
  · exact atoi_canonical hv htext hsize ok
  · exact hex2int_canonical hv htext hsize ok

theorem numbers_round_trip_ff : canonical 16 255 = [70, 70] ∧
    hex2int 3 (fun i ↦ [70, 70].getD i 0) 1 = some (255, 1) := by
  have hff : canonical 16 255 = [70, 70] := by simp [canonical, numeral, digitChars]
  refine ⟨hff, (numbers_round_trip (by decide : 255 < 2 ^ 64)).2.2 3 _ 1 ?_ ?_⟩
  · rw [hff]
    exact ⟨rfl, by decide, rfl, by decide, rfl⟩
  · rw [hff]
    decide

section Decimal

theorem stringBytes_spec {line : List UInt8} {size : ℕ} {string : Buffer}
    (h : Text string 0 line) (hsize : line.length < size) :
    stringBytes size string = some line :=
  printf_spec h hsize

theorem length_decimalInt_le (hlo : -2 ^ 31 ≤ value) (hhi : value < 2 ^ 31) :
    (decimalInt value).length ≤ 11 := by
  have hdigits : (canonical 10 value.natAbs).length ≤ 10 := by
    rw [length_canonical]
    exact (length_numeral_le_iff (by decide) (by decide)).mpr (by omega)
  rw [length_decimalInt]
  split <;> omega

theorem decText_of_lowest (h : i32 value = -2 ^ 31) : decText aux buffer value = some [45, 40] := by
  unfold decText itos
  rw [h, itos_lowest, Option.bind_some]
  have htext : Text (fun i : ℕ ↦ update (update (update buffer 0 45) (i32 (0 + 1)) 40)
      (i32 (0 + 2)) 0 i) 0 [45, 40] := ⟨rfl, by decide, rfl, by decide, rfl⟩
  apply stringBytes_spec htext
  decide

theorem decText_of_prints (h : i32 value ≠ -2 ^ 31) :
    decText aux buffer value = some (decimalInt (i32 value)) := by
  have hlow : -2 ^ 31 ≤ i32 value := Int.le_bmod (by decide)
  have hhigh : i32 value < 2 ^ 31 := Int.bmod_lt (by decide)
  have hlen := length_decimalInt_le hlow hhigh
  have hint : int32Max = 2 ^ 31 - 1 := rfl
  obtain ⟨target', hitos, htext⟩ := itos_prints aux buffer (lt_of_le_of_ne hlow h.symm)
    (by omega) (by decide : -2 ^ 31 ≤ (0 : ℤ)) (by omega)
  unfold decText itos
  rw [hitos, Option.bind_some]
  simp only [Int.zero_add] at htext
  exact stringBytes_spec htext (by omega)

theorem decText_iff : decText aux buffer value = some (decimalInt value) ↔
    -2 ^ 31 < value ∧ value < 2 ^ 31 := by
  have hhigh : i32 value < 2 ^ 31 := Int.bmod_lt (by decide)
  have hlow : -2 ^ 31 ≤ i32 value := Int.le_bmod (by decide)
  by_cases h : i32 value = -2 ^ 31
  · rw [decText_of_lowest h]
    refine iff_of_false (fun heq ↦ ?_) (fun ⟨hlo, hhi⟩ ↦ ?_)
    · have hdigits := congrArg (List.filter isDigit) (Option.some.inj heq)
      rw [filter_decimalInt] at hdigits
      have hpos := length_numeral_pos 10 value.natAbs
      rw [← length_canonical, ← hdigits] at hpos
      exact absurd hpos (by decide)
    · rw [i32_of_mem (by omega) (Int.lt_add_one_iff.mp hhi)] at h
      omega
  · rw [decText_of_prints h, Option.some.injEq, decimalInt_injective.eq_iff]
    constructor
    · intro heq
      omega
    · intro ⟨hlo, hhi⟩
      exact i32_of_mem (by omega) (Int.lt_add_one_iff.mp hhi)

end Decimal

/-- `itos` prints every value but the lowest, where the index of the NUL is an
`int`, and `ncPrintDec` those of them that are an `int`. -/
theorem decimal_printing_iff (aux : Buffer) (buffer target : ℤ → UInt8) (hlow : -2 ^ 31 ≤ value)
    (hmax : value ≤ int32Max) (hlo : -2 ^ 31 ≤ initialIndex) (hhi : initialIndex ≤ int32Max) :
    (Prints itos aux value target initialIndex ↔
      value ≠ -2 ^ 31 ∧ initialIndex + (decimalInt value).length ≤ int32Max) ∧
    (Prints Userland.Numbers.itos aux value target initialIndex ↔
      value ≠ -2 ^ 31 ∧ initialIndex + (decimalInt value).length ≤ int32Max) ∧
    ∀ v, decText aux buffer v = some (decimalInt v) ↔ -2 ^ 31 < v ∧ v < 2 ^ 31 := by
  have hprints := itos_prints_iff aux target hlow hmax hlo hhi
  exact ⟨hprints, hprints, fun v ↦ decText_iff⟩

theorem decimal_printing_negative :
    Prints itos (fun _ ↦ 0) (-42) (fun _ ↦ 0) 0 ∧
      decText (fun _ ↦ 0) (fun _ ↦ 0) (-42) = some (decimalInt (-42)) := by
  have hlen : (decimalInt (-42)).length = 3 := by
    rw [length_decimalInt, length_canonical]
    simp [numeral]
  obtain ⟨hprints, -, hdec⟩ := decimal_printing_iff (fun _ ↦ 0) (fun _ ↦ 0) (fun _ ↦ 0)
    (by decide : -2 ^ 31 ≤ -42) (by decide) (by decide : -2 ^ 31 ≤ 0) (by decide)
  exact ⟨hprints.mpr ⟨by decide, by rw [hlen]; decide⟩, (hdec (-42)).mpr ⟨by decide, by decide⟩⟩

/-- The lowest value has no numeral of its own, and a value of 64 bits that is
not an `int` has that of another number. -/
theorem lowest_not_printed :
    (¬ ∀ (aux : Buffer) (value : ℤ) (target : ℤ → UInt8) (initialIndex : ℤ), -2 ^ 31 ≤ value →
      value ≤ int32Max → -2 ^ 31 ≤ initialIndex → initialIndex ≤ int32Max →
      Prints itos aux value target initialIndex) ∧
    ¬ ∀ (aux : Buffer) (buffer : ℤ → UInt8) (value : ℤ), -2 ^ 63 ≤ value → value < 2 ^ 63 →
      decText aux buffer value = some (decimalInt value) := by
  constructor
  · intro hall
    exact itos_not_prints_lowest (hall (fun _ ↦ 0) (-2 ^ 31) (fun _ ↦ 0) 0 (by decide) (by decide)
      (by decide) (by decide))
  · intro hall
    have hwide := hall (fun _ ↦ 0) (fun _ ↦ 0) (2 ^ 32 + 42) (by decide) (by decide)
    exact absurd (decText_iff.mp hwide).2 (by decide)

end ShellOS.Terminal.ConsoleNumbers
