import ShellOS.Terminal.ConsoleNumbers

namespace ShellOS.Terminal.NumeralBuffers

open Library.Links Library.Numerals Userland.Libc Userland.Numbers ConsoleNumbers Function
open NaiveConsole ConsoleText
open Ipc.PipeConsole (Buffer Text)

/-- The indices that the first loop of `uintToBase` stores at, of which there
is no result when it takes more turns. -/
def digitsStores (base : ℕ) : ℕ → ℕ → ℕ → Option (List ℕ)
  | 0, _, _ => none
  | turns + 1, value, digits =>
    if value / base ≠ 0 then
      (digitsStores base turns (value / base) (digits + 1)).map (digits :: ·)
    else some [digits]

def reverseStores : ℕ → ℕ → ℕ → List ℕ
  | 0, _, _ => []
  | n + 1, p1, p2 => if p1 < p2 then p1 :: p2 :: reverseStores n (p1 + 1) (p2 - 1) else []

/-- The indices of `buffer` that `uintToBase` stores at, in this order. -/
def stores (turns value base : ℕ) : Option (List ℕ) :=
  (digitsStores base turns value 0).map fun first ↦
    first ++ first.length :: reverseStores first.length 0 (first.length - 1)

inductive Call
  | printInt (num : BitVec 32)
  | printReg (regName : List UInt8) (regValue : BitVec 64)
  | ncPrintReg (regName : List UInt8) (regValue : BitVec 64)
  | ncPrintHex (value : BitVec 64)
  | ncPrintBin (value : BitVec 64)

structure Passed where
  size : ℕ
  value : ℕ
  base : ℕ

def passed : Call → Passed
  | .printInt num => ⟨10, num.toNat, 10⟩
  | .printReg _ regValue => ⟨17, regValue.toNat, 16⟩
  | .ncPrintReg _ regValue => ⟨64, regValue.toNat, 16⟩
  | .ncPrintHex value => ⟨64, value.toNat, 16⟩
  | .ncPrintBin value => ⟨64, value.toNat, 2⟩

inductive Output
  | written (bytes : List UInt8)
  | printed (buffer : Buffer) (c : Console)

def perform (buffer : Buffer) (c : Console) : Call → Option Output
  | .printInt num => (printInt num.toNat buffer).map .written
  | .printReg regName regValue => (printReg regName regValue.toNat buffer).map .written
  | .ncPrintReg regName regValue =>
    (ncPrintReg buffer c regName regValue.toNat).map fun r ↦ .printed r.1 r.2
  | .ncPrintHex value => (ncPrintHex buffer c value.toNat).map fun r ↦ .printed r.1 r.2
  | .ncPrintBin value => (ncPrintBin buffer c value.toNat).map fun r ↦ .printed r.1 r.2

/-- `uintToBase` comes to an end, and every byte it stores is in the buffer. -/
def Inside (call : Call) : Prop :=
  ∃ indices, (∀ turns, 64 ≤ turns → stores turns (passed call).value (passed call).base =
      some indices) ∧
    ∀ i ∈ indices, i < (passed call).size

def Fits : Call → Prop
  | .printInt num => num.toNat < 10 ^ 9
  | .ncPrintBin value => value.toNat < 2 ^ 63
  | _ => True

variable {base value size turns i j n p q : ℕ} {buffer buffer' : Buffer} {call : Call}
  {video : ℕ → UInt8} {c : Console} {regName : List UInt8} {indices : List ℕ}

section Stores

theorem digitsStores_spec (hbase : 1 < base) (hturns : (numeral base value).length ≤ turns) :
    digitsStores base turns value i = some (List.range' i (numeral base value).length) := by
  induction turns generalizing value i with
  | zero => exact absurd (length_numeral_pos base value) (Nat.not_lt.mpr hturns)
  | succ turns ih =>
    rw [digitsStores]
    by_cases hlast : value / base = 0
    · have hlt : value < base := (Nat.div_eq_zero_iff_lt (Nat.zero_lt_of_lt hbase)).mp hlast
      rw [if_neg (not_not.mpr hlast), numeral_of_lt hlt]
      rfl
    · rw [numeral_step hbase hlast, List.length_cons] at hturns ⊢
      rw [if_pos hlast, ih (Nat.le_of_succ_le_succ hturns)]
      rfl

theorem le_of_mem_reverseStores (h : i ∈ reverseStores n p q) : i ≤ q := by
  induction n generalizing p q with
  | zero => cases h
  | succ n ih =>
    rw [reverseStores] at h
    split at h
    · rcases List.mem_cons.mp h with rfl | h
      · omega
      rcases List.mem_cons.mp h with rfl | h
      · exact Nat.le_refl _
      · have hle := ih h
        omega
    · cases h

theorem stores_spec (hbase : 1 < base) (value : ℕ) :
    ∃ indices, (∀ turns, (numeral base value).length ≤ turns →
        stores turns value base = some indices) ∧
      ∀ i, i ∈ indices ↔ i ≤ (numeral base value).length := by
  have hpos := length_numeral_pos base value
  let length := (numeral base value).length
  refine ⟨List.range' 0 length ++ length :: reverseStores length 0 (length - 1),
    fun turns hturns ↦ ?_, fun i ↦ ⟨fun hi ↦ ?_, fun hle ↦ ?_⟩⟩
  · rw [stores, digitsStores_spec hbase hturns, Option.map_some, List.length_range']
  · rcases List.mem_append.mp hi with hi | hi
    · have hlast := (List.mem_range'_1.mp hi).2
      omega
    rcases List.mem_cons.mp hi with rfl | hi
    · exact Nat.le_refl _
    · have hswap := le_of_mem_reverseStores hi
      omega
  · rcases Nat.lt_or_eq_of_le hle with hlt | rfl
    · exact List.mem_append_left _ (List.mem_range'_1.mpr ⟨Nat.zero_le i, by omega⟩)
    · exact List.mem_append_right _ List.mem_cons_self

end Stores

section Lines

def regLine (regName : List UInt8) (regValue : ℕ) : List UInt8 :=
  regName ++ [0x3A, 0x20] ++ List.replicate (15 - (canonical 16 regValue).length) 0x30 ++
    canonical 16 regValue

theorem length_canonical_lt_iff (hbase : 1 < base) (hn : 0 < n) :
    (canonical base value).length < n + 1 ↔ value < base ^ n := by
  rw [length_canonical, Nat.lt_succ_iff]
  exact length_numeral_le_iff hbase hn

theorem length_hex_lt (h : value < 2 ^ 64) : (canonical 16 value).length < 17 :=
  (length_canonical_lt_iff (by decide : 1 < 16) (by decide : 0 < 16)).mpr h

theorem zeros_eq (n : ℕ) :
    (List.range' 1 (16 - n - 1)).map (fun _ ↦ (0x30 : UInt8)) = List.replicate (15 - n) 0x30 := by
  rw [List.map_const', List.length_range', Nat.sub_right_comm]

theorem printReg_spec (h : value < 2 ^ 64) (regName : List UInt8) (buffer : Buffer) :
    printReg regName value buffer = some (regLine regName value ++ [10]) := by
  have hsize := length_hex_lt h
  obtain ⟨buffer', hsome, htext⟩ := uintToBase_spec (by decide) (Nat.le_refl 16) hsize buffer
  rw [printReg, hsome, Option.bind_some, printf_spec htext hsize, Option.map_some, zeros_eq]
  rfl

theorem ncPrint_append (c : Console) (s t : List UInt8) :
    ncPrint c (s ++ t) = (ncPrint c s).bind fun c ↦ ncPrint c t :=
  List.foldlM_append

theorem ncPrint_singleton (c : Console) (b : UInt8) : ncPrint c [b] = ncPrintChar c b := by
  rw [ncPrint, List.foldlM_cons]
  exact bind_pure _

theorem ncPrint_zeros (c : Console) (n : ℕ) :
    (List.range' 1 (16 - n - 1)).foldlM (fun c _ ↦ ncPrint c [0x30]) c =
      ncPrint c (List.replicate (15 - n) 0x30) := by
  rw [← zeros_eq, ncPrint, List.foldlM_map]
  simp only [ncPrint_singleton]

theorem ncPrintReg_spec (h : value < 2 ^ 64) (hc : Within video c) (regName : List UInt8)
    (buffer : Buffer) :
    ∃ buffer' c', ncPrintReg buffer c regName value = some (buffer', c') ∧
      ncPrint c (regLine regName value ++ [10]) = some c' := by
  have hroom : (canonical 16 value).length < 64 := Nat.lt_trans (length_hex_lt h) (by decide)
  obtain ⟨buffer', hsome, htext⟩ := uintToBase_spec (by decide) (Nat.le_refl 16) hroom buffer
  obtain ⟨c₁, hname, h₁⟩ := hc.print regName
  obtain ⟨c₂, hcolon, h₂⟩ := h₁.print [0x3A, 0x20]
  obtain ⟨c₃, hzeros, h₃⟩ := h₂.print (List.replicate (15 - (canonical 16 value).length) 0x30)
  obtain ⟨c₄, hdigits, h₄⟩ := h₃.print (canonical 16 value)
  obtain ⟨c₅, hnewline, -⟩ := h₄.newline
  have hend : ncPrint c₄ [10] = some c₅ := by
    rw [ncPrint_singleton, ncPrintChar, if_pos rfl, ncNewline_scrollDown h₄.le, hnewline]
  refine ⟨buffer', c₅, ?_, ?_⟩
  · have hkernel : ConsoleNumbers.uintToBase 64 value buffer 16 =
        some (buffer', (canonical 16 value).length) := hsome
    rw [ncPrintReg, hname, Option.bind_some, hcolon, Option.bind_some, hkernel, Option.bind_some,
      ncPrint_zeros, hzeros, Option.bind_some, stringBytes_spec htext hroom, Option.bind_some,
      hdigits, Option.bind_some, hnewline, Option.map_some]
  · rw [regLine, ncPrint_append, ncPrint_append, ncPrint_append, ncPrint_append, hname,
      Option.bind_some, hcolon, Option.bind_some, hzeros, Option.bind_some, hdigits,
      Option.bind_some, hend]

theorem ncPrintBase_cases (hlo : 2 ≤ base) (hhi : base ≤ 16) (hc : Within video c) (value : ℕ)
    (buffer : Buffer) :
    (64 ≤ (canonical base value).length ∧ ncPrintBase buffer c value base = none) ∨
      (canonical base value).length < 64 ∧ ∃ buffer' c',
        ncPrintBase buffer c value base = some (buffer', c') ∧
          ncPrint c (canonical base value) = some c' := by
  by_cases hroom : (canonical base value).length < 64
  · obtain ⟨buffer', hsome, htext⟩ := uintToBase_spec hlo hhi hroom buffer
    have hkernel : ConsoleNumbers.uintToBase 64 value buffer base =
      some (buffer', (canonical base value).length) := hsome
    obtain ⟨c', hprint, -⟩ := hc.print (canonical base value)
    refine Or.inr ⟨hroom, buffer', c', ?_, hprint⟩
    rw [ncPrintBase, hkernel, Option.bind_some, stringBytes_spec htext hroom, Option.bind_some,
      hprint, Option.map_some]
  · refine Or.inl ⟨Nat.not_lt.mp hroom, ?_⟩
    rw [length_canonical] at hroom
    have hnone : ConsoleNumbers.uintToBase 64 value buffer base = none :=
      ((uintToBase_cases hlo 64 value buffer).resolve_right (fun h ↦ hroom h.1)).2
    rw [ncPrintBase, hnone]
    rfl

end Lines

section Calls

theorem passed_base (call : Call) : 1 < (passed call).base := by cases call <;> simp [passed]

theorem passed_value (call : Call) : (passed call).value < 2 ^ 64 := by
  cases call with
  | printInt num => exact Nat.lt_trans num.isLt (by decide)
  | printReg _ regValue => exact regValue.isLt
  | ncPrintReg _ regValue => exact regValue.isLt
  | ncPrintHex value => exact value.isLt
  | ncPrintBin value => exact value.isLt

theorem length_passed_le (call : Call) :
    (numeral (passed call).base (passed call).value).length ≤ 64 := by
  have hbase := passed_base call
  refine (length_numeral_le_iff hbase (by decide)).mpr ?_
  exact Nat.lt_of_lt_of_le (passed_value call) (Nat.pow_le_pow_left hbase 64)

theorem inside_iff (call : Call) : Inside call ↔
    (canonical (passed call).base (passed call).value).length < (passed call).size := by
  obtain ⟨indices, hstores, hmem⟩ := stores_spec (passed_base call) (passed call).value
  have hlength := length_passed_le call
  rw [length_canonical]
  constructor
  · intro ⟨indices', hstores', hall⟩
    obtain rfl : indices' = indices :=
      Option.some.inj ((hstores' 64 (Nat.le_refl 64)).symm.trans (hstores 64 hlength))
    exact hall _ ((hmem _).mpr (Nat.le_refl _))
  · intro hlt
    refine ⟨indices, fun turns hturns ↦ hstores turns (Nat.le_trans hlength hturns), fun i hi ↦ ?_⟩
    exact Nat.lt_of_le_of_lt ((hmem i).mp hi) hlt

theorem fits_iff (call : Call) :
    (canonical (passed call).base (passed call).value).length < (passed call).size ↔
      Fits call := by
  cases call with
  | printInt num => exact length_canonical_lt_iff (by decide : 1 < 10) (by decide : 0 < 9)
  | printReg _ regValue => exact iff_true_intro (length_hex_lt regValue.isLt)
  | ncPrintReg _ regValue =>
    exact iff_true_intro (Nat.lt_trans (length_hex_lt regValue.isLt) (by decide : 17 < 64))
  | ncPrintHex value =>
    exact iff_true_intro (Nat.lt_trans (length_hex_lt value.isLt) (by decide : 17 < 64))
  | ncPrintBin value => exact length_canonical_lt_iff (by decide : 1 < 2) (by decide : 0 < 63)

theorem ncPrintBase_iff (hlo : 2 ≤ base) (hhi : base ≤ 16) (hc : Within video c) (value : ℕ)
    (buffer : Buffer) : (∃ out, (ncPrintBase buffer c value base).map
        (fun r ↦ Output.printed r.1 r.2) = some out) ↔ (canonical base value).length < 64 := by
  rcases ncPrintBase_cases hlo hhi hc value buffer with
    ⟨hfull, hnone⟩ | ⟨hroom, buffer', c', hsome, -⟩
  · rw [hnone]
    exact iff_of_false nofun (Nat.not_lt.mpr hfull)
  · rw [hsome]
    exact iff_of_true ⟨_, rfl⟩ hroom

theorem perform_iff (hc : Within video c) (buffer : Buffer) (call : Call) :
    (∃ out, perform buffer c call = some out) ↔ Fits call := by
  cases call with
  | printInt num =>
    rw [perform, printInt_spec, Fits]
    split
    · rename_i hfits
      exact iff_of_true ⟨_, rfl⟩ hfits
    · rename_i hfits
      exact iff_of_false nofun hfits
  | printReg regName regValue =>
    rw [perform, printReg_spec regValue.isLt]
    exact iff_true_intro ⟨_, rfl⟩
  | ncPrintReg regName regValue =>
    obtain ⟨buffer', c', hsome, -⟩ := ncPrintReg_spec regValue.isLt hc regName buffer
    rw [perform, hsome]
    exact iff_true_intro ⟨_, rfl⟩
  | ncPrintHex value =>
    rw [← fits_iff]
    exact ncPrintBase_iff (by decide) (by decide) hc value.toNat buffer
  | ncPrintBin value =>
    rw [← fits_iff]
    exact ncPrintBase_iff (by decide) (by decide) hc value.toNat buffer

/-- `uintToBase` stays in the buffer of its caller exactly if `printInt` gets at
most nine digits and `ncPrintBin` at most 63, and only then is there something
printed. -/
theorem numeral_buffers_iff (hc : Within video c) (buffer : Buffer) (call : Call) :
    (Inside call ↔ Fits call) ∧ ((∃ out, perform buffer c call = some out) ↔ Inside call) := by
  have hinside : Inside call ↔ Fits call := (inside_iff call).trans (fits_iff call)
  exact ⟨hinside, (perform_iff hc buffer call).trans hinside.symm⟩

theorem numeral_buffers_nine_digits : Inside (.printInt 999999999) ∧
    ∃ out, perform (fun _ ↦ 0) (boot fun _ ↦ 0) (.printInt 999999999) = some out := by
  have hfits : Fits (.printInt 999999999) := (by decide : (999999999#32).toNat < 10 ^ 9)
  obtain ⟨hinside, hout⟩ :=
    numeral_buffers_iff (within_boot fun _ ↦ 0) (fun _ ↦ 0) (.printInt 999999999)
  exact ⟨hinside.mpr hfits, hout.mpr (hinside.mpr hfits)⟩

/-- The NUL of ten decimal digits, and that of 64 binary ones, is not stored in
the buffer. -/
theorem nul_outside :
    ¬ Inside (.printInt 4294967295) ∧ ¬ Inside (.ncPrintBin 0x8000000000000000) := by
  have hint : ¬ Fits (.printInt 4294967295) := (by decide : ¬ (4294967295#32).toNat < 10 ^ 9)
  have hbin : ¬ Fits (.ncPrintBin 0x8000000000000000) :=
    (by decide : ¬ (0x8000000000000000#64).toNat < 2 ^ 63)
  exact ⟨fun h ↦ hint ((fits_iff _).mp ((inside_iff _).mp h)),
    fun h ↦ hbin ((fits_iff _).mp ((inside_iff _).mp h))⟩

end Calls

end ShellOS.Terminal.NumeralBuffers
