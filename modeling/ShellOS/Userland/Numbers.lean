import ShellOS.Library.Words
import ShellOS.Userland.Strings

namespace ShellOS.Userland.Numbers

open Library.Links Library.Numerals Library.Words Libc Strings Function
open Ipc.PipeConsole (Buffer Text)

/-- The loop over `str` of both parsers, from byte `i` on. There is no result
when it does not end within so many bytes, and none in that when a byte is not
accepted. -/
def scanLoop (accept : UInt8 → Bool) (next : ℕ → UInt8 → ℕ) (str : Buffer) :
    ℕ → ℕ → ℕ → Option (Option ℕ)
  | 0, _, _ => none
  | room + 1, i, num =>
    if str i = 0 then some (some num)
    else if accept (str i) then scanLoop accept next str room (i + 1) (next num (str i))
    else some none

def isDigit (c : UInt8) : Bool := 48 ≤ c ∧ c ≤ 57

def isHexDigit (c : UInt8) : Bool := isDigit c ∨ 97 ≤ c ∧ c ≤ 102 ∨ 65 ≤ c ∧ c ≤ 70

/-- `ok` is what it points to, if it is not NULL. The result comes with what is
stored there. -/
def atoi (size : ℕ) (str : Buffer) (ok : Option ℤ) : Option (ℕ × Option ℤ) :=
  (scanLoop isDigit (fun num c ↦ u64 (num * 10 + c.toNat - 48)) str size 0 0).map fun
    | some num => (num, ok)
    | none => (0, ok.map fun _ ↦ 0)

def hexValue (byte : UInt8) : UInt8 :=
  if byte ≤ 57 then byte - 48
  else if byte ≥ 97 then byte - 97 + 10
  else if byte ≥ 65 ∧ byte ≤ 70 then byte - 65 + 10
  else byte

def hex2int (size : ℕ) (hex : Buffer) (ok : ℤ) : Option (ℕ × ℤ) :=
  (scanLoop isHexDigit (fun val c ↦ u64 (val <<< 4) ||| (hexValue c &&& 0xF).toNat) hex size 0 0).map
    fun
    | some val => (val, ok)
    | none => (0, 0)

def digitChars : List UInt8 :=
  ['0', '1', '2', '3', '4', '5', '6', '7', '8', '9', 'A', 'B', 'C', 'D', 'E', 'F'].map
    fun c ↦ UInt8.ofNat c.toNat

/-- The loop of `itos` over the digits, with room for so many more in `aux`. It
leaves the index of the last one. -/
def auxLoop : ℕ → ℤ → Buffer → ℕ → Option (Buffer × ℕ)
  | 0, _, _, _ => none
  | room + 1, value, aux, i =>
    let aux := update aux i (UInt8.ofInt (value.tmod 10 + 48))
    if value.tdiv 10 > 0 then auxLoop room (value.tdiv 10) aux (i + 1) else some (aux, i)

/-- `target[j++] = aux[i--]`, so many times. -/
def copyLoop (aux : Buffer) : ℕ → (ℤ → UInt8) → ℤ → (ℤ → UInt8) × ℤ
  | 0, target, j => (target, j)
  | i + 1, target, j => copyLoop aux i (update target j (aux i)) (i32 (j + 1))

/-- `aux` is what the array holds before. There is no result when a store is
not in its 11 bytes. -/
def itos (aux : Buffer) (value : ℤ) (target : ℤ → UInt8) (initialIndex : ℤ) :
    Option ((ℤ → UInt8) × ℤ) :=
  (auxLoop 11 (if value < 0 then i32 (value * -1) else value) aux 0).map fun r ↦
    let signed :=
      if value < 0 then (update target initialIndex 45, i32 (initialIndex + 1))
      else (target, initialIndex)
    let copied := copyLoop r.1 (r.2 + 1) signed.1 signed.2
    (update copied.1 copied.2 0, copied.2)

/-- The numeral of a number, as text: the highest digit first. -/
def canonical (base value : ℕ) : List UInt8 :=
  ((numeral base value).map fun d ↦ digitChars.getD d 0).reverse

def number (line : List UInt8) : ℕ := readFrom 10 0 (line.map fun c ↦ c.toNat - 48)

def decimalInt (value : ℤ) : List UInt8 :=
  (if value < 0 then [45] else []) ++ canonical 10 value.natAbs

variable {buffer str : Buffer} {base value size room i num : ℕ} {line : List UInt8}
  {accept : UInt8 → Bool} {next : ℕ → UInt8 → ℕ}

section Writing

theorem digit_eq : ∀ d < 16, digit d = digitChars.getD d 0 := by decide

theorem digit_ne_zero : ∀ d < 16, digit d ≠ 0 := by decide

theorem lt_of_mem (hlo : 2 ≤ base) (hhi : base ≤ 16) {d : ℕ} (hd : d ∈ numeral base value) :
    d < 16 :=
  Nat.lt_of_lt_of_le (lt_of_mem_numeral hlo hd) hhi

theorem canonical_eq (hlo : 2 ≤ base) (hhi : base ≤ 16) (value : ℕ) :
    canonical base value = ((numeral base value).map digit).reverse := by
  have hmap : (numeral base value).map digit =
      (numeral base value).map fun d ↦ digitChars.getD d 0 :=
    List.map_congr_left fun d hd ↦ digit_eq d (lt_of_mem hlo hhi hd)
  rw [hmap, canonical]

theorem length_canonical (base value : ℕ) :
    (canonical base value).length = (numeral base value).length := by
  rw [canonical, List.length_reverse, List.length_map]

theorem canonical_ne_zero (hlo : 2 ≤ base) (hhi : base ≤ 16) {c : UInt8}
    (hc : c ∈ canonical base value) : c ≠ 0 := by
  rw [canonical_eq hlo hhi, List.mem_reverse] at hc
  obtain ⟨d, hd, rfl⟩ := List.mem_map.mp hc
  exact digit_ne_zero d (lt_of_mem hlo hhi hd)

theorem head?_canonical (hlo : 2 ≤ base) (hhi : base ≤ 16) (hvalue : value ≠ 0) :
    (canonical base value).head? ≠ some (digit 0) := by
  have hlast := getLast?_numeral base hvalue
  have hinj : ∀ d < 16, digit d = digit 0 → d = 0 := by decide
  rw [canonical_eq hlo hhi, List.head?_reverse, List.getLast?_map]
  intro heq
  obtain ⟨d, hd, hdigit⟩ := Option.map_eq_some_iff.mp heq
  rw [hinj d (lt_of_mem hlo hhi (List.mem_of_getLast? hd)) hdigit] at hd
  exact hlast hd

theorem uintToBase_spec (hlo : 2 ≤ base) (hhi : base ≤ 16)
    (hsize : (canonical base value).length < size) (buffer : Buffer) :
    ∃ buffer', uintToBase size value buffer base =
        some (buffer', (canonical base value).length) ∧
      Text buffer' 0 (canonical base value) := by
  have hlen := length_canonical base value
  rcases uintToBase_cases hlo size value buffer with
    ⟨hfull, -⟩ | ⟨-, buffer', hsome, hwritten, hnul⟩
  · exact absurd (hlen ▸ hsize) (Nat.not_lt.mpr hfull)
  · refine ⟨buffer', by rw [hsome, hlen], text_of_sysWrite ?_ ?_ ?_⟩
    · rw [hlen, hwritten, canonical_eq hlo hhi]
    · rw [hlen, hnul]
    · exact fun c hc ↦ canonical_ne_zero hlo hhi hc

end Writing

section Reading

theorem scanLoop_text (htext : Text str i line) (haccept : ∀ c ∈ line, accept c = true)
    (hroom : line.length < room) :
    scanLoop accept next str room i num = some (some (line.foldl next num)) := by
  induction line generalizing i room num with
  | nil =>
    obtain ⟨room, rfl⟩ := exists_succ hroom
    exact if_pos htext
  | cons c line ih =>
    obtain ⟨hc, hne, hrest⟩ := htext
    obtain ⟨hfirst, haccept⟩ := List.forall_mem_cons.mp haccept
    obtain ⟨room, rfl⟩ := exists_succ hroom
    rw [scanLoop, hc, if_neg hne, if_pos hfirst,
      ih hrest haccept (Nat.lt_of_succ_lt_succ hroom), List.foldl_cons]

theorem scanLoop_congr {str' : Buffer} (htext : Text str i line) (htext' : Text str' i line) :
    scanLoop accept next str room i num = scanLoop accept next str' room i num := by
  induction room generalizing i line num with
  | zero => rfl
  | succ room ih =>
    rw [scanLoop, scanLoop]
    cases line with
    | nil =>
      have hnul : str i = 0 := htext
      have hnul' : str' i = 0 := htext'
      rw [if_pos hnul, if_pos hnul']
    | cons c line =>
      rw [htext.1, htext'.1, if_neg htext.2.1, if_neg htext.2.1, ih htext.2.2 htext'.2.2]

theorem atoi_congr {str' : Buffer} (htext : Text str 0 line) (htext' : Text str' 0 line)
    (ok : Option ℤ) : atoi size str ok = atoi size str' ok := by
  unfold atoi
  rw [scanLoop_congr htext htext']

theorem scanLoop_total (accept : UInt8 → Bool) (next : ℕ → UInt8 → ℕ) (num : ℕ)
    (htext : Text str i line) (hroom : line.length < room) :
    ∃ r, scanLoop accept next str room i num = some r := by
  induction line generalizing i room num with
  | nil =>
    obtain ⟨room, rfl⟩ := exists_succ hroom
    exact ⟨_, if_pos htext⟩
  | cons c line ih =>
    obtain ⟨room, rfl⟩ := exists_succ hroom
    rw [scanLoop, htext.1, if_neg htext.2.1]
    split
    · exact ih _ htext.2.2 (Nat.lt_of_succ_lt_succ hroom)
    · exact ⟨none, rfl⟩

theorem atoi_total (htext : Text str 0 line) (hsize : line.length < size) (ok : Option ℤ) :
    ∃ r, atoi size str ok = some r := by
  obtain ⟨r, hscan⟩ := scanLoop_total isDigit (fun num c ↦ u64 (num * 10 + c.toNat - 48)) 0
    htext hsize
  exact ⟨_, congrArg (Option.map _) hscan⟩

theorem atoi_digits (htext : Text str 0 line) (hdigits : ∀ c ∈ line, isDigit c = true)
    (hsize : line.length < size) (ok : Option ℤ) :
    atoi size str ok = some (u64 (number line), ok) := by
  have hstep : ∀ num, ∀ c ∈ line, u64 (num * 10 + c.toNat - 48) =
      (num * 10 + (c.toNat - 48)) % 2 ^ 64 := by
    intro num c hc
    have hlo : 48 ≤ c.toNat := by
      have hdigit := hdigits c hc
      simp only [isDigit, decide_eq_true_eq] at hdigit
      exact UInt8.le_iff_toNat_le.mp hdigit.1
    rw [Nat.add_sub_assoc hlo]
    rfl
  have hread := foldl_mod 10 (2 ^ 64) (line.map fun c ↦ c.toNat - 48) 0
  rw [List.foldl_map] at hread
  rw [atoi, scanLoop_text htext hdigits hsize, List.foldl_ext _ _ 0 hstep]
  exact congrArg (fun num ↦ some (num, ok)) hread

theorem digits_of_canonical (hlo : 2 ≤ base) (hhi : base ≤ 16) {f : UInt8 → ℕ}
    (hf : ∀ d < base, f (digit d) = d) (value : ℕ) :
    (canonical base value).map f = (numeral base value).reverse := by
  have hmap : ((numeral base value).map digit).map f = (numeral base value).map id := by
    rw [List.map_map]
    exact List.map_congr_left fun d hd ↦ hf d (lt_of_mem_numeral hlo hd)
  rw [canonical_eq hlo hhi, List.map_reverse, hmap, List.map_id]

theorem accepts_canonical (hlo : 2 ≤ base) (hhi : base ≤ 16)
    (haccept : ∀ d < base, accept (digit d) = true) :
    ∀ c ∈ canonical base value, accept c = true := by
  intro c hc
  rw [canonical_eq hlo hhi, List.mem_reverse] at hc
  obtain ⟨d, hd, rfl⟩ := List.mem_map.mp hc
  exact haccept d (lt_of_mem_numeral hlo hd)

theorem number_canonical (value : ℕ) : number (canonical 10 value) = value := by
  rw [number, digits_of_canonical (by decide) (by decide) (by decide), readFrom_numeral]

theorem isDigit_canonical : ∀ c ∈ canonical 10 value, isDigit c = true :=
  accepts_canonical (by decide) (by decide) (by decide)

theorem atoi_canonical (hvalue : value < 2 ^ 64) (htext : Text str 0 (canonical 10 value))
    (hsize : (canonical 10 value).length < size) (ok : Option ℤ) :
    atoi size str ok = some (value, ok) := by
  rw [atoi_digits htext isDigit_canonical hsize, number_canonical, u64_of_lt hvalue]

theorem shift_or (val : ℕ) {d : ℕ} (hd : d < 2 ^ 4) :
    u64 (val <<< 4) ||| d = (val * 16 + d) % 2 ^ 64 := by
  have hhigh : u64 (val <<< 4) = (val % 2 ^ 60) <<< 4 := by
    rw [u64, Nat.shiftLeft_eq, Nat.shiftLeft_eq]
    omega
  rw [hhigh, ← Nat.shiftLeft_add_eq_or_of_lt hd, Nat.shiftLeft_eq]
  omega

theorem hex2int_canonical (hvalue : value < 2 ^ 64) (htext : Text str 0 (canonical 16 value))
    (hsize : (canonical 16 value).length < size) (ok : ℤ) :
    hex2int size str ok = some (value, ok) := by
  have haccept : ∀ c ∈ canonical 16 value, isHexDigit c = true :=
    accepts_canonical (by decide) (by decide) (by decide)
  have hstep : ∀ val, ∀ c ∈ canonical 16 value, u64 (val <<< 4) ||| (hexValue c &&& 0xF).toNat =
      (val * 16 + (hexValue c &&& 0xF).toNat) % 2 ^ 64 := by
    intro val c _
    apply shift_or
    rw [UInt8.toNat_and]
    exact Nat.and_lt_two_pow _ (by decide)
  have hread := foldl_mod 16 (2 ^ 64)
    ((canonical 16 value).map fun c ↦ (hexValue c &&& 0xF).toNat) 0
  rw [List.foldl_map, digits_of_canonical (by decide) (by decide) (by decide),
    readFrom_numeral, Nat.mod_eq_of_lt hvalue] at hread
  rw [hex2int, scanLoop_text htext haccept hsize, List.foldl_ext _ _ 0 hstep]
  exact congrArg (fun val ↦ some (val, ok)) hread

end Reading

section Integers

variable {aux : Buffer} {value j k initialIndex : ℤ} {target : ℤ → UInt8} {n m : ℕ}

theorem ofInt_digit : ∀ d < 10, UInt8.ofInt ((d : ℕ) + 48) = digit d := by decide

theorem auxLoop_natCast (room n : ℕ) (aux : Buffer) (i : ℕ) :
    auxLoop room n aux i = (digitsLoop 10 room n aux i).map fun r ↦ (r.1, r.2 - 1) := by
  induction room generalizing n aux i with
  | zero => rfl
  | succ room ih =>
    have hmod : (n : ℤ).tmod 10 = (n % 10 : ℕ) := rfl
    have hdiv : (n : ℤ).tdiv 10 = (n / 10 : ℕ) := rfl
    have hmore : (n : ℤ).tdiv 10 > 0 ↔ n / 10 ≠ 0 := by
      rw [hdiv]
      omega
    rw [auxLoop, digitsLoop, hmod, ofInt_digit _ (Nat.mod_lt n (by decide))]
    by_cases hlast : n / 10 = 0
    · rw [if_neg (by rw [hmore]; exact not_not.mpr hlast), if_neg (not_not.mpr hlast)]
      rfl
    · rw [if_pos (hmore.mpr hlast), if_pos hlast, hdiv, ih]

theorem auxLoop_spec (hn : n < 2 ^ 31) (aux : Buffer) :
    ∃ aux', auxLoop 11 n aux 0 = some (aux', (canonical 10 n).length - 1) ∧
      ∀ m (h : m < (canonical 10 n).length),
        aux' ((canonical 10 n).length - 1 - m) = (canonical 10 n)[m] := by
  have hlen : (numeral 10 n).length ≤ 10 :=
    (length_numeral_le_iff (by decide) (by decide)).mpr (by omega)
  rcases digitsLoop_spec (by decide : 1 < 10) 11 n aux 0 with ⟨hroom, -⟩ | ⟨-, aux', hloop, hstored⟩
  · omega
  rw [Nat.zero_add] at hloop hstored
  have hwritten : (canonical 10 n).reverse = sysWrite aux' (canonical 10 n).length := by
    rw [length_canonical, hstored, canonical_eq (by decide) (by decide), List.reverse_reverse]
    rfl
  refine ⟨aux', ?_, fun m hm ↦ ?_⟩
  · rw [auxLoop_natCast, hloop, length_canonical]
    rfl
  · have hbound : (canonical 10 n).length - 1 - m < (canonical 10 n).reverse.length := by
      rw [List.length_reverse]
      omega
    rw [hwritten] at hbound
    have hget := getElem_sysWrite aux' hbound
    have hindex : (canonical 10 n).length - 1 - ((canonical 10 n).length - 1 - m) = m := by omega
    simp only [← hwritten, List.getElem_reverse, hindex] at hget
    exact hget.symm

theorem i32_add (a b : ℤ) : i32 (i32 a + b) = i32 (a + b) := Int.bmod_add_bmod

theorem copyLoop_index (aux : Buffer) (n : ℕ) (target : ℤ → UInt8) (hj : i32 j = j) :
    (copyLoop aux n target j).2 = i32 (j + n) := by
  induction n generalizing target j with
  | zero =>
    rw [Int.natCast_zero, Int.add_zero, hj]
    rfl
  | succ n ih =>
    have hnext : i32 (i32 (j + 1)) = i32 (j + 1) := by
      have hadd := i32_add (j + 1) 0
      rwa [Int.add_zero, Int.add_zero] at hadd
    have hsum : j + 1 + n = j + (n + 1 : ℕ) := by omega
    rw [copyLoop, ih _ hnext, i32_add, hsum]

theorem copyLoop_apply (aux : Buffer) (n : ℕ) (target : ℤ → UInt8) (hlo : -2 ^ 31 ≤ j)
    (hhi : j + n ≤ int32Max) (k : ℤ) :
    (copyLoop aux n target j).1 k =
      if j ≤ k ∧ k < j + n then aux (n - 1 - (k - j).toNat) else target k := by
  induction n generalizing target j with
  | zero => rw [copyLoop, if_neg (by omega)]
  | succ n ih =>
    have hnext : i32 (j + 1) = j + 1 := i32_of_mem (by omega) (by omega)
    rw [copyLoop, hnext, ih _ (by omega) (by omega)]
    by_cases hk : k = j
    · have hfirst : n + 1 - 1 - (k - j).toNat = n := by omega
      rw [if_neg (by omega), if_pos (by omega), hfirst, hk, update_self]
    · by_cases hin : j + 1 ≤ k ∧ k < j + 1 + n
      · have hindex : n - 1 - (k - (j + 1)).toNat = n + 1 - 1 - (k - j).toNat := by omega
        rw [if_pos hin, if_pos (by omega), hindex]
      · rw [if_neg hin, if_neg (by omega), update_of_ne hk]

def signed (value : ℤ) (target : ℤ → UInt8) (initialIndex : ℤ) : (ℤ → UInt8) × ℤ :=
  if value < 0 then (update target initialIndex 45, i32 (initialIndex + 1))
  else (target, initialIndex)

theorem itos_of_auxLoop {rest : ℤ} {aux' : Buffer}
    (hrest : (if value < 0 then i32 (value * -1) else value) = rest)
    (hloop : auxLoop 11 rest aux 0 = some (aux', n)) :
    itos aux value target initialIndex =
      let s := signed value target initialIndex
      let copied := copyLoop aux' (n + 1) s.1 s.2
      some (update copied.1 copied.2 0, copied.2) := by
  unfold itos
  rw [hrest, hloop]
  rfl

theorem natAbs_rest (hlo : -2 ^ 31 < value) :
    (if value < 0 then i32 (value * -1) else value) = (value.natAbs : ℤ) := by
  have hmax : int32Max = 2 ^ 31 - 1 := rfl
  split
  · rw [i32_of_mem (by omega) (by omega)]
    omega
  · omega

theorem signed_index (value : ℤ) (target : ℤ → UInt8) (hlo : -2 ^ 31 ≤ initialIndex)
    (hhi : initialIndex ≤ int32Max) :
    i32 (signed value target initialIndex).2 = (signed value target initialIndex).2 ∧
      (signed value target initialIndex).2 =
        i32 (initialIndex + (if value < 0 then 1 else 0 : ℕ)) := by
  have hsame : i32 initialIndex = initialIndex := i32_of_mem hlo hhi
  unfold signed
  split
  · have hadd := i32_add (initialIndex + 1) 0
    rw [Int.add_zero, Int.add_zero] at hadd
    exact ⟨hadd, rfl⟩
  · refine ⟨hsame, ?_⟩
    rw [Int.natCast_zero, Int.add_zero, hsame]

theorem length_decimalInt (value : ℤ) : (decimalInt value).length =
    (if value < 0 then 1 else 0) + (canonical 10 value.natAbs).length := by
  unfold decimalInt
  rw [List.length_append]
  split <;> rfl

theorem itos_copies (aux : Buffer) (target : ℤ → UInt8) (hvalue : -2 ^ 31 < value)
    (hmax : value ≤ int32Max) (hlo : -2 ^ 31 ≤ initialIndex) (hhi : initialIndex ≤ int32Max) :
    ∃ aux', (∀ m (h : m < (canonical 10 value.natAbs).length),
        aux' ((canonical 10 value.natAbs).length - 1 - m) = (canonical 10 value.natAbs)[m]) ∧
      ∃ copied, copied = copyLoop aux' (canonical 10 value.natAbs).length
          (signed value target initialIndex).1 (signed value target initialIndex).2 ∧
        copied.2 = i32 (initialIndex + (decimalInt value).length) ∧
        itos aux value target initialIndex = some (update copied.1 copied.2 0, copied.2) := by
  have habs : value.natAbs < 2 ^ 31 := by
    have hint : int32Max = 2 ^ 31 - 1 := rfl
    omega
  obtain ⟨aux', hloop, hdigits⟩ := auxLoop_spec habs aux
  have hpos := length_numeral_pos 10 value.natAbs
  rw [← length_canonical] at hpos
  obtain ⟨hsame, hsigned⟩ := signed_index value target hlo hhi
  refine ⟨aux', hdigits, _, rfl, ?_, ?_⟩
  · rw [copyLoop_index _ _ _ hsame, hsigned, i32_add, length_decimalInt, Int.add_assoc,
      ← Int.natCast_add]
  · rw [itos_of_auxLoop (natAbs_rest hvalue) hloop, Nat.sub_add_cancel hpos]

theorem decimalInt_ne_zero {c : UInt8} (hc : c ∈ decimalInt value) : c ≠ 0 := by
  rcases List.mem_append.mp hc with hc | hc
  · split at hc
    · rw [List.mem_singleton.mp hc]
      decide
    · cases hc
  · exact canonical_ne_zero (by decide) (by decide) hc

/-- `itos` writes the numeral and a NUL, and returns the index of that. -/
def Prints (itos : Buffer → ℤ → (ℤ → UInt8) → ℤ → Option ((ℤ → UInt8) × ℤ)) (aux : Buffer)
    (value : ℤ) (target : ℤ → UInt8) (initialIndex : ℤ) : Prop :=
  ∃ target', itos aux value target initialIndex =
      some (target', initialIndex + (decimalInt value).length) ∧
    Text (fun i ↦ target' (initialIndex + i)) 0 (decimalInt value)

theorem itos_prints (aux : Buffer) (target : ℤ → UInt8) (hvalue : -2 ^ 31 < value)
    (hmax : value ≤ int32Max) (hlo : -2 ^ 31 ≤ initialIndex)
    (hhi : initialIndex + (decimalInt value).length ≤ int32Max) :
    Prints itos aux value target initialIndex := by
  obtain ⟨aux', hdigits, copied, hcopied, hindex, hitos⟩ :=
    itos_copies aux target hvalue hmax hlo (by omega)
  rw [i32_of_mem (by omega) hhi] at hindex
  rw [hindex] at hitos
  refine ⟨_, hitos, text_iff.mpr ⟨fun m hm ↦ ?_, ?_, fun c hc ↦ decimalInt_ne_zero hc⟩⟩
  · have hlen := length_decimalInt value
    rw [Nat.zero_add, update_of_ne (by omega), hcopied]
    unfold signed decimalInt
    by_cases hneg : value < 0
    · rw [if_pos hneg] at hlen
      have hnext : i32 (initialIndex + 1) = initialIndex + 1 := i32_of_mem (by omega) (by omega)
      simp only [if_pos hneg]
      rw [hnext, copyLoop_apply _ _ _ (by omega) (by omega)]
      cases m with
      | zero =>
        rw [if_neg (by omega)]
        simp
      | succ m =>
        have hm' : m < (canonical 10 value.natAbs).length := by omega
        have hoffset : (initialIndex + (m + 1 : ℕ) - (initialIndex + 1)).toNat = m := by omega
        rw [if_pos (by omega), hoffset, hdigits m hm']
        simp
    · rw [if_neg hneg] at hlen
      have hm' : m < (canonical 10 value.natAbs).length := by omega
      have hoffset : (initialIndex + (m : ℕ) - initialIndex).toNat = m := by omega
      simp only [if_neg hneg]
      rw [copyLoop_apply _ _ _ (by omega) (by omega), if_pos (by omega), hoffset, hdigits m hm']
      simp
  · rw [Nat.zero_add, update_self]

/-- The lowest value stays negative, and the loop ends after one of its digits,
which is -8. -/
theorem itos_lowest (aux : Buffer) (target : ℤ → UInt8) (initialIndex : ℤ) :
    itos aux (-2 ^ 31) target initialIndex =
      some (update (update (update target initialIndex 45) (i32 (initialIndex + 1)) 40)
        (i32 (initialIndex + 2)) 0, i32 (initialIndex + 2)) := by
  have hloop : auxLoop 11 (-2 ^ 31) aux 0 = some (update aux 0 40, 0) := rfl
  have hnext : i32 (i32 (initialIndex + 1) + 1) = i32 (initialIndex + 2) := by
    rw [i32_add, Int.add_assoc]
    rfl
  rw [itos_of_auxLoop (by decide) hloop, ← hnext]
  rfl

theorem itos_not_prints_lowest : ¬ Prints itos aux (-2 ^ 31) target initialIndex := by
  intro ⟨target', hitos, _⟩
  rw [itos_lowest] at hitos
  have hlen : (decimalInt (-2 ^ 31)).length = 11 := by
    rw [length_decimalInt, length_canonical]
    simp [numeral]
  have hindex := congrArg Prod.snd (Option.some.inj hitos)
  rw [hlen] at hindex
  have hmod := Int.bmod_emod (x := initialIndex + 2) (m := 2 ^ 32)
  change (initialIndex + 2).bmod (2 ^ 32) = initialIndex + 11 at hindex
  rw [hindex] at hmod
  omega

theorem itos_prints_iff (aux : Buffer) (target : ℤ → UInt8) (hlow : -2 ^ 31 ≤ value)
    (hmax : value ≤ int32Max) (hlo : -2 ^ 31 ≤ initialIndex) (hhi : initialIndex ≤ int32Max) :
    Prints itos aux value target initialIndex ↔
      value ≠ -2 ^ 31 ∧ initialIndex + (decimalInt value).length ≤ int32Max := by
  constructor
  · intro hprints
    have hne : value ≠ -2 ^ 31 := by
      intro heq
      rw [heq] at hprints
      exact itos_not_prints_lowest hprints
    refine ⟨hne, ?_⟩
    obtain ⟨target', hitos, -⟩ := hprints
    obtain ⟨-, -, copied, -, hindex, hcopied⟩ :=
      itos_copies aux target (lt_of_le_of_ne hlow hne.symm) hmax hlo hhi
    rw [hcopied] at hitos
    have hwrap := congrArg Prod.snd (Option.some.inj hitos)
    simp only at hwrap
    rw [hindex] at hwrap
    have hlt : i32 (initialIndex + (decimalInt value).length) < 2 ^ 31 :=
      Int.bmod_lt (by decide)
    rw [hwrap] at hlt
    exact Int.lt_add_one_iff.mp hlt
  · intro ⟨hne, hroom⟩
    exact itos_prints aux target (lt_of_le_of_ne hlow hne.symm) hmax hlo hroom

theorem filter_decimalInt (value : ℤ) :
    (decimalInt value).filter isDigit = canonical 10 value.natAbs := by
  have hall : (canonical 10 value.natAbs).filter isDigit = canonical 10 value.natAbs :=
    List.filter_eq_self.mpr isDigit_canonical
  unfold decimalInt
  rw [List.filter_append, hall]
  split <;> rfl

theorem minus_mem_decimalInt : 45 ∈ decimalInt value ↔ value < 0 := by
  unfold decimalInt
  rw [List.mem_append]
  constructor
  · rintro (hsign | hdigit)
    · split at hsign
      · assumption
      · cases hsign
    · exact absurd (isDigit_canonical _ hdigit) (by decide)
  · intro hneg
    exact Or.inl (by rw [if_pos hneg]; exact List.mem_singleton_self _)

theorem decimalInt_injective : Injective decimalInt := by
  intro v w h
  have habs : v.natAbs = w.natAbs := by
    rw [← number_canonical v.natAbs, ← filter_decimalInt, h, filter_decimalInt, number_canonical]
  have hsign : v < 0 ↔ w < 0 := by
    rw [← minus_mem_decimalInt, h, minus_mem_decimalInt]
  omega

end Integers

end ShellOS.Userland.Numbers
