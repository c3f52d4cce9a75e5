import ShellOS.Asm.Syscall
import ShellOS.Userland.Shell

namespace ShellOS.Userland.Packing

open Library.Words Asm.Processor Asm.Syscall Strings CommandLine Shell Function
open Ipc.PipeConsole (Buffer Text)

section Copy

variable (store : Buffer → ℕ → UInt8 → Option Buffer) (source : Buffer)

/-- `while (source[j]) destination[k++] = source[j++]`. There is no result when
a byte is not stored or when the loop goes on after so many bytes. -/
def copyText : ℕ → Buffer → ℕ → ℕ → Option (Buffer × ℕ × ℕ)
  | 0, _, _, _ => none
  | room + 1, destination, j, k =>
    if source j ≠ 0 then
      (store destination k (source j)).bind fun destination ↦
        copyText room destination (j + 1) (k + 1)
    else some (destination, j, k)

def copyRow (destination : Buffer) (j k : ℕ) : Option (Buffer × ℕ × ℕ) :=
  (copyText store source (maxArgCommandLen + 1) destination j k).bind fun r ↦
    (store r.1 r.2.2 0).map fun destination ↦ (destination, r.2.1, r.2.2)

end Copy

def copyRows (store : Args → ℕ → ℕ → UInt8 → Option Args) (source : Args) :
    ℕ → ℕ → ℕ → Args → Option Args
  | 0, _, _, destination => some destination
  | n + 1, i, j, destination =>
    (copyRow (fun b ↦ store b i) (row source j) destination 0 0).bind fun r ↦
      copyRows store source n (i + 1) (j + 1) r.1

/-- `args[argsIndex] = c`, in the memory of `size` bytes that `args` points to. -/
def storeByte (size : ℕ) (args : Buffer) (argsIndex : ℕ) (c : UInt8) : Option Buffer :=
  if argsIndex < size then some (update args argsIndex c) else none

/-- The loop of `createProcess` over so many strings from `argv[i]` on. -/
def packLoop (size : ℕ) (argv : Args) : ℕ → ℕ → Buffer → ℕ → Option Buffer
  | 0, _, args, _ => some args
  | n + 1, i, args, argsIndex =>
    (copyRow (storeByte size) (row argv i) args 0 argsIndex).bind fun r ↦
      packLoop size argv n (i + 1) r.1 (r.2.2 + 1)

structure Block where
  address : Word
  bytes : Buffer

/-- What `sys_createProcess` is called with, and the bytes that `args` points
to. -/
structure Request where
  ip : Word
  priority : ℕ
  argc : ℕ
  args : Word
  packed : Buffer
  customStdin : Word
  customStdout : Word

def ampersand (argv : Args) (argc : ℕ) : Bool :=
  compareStrings (row argv (u32Sub argc 1)) (bytes "&")

/-- `createProcess` of the user library up to its system call. There is no
result when `sys_alloc` fails, or when a byte is stored outside its memory. -/
def createProcess (sysAlloc : ℕ → Option Block) (ip : Word) (argc : ℕ) (argv : Args)
    (customStdin customStdout : Word) : Option Request :=
  let priority := if customStdin = 0 then if ampersand argv argc then 3 else 1 else 3
  let argc := if customStdin = 0 ∧ priority = 3 then u32Sub argc 1 else argc
  (sysAlloc (u32 (argc * 21))).bind fun block ↦
    (packLoop (u32 (argc * 21)) argv argc 0 block.bytes 0).map fun packed ↦
      ⟨ip, priority, argc, block.address, packed, customStdin, customStdout⟩

/-- The registers of a call of `sys_createProcess`. What is above an argument
of fewer than 64 bits is not fixed. -/
structure Passes (q : Request) (r : Registers) : Prop where
  ip : r.rdi = q.ip
  priority : r.rsi.setWidth 8 = BitVec.ofNat 8 q.priority
  argc : r.rdx.setWidth 32 = BitVec.ofNat 32 q.argc
  args : r.rcx = q.args
  customStdin : r.r8 = q.customStdin
  customStdout : r.r9 = q.customStdout

theorem Passes.call {q : Request} {cpu : Cpu} (h : Passes q cpu.reg) (handler : Word) :
    sys 17 handler cpu = some (.createProcessWrapper q.ip (BitVec.ofNat 8 q.priority)
      (BitVec.ofNat 32 q.argc) q.args q.customStdin q.customStdout) := by
  rw [sys_eq handler cpu (by decide), dispatch, h.ip, h.args, h.customStdin, h.customStdout]
  simp only [syscallDispatcher, h.priority, h.argc]
  rfl

variable {store : Buffer → ℕ → UInt8 → Option Buffer} {source destination args argv : Buffer}
  {w rest : List UInt8} {ws toks : List (List UInt8)} {base bound size room i j k : ℕ}

section Copy

theorem copyText_spec (hstore : ∀ b k c, k ≤ bound → store b k c = some (update b (base + k) c))
    (htext : Text source j rest) (hroom : rest.length < room) (hbound : k + rest.length ≤ bound)
    (destination : Buffer) :
    copyText store source room destination j k =
      some (put destination (base + k) rest, j + rest.length, k + rest.length) := by
  induction rest generalizing room destination j k with
  | nil =>
    obtain ⟨room, rfl⟩ := Library.Links.exists_succ hroom
    have hnul : source j = 0 := htext
    rw [copyText, if_neg (not_not.mpr hnul), put_nil]
    rfl
  | cons c rest ih =>
    obtain ⟨room, rfl⟩ := Library.Links.exists_succ hroom
    obtain ⟨hc, hne, hrest⟩ := htext
    rw [List.length_cons] at hroom hbound
    have hfirst := hstore destination k c (by omega)
    have hshift : ∀ n, n + 1 + rest.length = n + (rest.length + 1) := fun n ↦ by omega
    rw [copyText, hc, if_pos hne, hfirst, Option.bind_some,
      ih hrest (Nat.lt_of_succ_lt_succ hroom) (by omega), ← Nat.add_assoc, put_update,
      List.length_cons, hshift, hshift]

theorem copyRow_spec (hstore : ∀ b k c, k ≤ bound → store b k c = some (update b (base + k) c))
    (htext : Text source j w) (hlen : w.length ≤ 20) (hbound : k + w.length ≤ bound)
    (destination : Buffer) :
    ∃ destination', copyRow store source destination j k =
        some (destination', j + w.length, k + w.length) ∧
      Text destination' (base + k) w ∧
      ∀ o, o < base + k ∨ base + k + w.length < o → destination' o = destination o := by
  have hcopy := copyText_spec hstore htext (Nat.lt_succ_of_le hlen) hbound destination
  have hnul := hstore (put destination (base + k) w) (k + w.length) 0 hbound
  rw [← Nat.add_assoc] at hnul
  refine ⟨update (put destination (base + k) w) (base + k + w.length) 0, ?_,
    put_text (text_ne_nul htext), fun o ho ↦ ?_⟩
  · rw [copyRow, maxArgCommandLen, hcopy, Option.bind_some, hnul]
    rfl
  · rw [update_of_ne (by omega), put_outside (by omega)]

theorem copyRows_spec {store : Args → ℕ → ℕ → UInt8 → Option Args}
    (hstore : ∀ i, i < bound → ∀ b k c, k ≤ 20 → store b i k c = some (update b (21 * i + k) c))
    (hrow : ∀ n w, ws[n]? = some w → Text (row source (j + n)) 0 w) (hlen : ∀ w ∈ ws, w.length ≤ 20)
    (hroom : i + ws.length ≤ bound) (destination : Args) :
    ∃ destination', copyRows store source ws.length i j destination = some destination' ∧
      Stored destination destination' i ws := by
  induction ws generalizing i j destination with
  | nil => exact ⟨destination, rfl, .nil destination i⟩
  | cons w ws ih =>
    obtain ⟨hw, hlen⟩ := List.forall_mem_cons.mp hlen
    rw [List.length_cons] at hroom
    have htext : Text (row source j) 0 w := hrow 0 w rfl
    obtain ⟨first, hcopy, hfirst, houtside⟩ := copyRow_spec
      (hstore i (by omega)) htext hw (by omega : 0 + w.length ≤ 20) destination
    have hnext : ∀ n v, ws[n]? = some v → Text (row source (j + 1 + n)) 0 v := by
      intro n v hv
      have hshift : j + 1 + n = j + (n + 1) := by omega
      rw [hshift]
      exact hrow (n + 1) v hv
    obtain ⟨destination', hrest, hstored⟩ :=
      ih hnext hlen (by omega : i + 1 + ws.length ≤ bound) first
    refine ⟨destination', ?_, .cons hw hfirst (fun o ho ↦ houtside o (by omega)) hstored⟩
    rw [List.length_cons, copyRows, hcopy, Option.bind_some, hrest]

end Copy

def Packed (buffer : Buffer) : ℕ → List (List UInt8) → Prop
  | _, [] => True
  | i, w :: ws => Text buffer i w ∧ Packed buffer (i + w.length + 1) ws

section Pack

theorem storeByte_eq (args : Buffer) (k : ℕ) (c : UInt8) (h : k < size) :
    storeByte size args k c = some (update args (0 + k) c) := by
  rw [Nat.zero_add]
  exact if_pos h

theorem packLoop_spec (hrow : ∀ n w, ws[n]? = some w → Text (row argv (i + n)) 0 w)
    (hlen : ∀ w ∈ ws, w.length ≤ 20) (hsize : k + 21 * ws.length ≤ size) (args : Buffer) :
    ∃ args', packLoop size argv ws.length i args k = some args' ∧ Packed args' k ws ∧
      ∀ o, o < k ∨ k + 21 * ws.length ≤ o → args' o = args o := by
  induction ws generalizing i k args with
  | nil => exact ⟨args, rfl, trivial, fun _ _ ↦ rfl⟩
  | cons w ws ih =>
    obtain ⟨hw, hlen⟩ := List.forall_mem_cons.mp hlen
    rw [List.length_cons] at hsize
    have hstore : ∀ b n c, n ≤ k + 20 → storeByte size b n c = some (update b (0 + n) c) :=
      fun b n c hn ↦ storeByte_eq b n c (by omega)
    have htext : Text (row argv i) 0 w := hrow 0 w rfl
    obtain ⟨args₁, hcopy, hfirst, houtside⟩ :=
      copyRow_spec hstore htext hw (by omega : k + w.length ≤ k + 20) args
    have hnext : ∀ n v, ws[n]? = some v → Text (row argv (i + 1 + n)) 0 v := by
      intro n v hv
      have hshift : i + 1 + n = i + (n + 1) := by omega
      rw [hshift]
      exact hrow (n + 1) v hv
    obtain ⟨args', hloop, hpacked, hkept⟩ :=
      ih (k := k + w.length + 1) hnext hlen (by omega) args₁
    rw [Nat.zero_add] at hfirst houtside
    refine ⟨args', ?_, ⟨?_, hpacked⟩, fun o ho ↦ ?_⟩
    · rw [List.length_cons, packLoop, hcopy, Option.bind_some, hloop]
    · exact text_congr hfirst (fun o _ ho ↦ hkept o (by omega))
    · rw [List.length_cons] at ho
      rw [hkept o (by omega), houtside o (by omega)]

end Pack

/-- How many arguments are passed on: all, or all but the `&` that puts a
program into the background. -/
def argCount (toks : List (List UInt8)) (customStdin : Word) : ℕ :=
  if customStdin = 0 ∧ toks.getLast? = some (bytes "&") then toks.length - 1 else toks.length

section Create

theorem ampersand_iff (hrows : Rows argv toks) (hpos : 0 < toks.length) (hlen : toks.length ≤ 6) :
    ampersand argv toks.length = true ↔ toks.getLast? = some (bytes "&") := by
  have hsub : u32Sub toks.length 1 = toks.length - 1 := u32Sub_of_le hpos (by omega)
  have hlast : toks[toks.length - 1]? = some (toks[toks.length - 1]) :=
    List.getElem?_eq_getElem (by omega)
  have htext := hrows _ _ hlast
  rw [ampersand, hsub, compareStrings_text htext (List.forall_mem_ne'.mpr (by decide)),
    List.getLast?_eq_getElem?, hlast,
    Option.some.injEq]

theorem rows_take (h : Rows argv toks) (m : ℕ) : Rows argv (toks.take m) := by
  intro i w hw
  rw [List.getElem?_take] at hw
  split at hw
  · exact h i w hw
  · cases hw

theorem argCount_le (toks : List (List UInt8)) (customStdin : Word) :
    argCount toks customStdin ≤ toks.length := by
  unfold argCount
  split
  · exact Nat.sub_le _ _
  · exact Nat.le_refl _

theorem request_header (hrows : Rows argv toks) (hargc : 1 ≤ toks.length ∧ toks.length ≤ 6)
    (customStdin : Word) :
    let priority := if customStdin = 0 then if ampersand argv toks.length then 3 else 1 else 3
    priority = (if customStdin = 0 ∧ toks.getLast? ≠ some (bytes "&") then 1 else 3) ∧
      (if customStdin = 0 ∧ priority = 3 then u32Sub toks.length 1 else toks.length) =
        argCount toks customStdin := by
  have hamp := ampersand_iff hrows hargc.1 hargc.2
  have hsub : u32Sub toks.length 1 = toks.length - 1 := u32Sub_of_le hargc.1 (by omega)
  unfold argCount
  by_cases hin : customStdin = 0
  · by_cases hlast : toks.getLast? = some (bytes "&")
    · have hyes : ampersand argv toks.length = true := hamp.mpr hlast
      simp [hin, hlast, hyes, hsub]
    · have hno : ampersand argv toks.length = false :=
        Bool.eq_false_iff.mpr (fun h ↦ hlast (hamp.mp h))
      simp [hin, hlast, hno]
  · simp only [hin, false_and, if_false, and_self]

theorem createProcess_spec {sysAlloc : ℕ → Option Block} {block : Block} {customStdin : Word}
    {m : ℕ} (hm : m = argCount toks customStdin) (hrows : Rows argv toks)
    (hargc : 1 ≤ toks.length ∧ toks.length ≤ 6) (hlen : ∀ w ∈ toks, w.length ≤ 20)
    (halloc : sysAlloc (m * 21) = some block) (ip customStdout : Word) :
    ∃ packed, createProcess sysAlloc ip toks.length argv customStdin customStdout =
        some ⟨ip, if customStdin = 0 ∧ toks.getLast? ≠ some (bytes "&") then 1 else 3, m,
          block.address, packed, customStdin, customStdout⟩ ∧
      Packed packed 0 (toks.take m) ∧ ∀ o, m * 21 ≤ o → packed o = block.bytes o := by
  obtain ⟨hpriority, hcount⟩ := request_header hrows hargc customStdin
  have hle : m ≤ toks.length := hm ▸ argCount_le toks customStdin
  have hsize : u32 (m * 21) = m * 21 := u32_of_lt (by omega)
  have hlength : (toks.take m).length = m := by rw [List.length_take, Nat.min_eq_left hle]
  have hrow : ∀ n w, (toks.take m)[n]? = some w → Text (row argv (0 + n)) 0 w := by
    intro n w hw
    rw [Nat.zero_add]
    exact rows_take hrows m n w hw
  obtain ⟨packed, hloop, hpacked, hkept⟩ := packLoop_spec hrow
    (fun w hw ↦ hlen w (List.mem_of_mem_take hw))
    (by omega : 0 + 21 * (toks.take m).length ≤ m * 21) block.bytes
  rw [hlength] at hloop
  refine ⟨packed, ?_, hpacked, fun o ho ↦ hkept o (by omega)⟩
  simp only [createProcess, hcount, ← hm, hsize]
  rw [halloc, Option.bind_some, hloop, Option.map_some, hpriority]

end Create

end ShellOS.Userland.Packing
