import Mathlib.Data.List.Find
import ShellOS.Userland.CommandLine
import ShellOS.Userland.Numbers

namespace ShellOS.Userland.Shell

open Library.Words Libc Strings Numbers CommandLine
open Ipc.PipeConsole (Buffer Text)

def bytes (s : String) : List UInt8 := s.toList.map fun c ↦ UInt8.ofNat c.toNat

/-- The system calls of the built-in commands, and the tests, which get no
argument. -/
inductive Sys
  | write (bytes : List UInt8)
  | clearScreen
  | printProcess
  | killProcess (pid : BitVec 32)
  | changePriority (pid : BitVec 32) (newPriority : BitVec 8)
  | changeState (pid : BitVec 32)
  | printSemaphores
  | printPipes
  | memStatus
  | test (index : ℕ)
deriving DecidableEq

def print (s : String) : Sys := .write (bytes s)

/-- `args[i]`. Behind the row come the next ones, up to byte 126. -/
def row (args : Args) (i : ℕ) : Buffer := fun o ↦ args (21 * i + o)

def rowSize (i : ℕ) : ℕ := 126 - 21 * i

def help : List Sys :=
  ["-------BUILTIN------\n", "1: block\n", "2: clear\n", "3: help\n", "4: kill\n", "5: mem\n",
    "6: nice\n", "7: pipe\n", "8: ps\n", "9: sem\n", "-------PROCESSES------\n", "1: cat\n",
    "2: filter\n", "3: loop\n", "4: phylo\n", "5: wc\n", "-------TESTS------\n", "1: testmm\n",
    "2: testprio\n", "3: testproc\n", "4: testsync\n", "5: testnosync\n"].map print

def complain (message : String) (ok : Option ℤ) : List Sys :=
  if ok = some 0 then [print message] else []

/-- There is no result when `atoi` goes on behind `args`. -/
def kill (args : Args) : Option (List Sys) :=
  (atoi (rowSize 1) (row args 1) (some 1)).map fun pid ↦
    .killProcess (BitVec.ofNat 32 pid.1) :: complain "Invalid PID\n" pid.2

def nice (args : Args) : Option (List Sys) :=
  (atoi (rowSize 1) (row args 1) (some 1)).bind fun pid ↦
    (atoi (rowSize 2) (row args 2) pid.2).map fun priority ↦
      .changePriority (BitVec.ofNat 32 pid.1) (BitVec.ofNat 8 priority.1) ::
        complain "Invalid parameters\n" priority.2

def block (args : Args) : Option (List Sys) :=
  (atoi (rowSize 1) (row args 1) (some 1)).map fun pid ↦
    .changeState (BitVec.ofNat 32 pid.1) :: complain "Invalid PID\n" pid.2

/-- `status` is what `sys_memStatus` stores. There is no result when a number
does not fit into the buffer of `printInt`. -/
def mem (status : ℕ × ℕ × ℕ) : Option (List Sys) :=
  (printInt status.1 fun _ ↦ 0).bind fun size ↦
    (printInt status.2.1 fun _ ↦ 0).bind fun left ↦
      (printInt status.2.2 fun _ ↦ 0).map fun used ↦
        [.memStatus, print "Heap size: ", .write size, print " bytes\n", print "Heap left: ",
          .write left, print " bytes\n", print "Heap used: ", .write used, print " bytes\n"]

def processList : List (List UInt8) :=
  ["p1", "p2", "p3", "p4", "p5", "loop", "cat", "wc", "filter", "phylo"].map bytes

def builtinList : List (List UInt8) :=
  ["help", "clear", "mem", "sem", "kill", "nice", "block", "pipe", "ps", "testmm", "testprio",
    "testproc", "testsync", "testnosync"].map bytes

def builtinFunc (status : ℕ × ℕ × ℕ) (index : ℕ) (args : Args) : Option (List Sys) :=
  match index with
  | 0 => some help
  | 1 => some [.clearScreen]
  | 2 => mem status
  | 3 => some [.printSemaphores]
  | 4 => kill args
  | 5 => nice args
  | 6 => block args
  | 7 => some [.printPipes]
  | 8 => some [.printProcess]
  | n => some [.test n]

/-- The last index at which the command is found, or the one before. -/
def findName (command : Buffer) (names : List (List UInt8)) (index : ℤ) : ℤ :=
  names.zipIdx.foldl (fun index p ↦ if compareStrings command p.1 then p.2 else index) index

def findPipe (args : Args) (argNum : ℕ) : Option ℕ :=
  (List.range' 1 (argNum - 2)).find? fun index ↦ compareStrings (row args index) (bytes "|")

inductive Outcome
  | notFound
  | pipeline (args : Args) (index argNum : ℕ)
  | process (index : ℕ) (args : Args) (argNum : ℕ)
  | builtin (calls : List Sys)

def runCommand (status : ℕ × ℕ × ℕ) (args : Args) (argNum : ℕ) : Option Outcome :=
  match findPipe args argNum with
  | some index => some (.pipeline args index argNum)
  | none =>
    let index := findName (row args 0) processList (-1)
    if index ≥ 0 then some (.process index.toNat args argNum)
    else
      let index := findName (row args 0) builtinList index
      if index ≥ 0 then (builtinFunc status index.toNat args).map .builtin else some .notFound

def executeCommand (status : ℕ × ℕ × ℕ) (size : ℕ) (buffer : Buffer) (args : Args) :
    Option Outcome :=
  (tokenize size buffer args).bind fun
    | none => some .notFound
    | some r => runCommand status r.1 r.2

variable {args args' : Args} {toks : List (List UInt8)} {name w : List UInt8} {index : ℤ} {i n : ℕ}
  {names : List (List UInt8)}

def Rows (args : Args) (toks : List (List UInt8)) : Prop :=
  ∀ i w, toks[i]? = some w → Text (row args i) 0 w

theorem text_row : Text (row args i) 0 w ↔ Text args (21 * i) w := by
  rw [text_iff, text_iff]
  simp only [Nat.zero_add]
  rfl

section Names

def lookup (name : List UInt8) (names : List (List UInt8)) (index : ℤ) : ℤ :=
  names.zipIdx.foldl (fun index p ↦ if name = p.1 then p.2 else index) index

theorem findName_text {command : Buffer} (h : Text command 0 name)
    (hne : ∀ s ∈ names, ∀ c ∈ s, c ≠ 0) (index : ℤ) :
    findName command names index = lookup name names index := by
  apply List.foldl_ext
  intro index p hp
  have hmem : p.1 ∈ names := (List.mem_zipIdx' hp).2 ▸ List.getElem_mem _
  simp only [compareStrings_text h (hne p.1 hmem)]

theorem lookup_cases (name : List UInt8) (names : List (List UInt8)) (index : ℤ) :
    lookup name names index = index ∨
      ∃ i : ℕ, lookup name names index = i ∧ names[i]? = some name := by
  have hfold : ∀ l : List (List UInt8 × ℕ), ∀ index : ℤ,
      l.foldl (fun index p ↦ if name = p.1 then (p.2 : ℤ) else index) index = index ∨
        ∃ p ∈ l, l.foldl (fun index p ↦ if name = p.1 then (p.2 : ℤ) else index) index = p.2 ∧
          p.1 = name := by
    intro l
    induction l with
    | nil => exact fun index ↦ Or.inl rfl
    | cons p l ih =>
      intro index
      rw [List.foldl_cons]
      by_cases hp : name = p.1
      · rw [if_pos hp]
        rcases ih p.2 with heq | ⟨q, hq, heq, hname⟩
        · exact Or.inr ⟨p, List.mem_cons_self, heq, hp.symm⟩
        · exact Or.inr ⟨q, List.mem_cons_of_mem _ hq, heq, hname⟩
      · rw [if_neg hp]
        rcases ih index with heq | ⟨q, hq, heq, hname⟩
        · exact Or.inl heq
        · exact Or.inr ⟨q, List.mem_cons_of_mem _ hq, heq, hname⟩
  rcases hfold names.zipIdx index with heq | ⟨p, hp, heq, hname⟩
  · exact Or.inl heq
  · exact Or.inr ⟨p.2, heq, hname ▸ List.mem_zipIdx_iff_getElem?.mp hp⟩

theorem processList_ne_nul : ∀ s ∈ processList, ∀ c ∈ s, c ≠ 0 := by
  have hnul : ∀ s ∈ processList, 0 ∉ s := by decide
  exact fun s hs ↦ List.forall_mem_ne'.mpr (hnul s hs)

theorem builtinList_ne_nul : ∀ s ∈ builtinList, ∀ c ∈ s, c ≠ 0 := by
  have hnul : ∀ s ∈ builtinList, 0 ∉ s := by decide
  exact fun s hs ↦ List.forall_mem_ne'.mpr (hnul s hs)

end Names

section Rows

theorem Rows.of_stored {args₀ : Args} (h : Stored args₀ args 0 toks) : Rows args toks := by
  intro i w hw
  rw [text_row]
  have hrow := h.row i w hw
  rwa [Nat.zero_add] at hrow

theorem Rows.findPipe (h : Rows args toks) : findPipe args toks.length =
    (List.range' 1 (toks.length - 2)).find? fun i ↦ toks[i]? = some (bytes "|") := by
  unfold Shell.findPipe
  apply List.find?_congr
  intro i hi
  have hlt : i < toks.length := by
    have hrange := List.mem_range'_1.mp hi
    omega
  have hget : toks[i]? = some toks[i] := List.getElem?_eq_getElem hlt
  have hbar : ∀ c ∈ bytes "|", c ≠ 0 := List.forall_mem_ne'.mpr (by decide)
  have hpipe := compareStrings_text (h i toks[i] hget) hbar
  rw [Bool.eq_iff_iff, hpipe, decide_eq_true_iff, hget, Option.some.injEq]

theorem Rows.runCommand (h : Rows args toks) (status : ℕ × ℕ × ℕ) (hname : toks[0]? = some name)
    (hpipe : (List.range' 1 (toks.length - 2)).find?
      (fun i ↦ toks[i]? = some (bytes "|")) = none)
    (hprocess : lookup name processList (-1) = -1) (hbuiltin : lookup name builtinList (-1) = n) :
    runCommand status args toks.length = (builtinFunc status n args).map .builtin := by
  have htext := h 0 name hname
  rw [Shell.runCommand, h.findPipe, hpipe]
  simp only [findName_text htext processList_ne_nul, hprocess]
  rw [if_neg (by decide), findName_text htext builtinList_ne_nul, hbuiltin,
    if_pos (Int.natCast_nonneg n), Int.toNat_natCast]

end Rows

section Digits

theorem complain_ok (message : String) : complain message (some 1) = [] := if_neg (by decide)

variable {pid priority : List UInt8}

theorem kill_digits (h : Text (row args 1) 0 pid) (hpid : ∀ c ∈ pid, isDigit c = true)
    (hlen : pid.length ≤ 20) :
    kill args = some [.killProcess (BitVec.ofNat 32 (u64 (number pid)))] := by
  rw [kill, atoi_digits h hpid (Nat.lt_of_le_of_lt hlen (by decide)), Option.map_some, complain_ok]

theorem block_digits (h : Text (row args 1) 0 pid) (hpid : ∀ c ∈ pid, isDigit c = true)
    (hlen : pid.length ≤ 20) :
    block args = some [.changeState (BitVec.ofNat 32 (u64 (number pid)))] := by
  rw [block, atoi_digits h hpid (Nat.lt_of_le_of_lt hlen (by decide)), Option.map_some, complain_ok]

theorem nice_digits (h : Text (row args 1) 0 pid) (hpid : ∀ c ∈ pid, isDigit c = true)
    (hlen : pid.length ≤ 20) (h' : Text (row args 2) 0 priority)
    (hpriority : ∀ c ∈ priority, isDigit c = true) (hlen' : priority.length ≤ 20) :
    nice args = some [.changePriority (BitVec.ofNat 32 (u64 (number pid)))
      (BitVec.ofNat 8 (u64 (number priority)))] := by
  rw [nice, atoi_digits h hpid (Nat.lt_of_le_of_lt hlen (by decide)), Option.bind_some,
    atoi_digits h' hpriority (Nat.lt_of_le_of_lt hlen' (by decide)), Option.map_some, complain_ok]

end Digits

end ShellOS.Userland.Shell
