import ShellOS.Userland.Shell

namespace ShellOS.Userland.StaleArgs

open Library.Tokens Library.Words Strings Numbers CommandLine Shell Function
open Ipc.PipeConsole (Buffer Text)

/-- The system calls of the built-in command that a line comes to. -/
def issued : Option Outcome → Option (List Sys)
  | some (.builtin calls) => some calls
  | _ => none

def needed (name : List UInt8) : ℕ :=
  if name = bytes "nice" then 2
  else if name = bytes "kill" ∨ name = bytes "block" then 1
  else 0

variable {buffer : Buffer} {args args' : Args} {toks : List (List UInt8)} {line name w : List UInt8}
  {status : ℕ × ℕ × ℕ} {i n : ℕ}

section Same

theorem kill_congr (h : Text (row args 1) 0 w) (h' : Text (row args' 1) 0 w) :
    kill args = kill args' := by
  rw [kill, kill, atoi_congr h h']

theorem block_congr (h : Text (row args 1) 0 w) (h' : Text (row args' 1) 0 w) :
    block args = block args' := by
  rw [block, block, atoi_congr h h']

theorem nice_congr {v : List UInt8} (h : Text (row args 1) 0 w) (h' : Text (row args' 1) 0 w)
    (hv : Text (row args 2) 0 v) (hv' : Text (row args' 2) 0 v) : nice args = nice args' := by
  rw [nice, nice, atoi_congr h h']
  congr 1
  funext pid
  rw [atoi_congr hv hv']

theorem builtinFunc_congr (h : Rows args toks) (h' : Rows args' toks)
    (hname : builtinList[i]? = some name) (hneeded : needed name < toks.length) :
    builtinFunc status i args = builtinFunc status i args' := by
  have hrow : ∀ j, j ≤ needed name → ∃ w, Text (row args j) 0 w ∧ Text (row args' j) 0 w := by
    intro j hj
    have hget : toks[j]? = some toks[j] := List.getElem?_eq_getElem (Nat.lt_of_le_of_lt hj hneeded)
    exact ⟨toks[j], h j _ hget, h' j _ hget⟩
  unfold builtinFunc
  split
  · rfl
  · rfl
  · rfl
  · rfl
  · obtain rfl : bytes "kill" = name := Option.some.inj hname
    obtain ⟨w, hw, hw'⟩ := hrow 1 (by decide)
    exact kill_congr hw hw'
  · obtain rfl : bytes "nice" = name := Option.some.inj hname
    obtain ⟨w, hw, hw'⟩ := hrow 1 (by decide)
    obtain ⟨v, hv, hv'⟩ := hrow 2 (by decide)
    exact nice_congr hw hw' hv hv'
  · obtain rfl : bytes "block" = name := Option.some.inj hname
    obtain ⟨w, hw, hw'⟩ := hrow 1 (by decide)
    exact block_congr hw hw'
  · rfl
  · rfl
  · rfl

theorem runCommand_congr (h : Rows args toks) (h' : Rows args' toks) (hname : toks[0]? = some name)
    (hneeded : needed name < toks.length) :
    issued (runCommand status args toks.length) = issued (runCommand status args' toks.length) := by
  have htext := h 0 name hname
  have htext' := h' 0 name hname
  rw [runCommand, runCommand, h.findPipe, h'.findPipe]
  cases (List.range' 1 (toks.length - 2)).find? fun i ↦ toks[i]? = some (bytes "|") with
  | some index => rfl
  | none =>
    simp only [findName_text htext processList_ne_nul, findName_text htext' processList_ne_nul,
      findName_text htext builtinList_ne_nul, findName_text htext' builtinList_ne_nul]
    split
    · rfl
    rename_i hprocess
    split
    · rename_i hbuiltin
      rcases lookup_cases name builtinList (lookup name processList (-1)) with
        hsame | ⟨i, hi, hget⟩
      · exact absurd (hsame ▸ hbuiltin) hprocess
      · rw [hi, Int.toNat_natCast, builtinFunc_congr h h' hget hneeded]
    · rfl

end Same

section Stale

def stale (o : ℕ) (c : UInt8) : Args := update (fun _ ↦ 0) o c

/-- With a digit or a NUL in the first row that is not written, a command of
few arguments finds one more, and then an empty one. -/
theorem stale_rows {c : UInt8} (h : Stored (stale (21 * toks.length) c) args 0 toks) :
    (c ≠ 0 → Text (row args toks.length) 0 [c]) ∧ (c = 0 → Text (row args toks.length) 0 []) ∧
      Text (row args (toks.length + 1)) 0 [] := by
  have hbyte : ∀ o, 21 * toks.length ≤ o → args o = stale (21 * toks.length) c o :=
    fun o ho ↦ h.outside o (by omega)
  have hfirst : args (21 * toks.length) = c := by
    rw [hbyte _ (Nat.le_refl _)]
    exact update_self _ _ _
  have hzero : ∀ o, 21 * toks.length < o → args o = 0 := by
    intro o ho
    rw [hbyte o (Nat.le_of_lt ho)]
    exact update_of_ne (Nat.ne_of_gt ho) _ _
  refine ⟨fun hc ↦ ⟨hfirst, hc, hzero _ (by omega)⟩, fun hc ↦ ?_, hzero _ (by omega)⟩
  rw [hc] at hfirst
  exact hfirst

theorem executeCommand_builtin (status : ℕ × ℕ × ℕ) (htext : Text buffer 0 line)
    (hlen : line.length ≤ 100) (hshort : (tokens line).length ≤ 2)
    (hlong : (word blank line).length < 20)
    (hprocess : lookup (word blank line) processList (-1) = -1)
    (hbuiltin : lookup (word blank line) builtinList (-1) = n) (args : Args) :
    ∃ args', Stored args args' 0 (tokens line) ∧
      executeCommand status 101 buffer args = (builtinFunc status n args').map .builtin := by
  have hkept : ¬ Rejected line := by
    intro h
    have htake := (length_take_word line).mpr ⟨h.1, h.2.1⟩
    rw [List.length_take] at htake
    omega
  obtain ⟨args', htokenize, hstored⟩ := tokenize_stored htext hlen hkept args
  have hpipe : (List.range' 1 ((tokens line).length - 2)).find?
      (fun i ↦ (tokens line)[i]? = some (bytes "|")) = none := by
    rw [Nat.sub_eq_zero_of_le hshort]
    rfl
  refine ⟨args', hstored, ?_⟩
  rw [executeCommand, htokenize, Option.bind_some]
  exact (Rows.of_stored hstored).runCommand status rfl hpipe hprocess hbuiltin

theorem issued_builtin (calls : Option (List Sys)) : issued (calls.map .builtin) = calls := by
  cases calls <;> rfl

theorem few_differ (toks : List (List UInt8)) (hn : toks.length = 1 ∨ toks.length = 2)
    (hrow : ∀ w, toks[1]? = some w → w.length ≤ 20)
    (h : Stored (stale (21 * toks.length) 0) args 0 toks)
    (h' : Stored (stale (21 * toks.length) 53) args' 0 toks) :
    (toks.length = 1 → kill args ≠ kill args' ∧ block args ≠ block args') ∧
      nice args ≠ nice args' := by
  obtain ⟨-, hempty, hnext⟩ := stale_rows h
  obtain ⟨hfive, -, hnext'⟩ := stale_rows h'
  have hempty := hempty rfl
  have hfive := hfive (by decide)
  have hdigits : ∀ c ∈ [(53 : UInt8)], isDigit c = true := List.all_eq_true.mp (by decide)
  have hnone : ∀ c ∈ ([] : List UInt8), isDigit c = true := by simp
  rcases hn with hone | htwo
  · rw [hone] at hempty hfive hnext hnext'
    refine ⟨fun _ ↦ ⟨?_, ?_⟩, ?_⟩
    · rw [kill_digits hempty hnone (by decide), kill_digits hfive hdigits (by decide)]
      decide
    · rw [block_digits hempty hnone (by decide), block_digits hfive hdigits (by decide)]
      decide
    · rw [nice_digits hempty hnone (by decide) hnext hnone (by decide),
        nice_digits hfive hdigits (by decide) hnext' hnone (by decide)]
      decide
  · rw [htwo] at hempty hfive
    refine ⟨fun hone ↦ absurd (htwo.symm.trans hone) (by decide), ?_⟩
    obtain ⟨w, hw⟩ : ∃ w, toks[1]? = some w := ⟨_, List.getElem?_eq_getElem (by omega)⟩
    have hsize : w.length < rowSize 1 := Nat.lt_of_le_of_lt (hrow w hw) (by decide)
    have hfirst := Rows.of_stored h 1 w hw
    obtain ⟨pid, hpid⟩ := atoi_total hfirst hsize (some 1)
    rw [nice, nice, ← atoi_congr hfirst (Rows.of_stored h' 1 w hw), hpid, Option.bind_some,
      Option.bind_some, atoi_digits hempty hnone (by decide), atoi_digits hfive hdigits (by decide)]
    intro heq
    have hcalls := (List.cons.inj (Option.some.inj heq)).1
    rw [Sys.changePriority.injEq] at hcalls
    have hbytes : BitVec.ofNat 8 (u64 (number [])) ≠ BitVec.ofNat 8 (u64 (number [53])) := by decide
    exact hbytes hcalls.2

theorem stale_differs (status : ℕ × ℕ × ℕ) (htext : Text buffer 0 line)
    (hlen : line.length ≤ 100) (hfew : (tokens line).length ≤ needed (word blank line)) :
    ∃ args args', issued (executeCommand status 101 buffer args) ≠
      issued (executeCommand status 101 buffer args') := by
  have hpos : 0 < (tokens line).length := Nat.succ_pos _
  have hrow : ∀ w, (tokens line)[1]? = some w → w.length ≤ 20 := by
    intro w hw
    rw [tokens, List.getElem?_cons_succ, List.getElem?_map] at hw
    obtain ⟨v, -, rfl⟩ := Option.map_eq_some_iff.mp hw
    exact List.length_take_le _ _
  have hruns : ∀ i : ℕ, (tokens line).length ≤ 2 → (word blank line).length < 20 →
      lookup (word blank line) processList (-1) = -1 →
      lookup (word blank line) builtinList (-1) = i →
      (∀ args args', Stored (stale (21 * (tokens line).length) 0) args 0 (tokens line) →
        Stored (stale (21 * (tokens line).length) 53) args' 0 (tokens line) →
          builtinFunc status i args ≠ builtinFunc status i args') →
      ∃ args args', issued (executeCommand status 101 buffer args) ≠
        issued (executeCommand status 101 buffer args') := by
    intro i hshort hlong hprocess hbuiltin hdiffer
    let o := 21 * (tokens line).length
    obtain ⟨args, hstored, hrun⟩ := executeCommand_builtin status htext hlen hshort hlong hprocess
      hbuiltin (stale o 0)
    obtain ⟨args', hstored', hrun'⟩ := executeCommand_builtin status htext hlen hshort hlong
      hprocess hbuiltin (stale o 53)
    refine ⟨stale o 0, stale o 53, ?_⟩
    rw [hrun, hrun', issued_builtin, issued_builtin]
    exact hdiffer args args' hstored hstored'
  unfold needed at hfew
  split at hfew
  · rename_i hname
    refine hruns 5 hfew (by rw [hname]; decide) (by rw [hname]; decide) (by rw [hname]; decide) ?_
    exact fun args args' h h' ↦ (few_differ _ (by omega) hrow h h').2
  split at hfew
  · rename_i hname
    have hone : (tokens line).length = 1 := by omega
    rcases hname with hname | hname
    · refine hruns 4 (by omega) (by rw [hname]; decide) (by rw [hname]; decide)
        (by rw [hname]; decide) ?_
      exact fun args args' h h' ↦ ((few_differ _ (Or.inl hone) hrow h h').1 hone).1
    · refine hruns 6 (by omega) (by rw [hname]; decide) (by rw [hname]; decide)
        (by rw [hname]; decide) ?_
      exact fun args args' h h' ↦ ((few_differ _ (Or.inl hone) hrow h h').1 hone).2
  · omega

end Stale

/-- The built-in command of a line makes the same calls whatever `args` held
before, if and only if the line has the arguments that the command reads. -/
theorem stale_args_iff (status : ℕ × ℕ × ℕ) (htext : Text buffer 0 line)
    (hlen : line.length ≤ 100) :
    (∀ args args', issued (executeCommand status 101 buffer args) =
        issued (executeCommand status 101 buffer args')) ↔
      needed (word blank line) < (tokens line).length := by
  constructor
  · intro hsame
    by_contra hfew
    obtain ⟨args, args', hdiffer⟩ := stale_differs status htext hlen (Nat.not_lt.mp hfew)
    exact hdiffer (hsame args args')
  · intro hneeded args args'
    by_cases hrejected : Rejected line
    · rw [executeCommand, executeCommand, tokenize_rejected htext hrejected,
        tokenize_rejected htext hrejected]
    · obtain ⟨args₁, htokenize, hstored⟩ := tokenize_stored htext hlen hrejected args
      obtain ⟨args₂, htokenize', hstored'⟩ := tokenize_stored htext hlen hrejected args'
      rw [executeCommand, executeCommand, htokenize, htokenize']
      exact runCommand_congr (.of_stored hstored) (.of_stored hstored') rfl hneeded

theorem kill_with_pid :
    issued (executeCommand (1, 1, 1) 101 (fun i ↦ (bytes "kill 5").getD i 0) fun _ ↦ 0) =
      issued (executeCommand (1, 1, 1) 101 (fun i ↦ (bytes "kill 5").getD i 0) fun _ ↦ 255) := by
  have htext : Text (fun i ↦ (bytes "kill 5").getD i 0) 0 (bytes "kill 5") := text_getD (by decide)
  exact (stale_args_iff (1, 1, 1) htext (by decide)).mpr (by decide) _ _

/-- Without a pid `kill` takes the one that `args` held before. -/
theorem kill_without_pid : ¬ ∀ args args',
    issued (executeCommand (1, 1, 1) 101 (fun i ↦ (bytes "kill").getD i 0) args) =
      issued (executeCommand (1, 1, 1) 101 (fun i ↦ (bytes "kill").getD i 0) args') := by
  intro hsame
  have htext : Text (fun i ↦ (bytes "kill").getD i 0) 0 (bytes "kill") := text_getD (by decide)
  obtain ⟨args, args', hdiffer⟩ := stale_differs (1, 1, 1) htext (by decide) (by decide)
  exact hdiffer (hsame args args')

end ShellOS.Userland.StaleArgs
