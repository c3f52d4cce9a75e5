import Mathlib.Data.List.DropRight
import ShellOS.Library.Tokens
import ShellOS.Userland.Strings

namespace ShellOS.Userland.CommandLine

open Library.Links Library.Tokens Strings Function
open Ipc.PipeConsole (Buffer Text)

def maxArgAmt : ℕ := 5
def maxArgCommandLen : ℕ := 20

/-- `char args[6][21]`, row after row. -/
abbrev Args := Buffer

/-- `args[i][j] = c`. There is no result when that is outside of the array or of
the row. -/
def storeArg (args : Args) (i j : ℕ) (c : UInt8) : Option Args :=
  if i < maxArgAmt + 1 ∧ j < maxArgCommandLen + 1 then some (update args (21 * i + j) c) else none

def blank (c : UInt8) : Bool := c = 32

/-- The loops that copy a word into `args[i]`, with room for so many more of its
bytes. -/
def copyWord (buffer : Buffer) (i : ℕ) : ℕ → Args → ℕ → ℕ → Option (Args × ℕ × ℕ)
  | 0, args, j, index => some (args, j, index)
  | room + 1, args, j, index =>
    if buffer index ≠ 0 ∧ buffer index ≠ 32 then
      (storeArg args i j (buffer index)).bind fun args ↦
        copyWord buffer i room args (j + 1) (index + 1)
    else some (args, j, index)

/-- `while (buffer[index] && p(buffer[index])) index++`. There is no result when
it goes on after `size` bytes. -/
def skip (p : UInt8 → Bool) (size : ℕ) (buffer : Buffer) (index : ℕ) : Option ℕ :=
  seek (fun i ↦ buffer i = 0 ∨ p (buffer i) = false) (· + 1) size index

def argLoop (size : ℕ) (buffer : Buffer) : ℕ → Args → ℕ → ℕ → Option (Args × ℕ)
  | 0, args, argNum, _ => some (args, argNum)
  | room + 1, args, argNum, index =>
    if buffer index = 0 then some (args, argNum)
    else
      (copyWord buffer argNum maxArgCommandLen args 0 index).bind fun r ↦
        (storeArg r.1 argNum r.2.1 0).bind fun args ↦
          (skip (fun c ↦ !blank c) size buffer r.2.2).bind fun index ↦
            (skip blank size buffer index).bind fun index ↦
              argLoop size buffer room args (argNum + 1) index

/-- `executeCommand` up to the arguments, and none in its result when the
command is not found because it is too long. -/
def tokenize (size : ℕ) (buffer : Buffer) (args : Args) : Option (Option (Args × ℕ)) :=
  (copyWord buffer 0 maxArgCommandLen args 0 0).bind fun r ↦
    if r.2.2 = maxArgCommandLen ∧ buffer r.2.2 ≠ 32 then some none
    else
      (storeArg r.1 0 r.2.2 0).bind fun args ↦
        (skip blank size buffer r.2.2).bind fun index ↦
          (argLoop size buffer maxArgAmt args 1 index).map some

/-- The first 20 bytes have no space and no end, and the next one is no space. -/
def Rejected (text : List UInt8) : Prop :=
  20 ≤ text.length ∧ (∀ c ∈ text.take 20, c ≠ 32) ∧ text[20]? ≠ some 32

/-- The command and its arguments, at most five, each cut to 20 bytes. -/
def tokens (line : List UInt8) : List (List UInt8) :=
  word blank line :: ((words blank (afterWord blank line)).take 5).map (List.take 20)

variable {buffer : Buffer} {args args' : Args} {line rest : List UInt8} {c : UInt8}
  {i j index room size argNum o : ℕ}

theorem storeArg_eq (hi : i ≤ 5) (hj : j ≤ 20) (args : Args) (c : UInt8) :
    storeArg args i j c = some (update args (21 * i + j) c) :=
  if_pos ⟨Nat.lt_succ_of_le hi, Nat.lt_succ_of_le hj⟩

theorem blank_eq_true : blank c = true ↔ c = 32 := decide_eq_true_iff

theorem blank_eq_false : blank c = false ↔ c ≠ 32 := decide_eq_false_iff_not

section Loops

theorem copyWord_spec (hi : i ≤ 5) (htext : Text buffer index rest) (hroom : j + room ≤ 20)
    (args : Args) :
    copyWord buffer i room args j index =
      some (put args (21 * i + j) ((word blank rest).take room),
        j + ((word blank rest).take room).length,
        index + ((word blank rest).take room).length) := by
  induction room generalizing args j index rest with
  | zero =>
    rw [copyWord, List.take_zero, put_nil]
    rfl
  | succ room ih =>
    rw [copyWord]
    cases rest with
    | nil =>
      have hnul : buffer index = 0 := htext
      rw [if_neg (fun h ↦ h.1 hnul)]
      have hword : word blank ([] : List UInt8) = [] := rfl
      rw [hword, List.take_nil, put_nil]
      rfl
    | cons c rest =>
      obtain ⟨hc, hne, hrest⟩ := htext
      rw [hc]
      by_cases hblank : c = 32
      · have hword : word blank (c :: rest) = [] :=
          List.takeWhile_cons_of_neg (by simp [blank_eq_true.mpr hblank])
        rw [if_neg (fun h ↦ h.2 hblank), hword, List.take_nil, put_nil]
        rfl
      · have hword : word blank (c :: rest) = c :: word blank rest :=
          List.takeWhile_cons_of_pos (by simp [blank_eq_false.mpr hblank])
        rw [if_pos ⟨hne, hblank⟩, storeArg_eq hi (by omega), Option.bind_some,
          ih hrest (by omega), hword, List.take_succ_cons, List.length_cons, ← put_update]
        have hshift : ∀ k n, k + 1 + n = k + (n + 1) := fun k n ↦ by omega
        rw [hshift, hshift, ← Nat.add_assoc]

theorem skip_spec (p : UInt8 → Bool) (htext : Text buffer index rest)
    (hsize : rest.length < size) :
    ∃ next, skip p size buffer index = some next ∧ Text buffer next (rest.dropWhile p) := by
  induction rest generalizing index size with
  | nil =>
    obtain ⟨size, rfl⟩ := exists_succ hsize
    have hnul : buffer index = 0 := htext
    exact ⟨index, by simp [skip, seek, hnul], htext⟩
  | cons c rest ih =>
    obtain ⟨size, rfl⟩ := exists_succ hsize
    have htext' := htext
    obtain ⟨hc, hne, hrest⟩ := htext
    cases hp : p c with
    | false =>
      refine ⟨index, ?_, ?_⟩
      · simp [skip, seek, hc, hp]
      · rwa [List.dropWhile_cons_of_neg (by simp [hp])]
    | true =>
      obtain ⟨next, hskip, hnext⟩ := ih hrest (Nat.lt_of_succ_lt_succ hsize)
      refine ⟨next, ?_, ?_⟩
      · rw [skip, seek, if_neg (by simp [hc, hne, hp])]
        exact hskip
      · rwa [List.dropWhile_cons_of_pos hp]

end Loops

section Words

theorem store_word (hi : i ≤ 5) (htext : Text buffer index rest) (args : Args) :
    ∃ args', copyWord buffer i maxArgCommandLen args 0 index =
        some (args', ((word blank rest).take 20).length,
          index + ((word blank rest).take 20).length) ∧
      ∃ args'', storeArg args' i ((word blank rest).take 20).length 0 = some args'' ∧
        Text args'' (21 * i) ((word blank rest).take 20) ∧
        ∀ o, o < 21 * i ∨ 21 * (i + 1) ≤ o → args'' o = args o := by
  have hlen : ((word blank rest).take 20).length ≤ 20 := List.length_take_le _ _
  have hne : ∀ c ∈ (word blank rest).take 20, c ≠ 0 := by
    intro c hc
    have hmem : c ∈ rest := List.takeWhile_subset _ (List.mem_of_mem_take hc)
    exact text_ne_nul htext c hmem
  have hcopy : copyWord buffer i maxArgCommandLen args 0 index = _ :=
    copyWord_spec hi htext (by decide : 0 + 20 ≤ 20) args
  rw [Nat.zero_add, Nat.add_zero] at hcopy
  refine ⟨_, hcopy, _, storeArg_eq hi hlen _ _, put_text hne, fun o ho ↦ ?_⟩
  rw [update_of_ne (by omega), put_outside (by omega)]

theorem skip_word (htext : Text buffer index rest) (hsize : rest.length < size) :
    ∃ next, skip (fun c ↦ !blank c) size buffer
        (index + ((word blank rest).take 20).length) = some next ∧
      Text buffer next (afterWord blank rest) := by
  have hsplit : rest = (word blank rest).take 20 ++ ((word blank rest).drop 20 ++
      afterWord blank rest) := by
    rw [← List.append_assoc, List.take_append_drop, word_append_afterWord]
  have htail : Text buffer (index + ((word blank rest).take 20).length)
      ((word blank rest).drop 20 ++ afterWord blank rest) := by
    apply text_drop
    rwa [← hsplit]
  have hlen := congrArg List.length hsplit
  rw [List.length_append] at hlen
  have htail_size : ((word blank rest).drop 20 ++ afterWord blank rest).length < size := by omega
  obtain ⟨next, hskip, hnext⟩ := skip_spec (fun c ↦ !blank c) htail htail_size
  refine ⟨next, hskip, ?_⟩
  have hword : ∀ c ∈ (word blank rest).drop 20, (!blank c) = true := by
    intro c hc
    rw [sep_of_mem_word (List.mem_of_mem_drop hc)]
    rfl
  have hafter : (afterWord blank rest).dropWhile (fun c ↦ !blank c) = afterWord blank rest :=
    List.dropWhile_idempotent _ rest
  rwa [List.dropWhile_append_of_pos hword, hafter] at hnext

structure Stored (args args' : Args) (argNum : ℕ) (ws : List (List UInt8)) : Prop where
  row : ∀ k w, ws[k]? = some w → Text args' (21 * (argNum + k)) w
  outside : ∀ o, o < 21 * argNum ∨ 21 * (argNum + ws.length) ≤ o → args' o = args o

theorem Stored.nil (args : Args) (argNum : ℕ) : Stored args args argNum [] :=
  ⟨nofun, fun _ _ ↦ rfl⟩

theorem Stored.cons {args₁ : Args} {w : List UInt8} {ws : List (List UInt8)}
    (hlen : w.length ≤ 20) (htext : Text args₁ (21 * argNum) w)
    (houtside : ∀ o, o < 21 * argNum ∨ 21 * (argNum + 1) ≤ o → args₁ o = args o)
    (h : Stored args₁ args' (argNum + 1) ws) : Stored args args' argNum (w :: ws) := by
  constructor
  · intro k v hv
    cases k with
    | zero =>
      rw [List.getElem?_cons_zero, Option.some.injEq] at hv
      rw [← hv]
      exact text_congr htext (fun o _ ho ↦ h.outside o (by omega))
    | succ k =>
      have hrow := h.row k v hv
      rwa [Nat.add_assoc, Nat.add_comm 1] at hrow
  · intro o ho
    rw [List.length_cons] at ho
    rw [h.outside o (by omega), houtside o (by omega)]

theorem argLoop_spec (hsize : rest.length < size) (htext : Text buffer index rest)
    (hstart : rest.dropWhile blank = rest) (hroom : argNum + room = 6) (args : Args) :
    ∃ args', argLoop size buffer room args argNum index =
        some (args', argNum + ((words blank rest).take room).length) ∧
      Stored args args' argNum (((words blank rest).take room).map (List.take 20)) := by
  induction room generalizing args argNum index rest with
  | zero => exact ⟨args, rfl, .nil args argNum⟩
  | succ room ih =>
    rw [argLoop]
    cases hrest : rest with
    | nil =>
      rw [hrest] at htext
      have hnul : buffer index = 0 := htext
      exact ⟨args, if_pos hnul, .nil args argNum⟩
    | cons c tail =>
      rw [← hrest]
      have hc : blank c = false := by
        by_contra htrue
        have hpos : blank c = true := by simpa using htrue
        have hlen := congrArg List.length hstart
        rw [hrest, List.dropWhile_cons_of_pos hpos, List.length_cons] at hlen
        have hle := (List.dropWhile_sublist (l := tail) blank).length_le
        omega
      have hwords : words blank rest = word blank rest :: words blank (afterWord blank rest) := by
        rw [hrest, words_cons hc]
      have hbuffer : buffer index ≠ 0 := by
        have htext' := hrest ▸ htext
        rw [htext'.1]
        exact htext'.2.1
      obtain ⟨args₁, hcopy, args₂, hstore, hrow, houtside⟩ :=
        store_word (by omega : argNum ≤ 5) htext args
      obtain ⟨index₁, hskip, hafter⟩ := skip_word htext hsize
      have hlen : (afterWord blank rest).length ≤ rest.length :=
        (List.dropWhile_sublist _).length_le
      obtain ⟨index₂, hskip', hnext⟩ := skip_spec blank hafter (by omega : _ < size)
      have hlen' := (List.dropWhile_sublist (l := afterWord blank rest) blank).length_le
      obtain ⟨args', hloop, hstored⟩ := ih (by omega) hnext (List.dropWhile_idempotent _ _)
        (by omega : argNum + 1 + room = 6) args₂
      rw [words_dropWhile] at hloop hstored
      refine ⟨args', ?_, ?_⟩
      · rw [if_neg hbuffer, hcopy, Option.bind_some, hstore, Option.bind_some, hskip,
          Option.bind_some, hskip', Option.bind_some, hloop, hwords, List.take_succ_cons,
          List.length_cons, Nat.add_assoc, Nat.add_comm 1]
      · rw [hwords, List.take_succ_cons, List.map_cons]
        exact .cons (List.length_take_le _ _) hrow houtside hstored

end Words

section Reject

theorem byte_eq {text : List UInt8} (htext : Text buffer 0 text) (h : i ≤ text.length) :
    buffer i = (text[i]?).getD 0 := by
  obtain ⟨hline, hnul, -⟩ := text_iff.mp htext
  simp only [Nat.zero_add] at hline hnul
  rcases Nat.lt_or_eq_of_le h with hlt | heq
  · rw [hline i hlt, List.getElem?_eq_getElem hlt, Option.getD_some]
  · rw [heq, hnul, List.getElem?_eq_none (Nat.le_refl _), Option.getD_none]

theorem length_take_word (line : List UInt8) :
    ((word blank line).take 20).length = 20 ↔ 20 ≤ line.length ∧ ∀ c ∈ line.take 20, c ≠ 32 := by
  have hsplit := congrArg List.length (word_append_afterWord blank line)
  rw [List.length_append] at hsplit
  constructor
  · intro hlen
    have hle : 20 ≤ (word blank line).length := by
      rw [List.length_take] at hlen
      omega
    refine ⟨by omega, fun c hc ↦ ?_⟩
    rw [← word_append_afterWord blank line, List.take_append_of_le_length hle] at hc
    exact blank_eq_false.mp (sep_of_mem_word (List.mem_of_mem_take hc))
  · intro ⟨hlen, hall⟩
    have hprefix : ∀ c ∈ line.take 20, (!blank c) = true := by
      intro c hc
      rw [blank_eq_false.mpr (hall c hc)]
      rfl
    have hword : word blank line = line.take 20 ++ (line.drop 20).takeWhile fun c ↦ !blank c := by
      unfold word
      conv => lhs; rw [← List.take_append_drop 20 line]
      rw [List.takeWhile_append_of_pos hprefix]
    rw [hword, List.length_take, List.length_append, List.length_take]
    omega

theorem rejected_iff {text : List UInt8} (htext : Text buffer 0 text) :
    ((word blank text).take 20).length = 20 ∧ buffer ((word blank text).take 20).length ≠ 32 ↔
      Rejected text := by
  unfold Rejected
  rw [← and_assoc, ← length_take_word]
  refine and_congr_right (fun hlen ↦ ?_)
  have hle := ((length_take_word text).mp hlen).1
  rw [hlen, byte_eq htext hle]
  cases text[20]? with
  | none => exact iff_of_true (by decide) (by decide)
  | some c => rw [Option.getD_some, ne_eq, ne_eq, Option.some.injEq]

theorem length_word_le {text : List UInt8} (h : ¬ Rejected text) : (word blank text).length ≤ 20 := by
  by_contra hlong
  apply h
  have htake : ((word blank text).take 20).length = 20 := by
    rw [List.length_take]
    omega
  have hget : text[20]? = (word blank text)[20]? := by
    conv => lhs; rw [← word_append_afterWord blank text]
    exact List.getElem?_append_left (by omega)
  obtain ⟨hlen, hall⟩ := (length_take_word text).mp htake
  refine ⟨hlen, hall, fun heq ↦ ?_⟩
  rw [hget] at heq
  exact blank_eq_false.mp (sep_of_mem_word (List.mem_of_getElem? heq)) rfl

end Reject

section Tokenize

theorem tokenize_rejected (htext : Text buffer 0 line) (h : Rejected line) (args : Args) :
    tokenize 101 buffer args = some none := by
  obtain ⟨args₁, hcopy, -⟩ := store_word (Nat.zero_le 5) htext args
  obtain ⟨hlen, hbyte⟩ := (rejected_iff htext).mpr h
  rw [Nat.zero_add] at hcopy
  rw [tokenize, hcopy, Option.bind_some, if_pos ⟨hlen, hbyte⟩]

theorem tokenize_stored (htext : Text buffer 0 line) (hlen : line.length ≤ 100)
    (h : ¬ Rejected line) (args : Args) :
    ∃ args', tokenize 101 buffer args = some (some (args', (tokens line).length)) ∧
      Stored args args' 0 (tokens line) := by
  obtain ⟨args₁, hcopy, args₂, hstore, hrow, houtside⟩ :=
    store_word (Nat.zero_le 5) htext args
  have hreject := rejected_iff htext
  have hword : (word blank line).take 20 = word blank line :=
    List.take_of_length_le (length_word_le h)
  rw [Nat.zero_add] at hcopy
  rw [hword] at hcopy hstore hrow hreject
  have hkept : ¬ ((word blank line).length = maxArgCommandLen ∧
      buffer (word blank line).length ≠ 32) := fun hr ↦ h (hreject.mp hr)
  have hafter : Text buffer (word blank line).length (afterWord blank line) := by
    have hsplit := text_drop (u := word blank line) (v := afterWord blank line)
      ((word_append_afterWord blank line).symm ▸ htext)
    rwa [Nat.zero_add] at hsplit
  have hle : (afterWord blank line).length ≤ line.length := (List.dropWhile_sublist _).length_le
  obtain ⟨index, hskip, hnext⟩ := skip_spec blank hafter (by omega : _ < 101)
  have hle' := (List.dropWhile_sublist (l := afterWord blank line) blank).length_le
  obtain ⟨args', hloop, hstored⟩ := argLoop_spec (by omega : _ < 101) hnext
    (List.dropWhile_idempotent _ _) (by decide : 1 + maxArgAmt = 6) args₂
  rw [words_dropWhile] at hloop hstored
  refine ⟨args', ?_, .cons (length_word_le h) hrow (fun o ho ↦ houtside o (by omega)) hstored⟩
  rw [tokenize, hcopy, Option.bind_some, if_neg hkept, hstore, Option.bind_some, hskip,
    Option.bind_some, hloop, Option.map_some, tokens, List.length_cons, List.length_map,
    Nat.add_comm 1]
  rfl

end Tokenize

/-- `executeCommand` rejects a line or leaves its tokens in the rows of `args`,
whatever was there before. -/
theorem command_line_tokens (htext : Text buffer 0 line) (hlen : line.length ≤ 100) (args : Args) :
    (Rejected line → tokenize 101 buffer args = some none) ∧
      (¬ Rejected line → ∃ args', tokenize 101 buffer args =
          some (some (args', (tokens line).length)) ∧
        ∀ i w, (tokens line)[i]? = some w → Text args' (21 * i) w) := by
  refine ⟨fun h ↦ tokenize_rejected htext h args, fun h ↦ ?_⟩
  obtain ⟨args', htokenize, hstored⟩ := tokenize_stored htext hlen h args
  refine ⟨args', htokenize, fun i w hw ↦ ?_⟩
  have hrow := hstored.row i w hw
  rwa [Nat.zero_add] at hrow

theorem command_line_tokens_kill : ∃ args', tokenize 101
      (fun i ↦ [107, 32, 32, 53, 32, 54].getD i 0) (fun _ ↦ 255) = some (some (args', 3)) ∧
    Text args' 42 [54] := by
  let line : List UInt8 := [107, 32, 32, 53, 32, 54]
  have htext : Text (fun i ↦ line.getD i 0) 0 line := text_getD (by decide)
  have htokens : tokens line = [[107], [53], [54]] := by decide
  obtain ⟨args', htokenize, hrow⟩ := (command_line_tokens htext (by decide) fun _ ↦ 255).2
    (fun h ↦ absurd h.1 (by decide))
  rw [htokens] at htokenize hrow
  exact ⟨args', htokenize, hrow 2 [54] rfl⟩

end ShellOS.Userland.CommandLine
