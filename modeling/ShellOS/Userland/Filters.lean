import ShellOS.Library.LineMachine
import ShellOS.Terminal.LineDiscipline
import ShellOS.Userland.Libc

namespace ShellOS.Userland.Filters

open Library.LineMachine Terminal.Read Terminal.LineDiscipline Libc Function
open Ipc.PipeConsole (Buffer Text)

structure State where
  output : List UInt8
  n : ℕ

def State.put (s : State) (bytes : List UInt8) : State := { s with output := s.output ++ bytes }

/-- A program `while (scanf(buffer) > 0) body`, and what it does behind the loop. -/
structure Program where
  body : Buffer → State → Option State
  finish : State → Option State

def bufferSize : ℕ := 200

def cat : Program where
  body buffer s := (printf bufferSize buffer).map fun line ↦ (s.put line).put [10]
  finish s := some s

def heading : List UInt8 := "Cantidad de lineas leidas: ".toList.map fun c ↦ UInt8.ofNat c.toNat

def wc : Program where
  body _ s := if s.n = maxCount then none else some { s with n := s.n + 1 }
  finish s := (printInt s.n fun _ ↦ 0).map fun num ↦ ((s.put heading).put num).put [10]

def isVowel (c : UInt8) : Bool := c ∈ [97, 101, 105, 111, 117, 65, 69, 73, 79, 85]

/-- The inner loop of `filter`. There is no result behind the end of `buffer`. -/
def filterLoop (buffer : Buffer) : ℕ → ℕ → State → Option State
  | 0, _, _ => none
  | room + 1, i, s =>
    if buffer i = 0 then some s
    else filterLoop buffer room (i + 1) (if isVowel (buffer i) then s else s.put (putChar (buffer i)))

def filter : Program where
  body buffer s := (filterLoop buffer bufferSize 0 s).map (State.put · [10])
  finish s := some s

/-- Where a program stands: in `read`, behind `sys_exit`, or where its
behaviour is not defined. -/
inductive Point
  | reads (l : Line) (s : State)
  | exited (s : State)
  | undefined

def scan (buffer : Buffer) (s : State) : Point := .reads ⟨0, buffer, []⟩ s

def Program.afterRead (P : Program) (buffer : Buffer) (s : State) (ret : ℤ) : Point :=
  if ret > 0 then (P.body buffer s).elim .undefined (scan buffer)
  else (P.finish s).elim .undefined .exited

def Program.feed (P : Program) (p : Tty × Point) (key : UInt8) : Tty × Point :=
  match p with
  | (g, .reads l s) =>
    match decode .pipe g l key with
    | .more g l => (g, .reads l s)
    | .returned g l ret => (g, P.afterRead l.buf s ret)
    | .exited g _ => (g, .exited s)
    | .hangs _ | .undefined => (g, .undefined)
  | p => p

section Bodies

variable {buffer : Buffer} {line : List UInt8} {s : State} {i room : ℕ}

def Acts (P : Program) (act : List UInt8 → State → Option State) : Prop :=
  ∀ {buffer : Buffer} {line : List UInt8} {s : State}, Text buffer 0 line →
    line.length < bufferSize → P.body buffer s = act line s

def putLine (keep : UInt8 → Bool) (line : List UInt8) (s : State) : Option State :=
  some (s.put (line.filter keep ++ [10]))

theorem put_put (a b : List UInt8) : (s.put a).put b = s.put (a ++ b) := by
  simp [State.put]

theorem cat_acts : Acts cat (putLine fun _ ↦ true) := by
  intro buffer line s htext hlen
  simp only [cat, printf_spec htext hlen, Option.map_some, putLine, put_put, List.filter_true]

theorem filterLoop_spec (htext : Text buffer i line) (hroom : line.length < room) :
    filterLoop buffer room i s = some (s.put (line.filter (! isVowel ·))) := by
  induction line generalizing i room s with
  | nil =>
    obtain ⟨room, rfl⟩ := Library.Links.exists_succ hroom
    have hnul : buffer i = 0 := htext
    rw [filterLoop, if_pos hnul]
    simp [State.put]
  | cons c line ih =>
    obtain ⟨hc, hne, hrest⟩ := htext
    obtain ⟨room, rfl⟩ := Library.Links.exists_succ hroom
    rw [filterLoop, hc, if_neg hne, ih hrest (Nat.lt_of_succ_lt_succ hroom)]
    by_cases hvowel : isVowel c
    · rw [if_pos hvowel, List.filter_cons_of_neg (by simp [hvowel])]
    · rw [if_neg hvowel, List.filter_cons_of_pos (by simp [hvowel]), put_put]
      rfl

theorem filter_acts : Acts filter (putLine (! isVowel ·)) := by
  intro buffer line s htext hlen
  simp only [filter, filterLoop_spec htext hlen, Option.map_some, putLine, put_put]

theorem wc_acts : Acts wc fun _ ↦ wc.body fun _ ↦ 0 := fun _ _ ↦ rfl

/-- What a program is, over the lines of its input. -/
def machine (P : Program) (act : List UInt8 → State → Option State) : Machine State :=
  ⟨act, P.finish, fun c ↦ Printable c, 99⟩

inductive Refines : Tty × Point → Stage State → Prop
  | reads {g : Tty} {l : Line} {line : List UInt8} {s : State} :
      g.mayus = false → Shows (-1) l line → line.length ≤ 99 → (∀ c ∈ line, Printable c) →
      Refines (g, .reads l s) (.reads line s)
  | exited {g : Tty} {s : State} : Refines (g, .exited s) (.exited s)
  | undefined {g : Tty} : Refines (g, .undefined) .undefined
  | lost {p : Tty × Point} : Refines p .lost

theorem text_of_bytes {string : List UInt8}
    (h : ∀ j c, string[j]? = some c → buffer (i + j) = c ∧ c ≠ 0)
    (hnul : buffer (i + string.length) = 0) : Text buffer i string := by
  induction string generalizing i with
  | nil => exact hnul
  | cons c string ih =>
    obtain ⟨hc, hne⟩ := h 0 c rfl
    refine ⟨hc, hne, ih (fun j d hd ↦ ?_) ?_⟩
    · rw [Nat.add_assoc, Nat.add_comm 1]
      exact h (j + 1) d hd
    · rw [Nat.add_assoc, Nat.add_comm 1]
      exact hnul

variable {P : Program} {act : List UInt8 → State → Option State} {g : Tty} {l : Line} {key : UInt8}

theorem shows_text (h : Shows (-1) l line) (hlen : line.length ≤ 99)
    (hline : ∀ c ∈ line, Printable c) : Text (l.store l.count 0).buf 0 line := by
  have hcount := h.count
  apply text_of_bytes
  · intro j c hc
    have hj : j < line.length := (List.getElem?_eq_some_iff.mp hc).1
    have hne : 0 + j ≠ l.count := by omega
    refine ⟨?_, fun h0 ↦ ?_⟩
    · simp only [Line.store, update_of_ne hne]
      rw [Nat.zero_add]
      exact (h.bytes j c (by omega) hc).1
    · have hprintable := hline c (List.mem_of_getElem? hc)
      rw [h0] at hprintable
      exact absurd hprintable (by decide)
  · rw [Nat.zero_add, ← hcount]
    exact update_self _ _ _

theorem feed_end (hacts : Acts P act) (h : Shows (-1) l line) (hlen : line.length ≤ 99)
    (hline : ∀ c ∈ line, Printable c) (hmayus : g.mayus = false)
    (hkey : decode .pipe g l key = endLine g l) :
    Refines (P.feed (g, .reads l s) key) ((machine P act).endLine line s) := by
  have hcount := h.count
  simp only [Program.feed, hkey, endLine, Program.afterRead, Machine.endLine, machine]
  by_cases hnil : line = []
  · rw [if_pos hnil, if_neg (by simp [hcount, hnil])]
    cases P.finish s with
    | none => exact .undefined
    | some s' => exact .exited
  · have hpos := List.length_pos_iff.mpr hnil
    have htext := shows_text h hlen hline
    rw [if_neg hnil, if_pos (by omega), hacts htext (by unfold bufferSize; omega)]
    cases act line s with
    | none => exact .undefined
    | some s' => exact .reads hmayus (.start (Or.inl rfl) _) (Nat.zero_le _) (by simp)

theorem feed_refines {p : Tty × Point} {stage : Stage State} (hacts : Acts P act)
    (h : Refines p stage) (key : UInt8) :
    Refines (P.feed p key) ((machine P act).feed stage key) := by
  cases h with
  | @reads g l line s hmayus hshows hlen hline =>
    rw [Machine.feed]
    split
    · rename_i hend
      apply feed_end hacts hshows hlen hline hmayus
      rcases hend with rfl | rfl <;> rfl
    split
    · rename_i hplain
      have hprintable : Printable key := of_decide_eq_true hplain.1
      have hlt : line.length < 99 := hplain.2
      have hcount : l.count < maxCount := by
        rw [hshows.count]
        unfold maxCount
        omega
      have hkey : shifted g.mayus key = key := by simp [hmayus, shifted]
      have hpush := hshows.push (by simp [goesOn]) key
      simp only [Program.feed, decode_printable hprintable hcount, hkey]
      refine .reads hmayus hpush ?_ (fun c hc ↦ ?_)
      · rw [List.length_append, List.length_singleton]
        omega
      · rcases List.mem_append.mp hc with hc | hc
        · exact hline c hc
        · rwa [List.mem_singleton.mp hc]
    · exact .lost
  | exited => exact .exited
  | undefined => exact .undefined
  | lost => exact .lost

end Bodies

section Results

inductive App
  | cat
  | wc
  | filter

def App.program : App → Program
  | .cat => Filters.cat
  | .wc => Filters.wc
  | .filter => Filters.filter

def App.act : App → List UInt8 → State → Option State
  | .cat => putLine fun _ ↦ true
  | .wc => fun _ ↦ Filters.wc.body fun _ ↦ 0
  | .filter => putLine (! isVowel ·)

def App.machine (app : App) : Machine State := Filters.machine app.program app.act

theorem App.acts (app : App) : Acts app.program app.act := by
  cases app with
  | cat => exact cat_acts
  | wc => exact wc_acts
  | filter => exact filter_acts

/-- What a program is to put out for a text. -/
def App.expected : App → List (List UInt8) → List UInt8
  | .cat, lines => text lines
  | .wc, lines => heading ++ decimal lines.length ++ [10]
  | .filter, lines => (text lines).filter (! isVowel ·)

def App.Handles : App → List (List UInt8) → Prop
  | .wc, lines => [] ∉ lines ∧ lines.length < 10 ^ 9
  | _, lines => [] ∉ lines

def App.Right (app : App) (lines : List (List UInt8)) (stage : Stage State) : Prop :=
  ∃ s, stage = .exited s ∧ s.output = app.expected lines

def shown (lines : List (List UInt8)) : List (List UInt8) := lines.takeWhile (· ≠ [])

variable {lines : List (List UInt8)} {s : State} {keep : UInt8 → Bool} {P : Program}

theorem shown_cons (line : List UInt8) :
    shown (line :: lines) = if line = [] then [] else line :: shown lines := by
  by_cases h : line = [] <;> simp [shown, h]

theorem shown_append (lines : List (List UInt8)) :
    ∃ rest, lines = shown lines ++ rest ∧ (rest = [] ↔ [] ∉ lines) := by
  induction lines with
  | nil => exact ⟨[], rfl, by simp⟩
  | cons line lines ih =>
    rw [shown_cons]
    by_cases h : line = []
    · exact ⟨line :: lines, by simp [h], by simp [h]⟩
    · obtain ⟨rest, hrest, hnil⟩ := ih
      refine ⟨rest, ?_, ?_⟩
      · rw [if_neg h, List.cons_append, ← hrest]
      · rw [hnil, List.mem_cons, not_or]
        exact ⟨fun hmem ↦ ⟨fun heq ↦ h heq.symm, hmem⟩, And.right⟩

theorem length_shown_iff (lines : List (List UInt8)) :
    (shown lines).length = lines.length ↔ [] ∉ lines := by
  obtain ⟨rest, hrest, hnil⟩ := shown_append lines
  have hlen := congrArg List.length hrest
  rw [List.length_append] at hlen
  rw [← hnil, ← List.length_eq_zero_iff]
  omega

theorem run_putLine (hfinish : P.finish = some) (hkeep : keep 10 = true) :
    (machine P (putLine keep)).run lines s =
      .exited (s.put ((text (shown lines)).filter keep)) := by
  induction lines generalizing s with
  | nil =>
    simp only [Machine.run, machine, hfinish]
    simp [shown, text, State.put]
  | cons line lines ih =>
    rw [Machine.run, shown_cons]
    split
    · simp only [machine, hfinish]
      simp [text, State.put]
    · have hact : (machine P (putLine keep)).act line s =
          some (s.put (line.filter keep ++ [10])) := rfl
      rw [hact, Option.elim_some, ih, put_put, text_cons, List.filter_append,
        List.filter_cons_of_pos hkeep, List.append_assoc, List.singleton_append]

theorem filter_text_shown_iff (hkeep : keep 10 = true) :
    (text (shown lines)).filter keep = (text lines).filter keep ↔ [] ∉ lines := by
  obtain ⟨rest, hrest, hnil⟩ := shown_append lines
  have hall : (text lines).filter keep =
      (text (shown lines)).filter keep ++ text (rest.map (List.filter keep)) := by
    conv_lhs => rw [hrest, text_append, List.filter_append, filter_text hkeep, filter_text hkeep]
    rw [filter_text hkeep]
  rw [hall, List.self_eq_append_right, ← hnil]
  constructor
  · intro htext
    have hlen := length_le_text (rest.map (List.filter keep))
    rw [htext, List.length_map] at hlen
    exact List.eq_nil_of_length_eq_zero (Nat.le_zero.mp hlen)
  · rintro rfl
    rfl

theorem putLine_right_iff (hfinish : P.finish = some) (hkeep : keep 10 = true) :
    (∃ s, (machine P (putLine keep)).run lines ⟨[], 0⟩ = .exited s ∧
      s.output = (text lines).filter keep) ↔ [] ∉ lines := by
  rw [run_putLine hfinish hkeep, ← filter_text_shown_iff hkeep]
  constructor
  · rintro ⟨s, hs, hout⟩
    cases hs
    exact hout
  · exact fun h ↦ ⟨_, rfl, h⟩

theorem run_wc (hn : s.n ≤ maxCount) : (App.machine .wc).run lines s =
    if s.n + (shown lines).length ≤ maxCount then
      (wc.finish { s with n := s.n + (shown lines).length }).elim .undefined .exited
    else .undefined := by
  have hfinish : (App.machine .wc).finish = wc.finish := rfl
  induction lines generalizing s with
  | nil => exact (if_pos hn).symm
  | cons line lines ih =>
    rw [Machine.run, shown_cons, hfinish]
    by_cases hline : line = []
    · rw [if_pos hline, if_pos hline]
      exact (if_pos hn).symm
    · have hact : (App.machine .wc).act line s =
          if s.n = maxCount then none else some { s with n := s.n + 1 } := rfl
      rw [if_neg hline, if_neg hline, hact, List.length_cons]
      by_cases hmax : s.n = maxCount
      · rw [if_pos hmax, if_neg (by omega)]
        rfl
      · have hnext := ih (s := { s with n := s.n + 1 }) (by simp only; omega)
        rw [if_neg hmax, Option.elim_some, hnext]
        simp only [Nat.add_assoc, Nat.add_comm 1]

theorem wc_finish (hs : s.n < 10 ^ 9) :
    wc.finish s = some (s.put (heading ++ decimal s.n ++ [10])) := by
  simp only [wc, printInt_spec, if_pos hs, Option.map_some, put_put, List.append_assoc]

theorem wc_finish_none (hs : ¬ s.n < 10 ^ 9) : wc.finish s = none := by
  simp only [wc, printInt_spec, if_neg hs, Option.map_none]

theorem wc_right_iff : App.Right .wc lines ((App.machine .wc).run lines ⟨[], 0⟩) ↔
    App.Handles .wc lines := by
  have hlen := length_shown_iff lines
  rw [run_wc (Nat.zero_le _), Nat.zero_add]
  simp only [App.Right, App.Handles, App.expected]
  by_cases hsmall : (shown lines).length < 10 ^ 9
  · have hcount : (shown lines).length ≤ maxCount := by
      unfold maxCount
      omega
    rw [if_pos hcount, wc_finish hsmall, Option.elim_some]
    constructor
    · rintro ⟨s, hs, hout⟩
      cases hs
      have heq : (shown lines).length = lines.length := by
        apply decimal_injective
        simpa [State.put] using hout
      exact ⟨hlen.mp heq, by omega⟩
    · intro ⟨hmem, _⟩
      refine ⟨_, rfl, ?_⟩
      rw [State.put, hlen.mpr hmem, List.nil_append]
  · have hrun : (if (shown lines).length ≤ maxCount then (wc.finish
        { (⟨[], 0⟩ : State) with n := (shown lines).length }).elim .undefined .exited
        else .undefined) = (.undefined : Stage State) := by
      rw [wc_finish_none hsmall]
      split <;> rfl
    rw [hrun]
    constructor
    · rintro ⟨s, hs, -⟩
      cases hs
    · intro ⟨hmem, hlt⟩
      have heq := hlen.mpr hmem
      omega

theorem run_right_iff (app : App) :
    app.Right lines (app.machine.run lines ⟨[], 0⟩) ↔ app.Handles lines := by
  cases app with
  | cat =>
    have h : (∃ s, (machine cat (putLine fun _ ↦ true)).run lines ⟨[], 0⟩ = .exited s ∧
        s.output = (text lines).filter fun _ ↦ true) ↔ [] ∉ lines := putLine_right_iff rfl rfl
    rw [List.filter_true] at h
    exact h
  | wc => exact wc_right_iff
  | filter => exact putLine_right_iff (P := filter) rfl (by decide)

end Results

end ShellOS.Userland.Filters
