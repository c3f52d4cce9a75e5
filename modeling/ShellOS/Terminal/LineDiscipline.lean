import Mathlib.Data.List.Basic
import ShellOS.Terminal.Read

namespace ShellOS.Terminal.LineDiscipline

open NaiveConsole Read Function

inductive Effect
  | keep
  | insert (c : UInt8)
  | erase
  | finish
  | fail
  | exit
  | hang

def echo (source : Source) (g : Tty) (c : UInt8) : Tty :=
  match source with
  | .pipe => g
  | .keyboard => { g with console := put (scrollDown g.console) c }

def control (source : Source) (g : Tty) (started : Bool) (key : UInt8) : Option (Tty × Effect) :=
  if key = 255 then some (g, .fail)
  else if key = 0 then
    match source with
    | .keyboard => some (g, .keep)
    | .pipe => some (g, .finish)
  else if key = 10 then
    match source with
    | .pipe => some (g, .finish)
    | .keyboard =>
      match ncNewline g.console with
      | none => some (g, .hang)
      | some console => some ({ g with console := console }, .finish)
  else if key = 8 then
    if started then
      let r := ncBackspace g.console
      some ({ g with console := r.1 }, if r.2 then .erase else .keep)
    else some (g, .keep)
  else if key = 17 then some (g, .keep)
  else if key = 18 then some (g, .exit)
  else if key = 19 then some (g, .fail)
  else if key = 11 ∨ key = 14 ∨ key = 15 ∨ key = 0xAA ∨ key = 0xB6 then
    some ({ g with mayus := !g.mayus }, .keep)
  else none

/-- A key that is not a control code is typed, as the modifiers have it. -/
def effect (source : Source) (g : Tty) (started : Bool) (key : UInt8) : Tty × Effect :=
  (control source g started key).getD
    (echo source g (shifted g.mayus key), .insert (shifted g.mayus key))

/-- A call of `read` as an editor of a line: the keys are used up, the line is
ended by a key or has as many bytes as it may, or there is no line. -/
inductive Ending
  | waits (text : List UInt8)
  | line (text : List UInt8)
  | full (text : List UInt8)
  | failed
  | exited
  | hangs
  | overflow

def editLoop (source : Source) (limit : ℤ) : List Turn → Tty → List UInt8 → Ending
  | [], _, text => if goesOn limit text.length then .waits text else .full text
  | turn :: turns, g, text =>
    if goesOn limit text.length then
      match effect source (turn.others g) (text.length > 0) turn.key with
      | (g, .keep) => editLoop source limit turns g text
      | (g, .insert c) =>
        if text.length = maxCount then .overflow else editLoop source limit turns g (text ++ [c])
      | (g, .erase) => editLoop source limit turns g text.dropLast
      | (_, .finish) => .line text
      | (_, .fail) => .failed
      | (_, .exit) => .exited
      | (_, .hang) => .hangs
    else .full text

/-- A process in the background gets an empty line for the keyboard. -/
def edit (priority : ℕ) (source : Source) (limit : ℤ) (turns : List Turn) (g : Tty) : Ending :=
  match source with
  | .keyboard => if priority ≠ 1 then .line [] else editLoop source limit turns g []
  | .pipe => editLoop source limit turns g []

/-- The line is not longer than 100 bytes when it is ended, and at no time
longer than an `int` can count. -/
def Ending.Fits : Ending → Prop
  | .line text | .full text => text.length ≤ 100
  | .overflow => False
  | _ => True

def push (l : Line) (c : UInt8) : Line :=
  { (if l.count < 100 then l.store l.count c else l) with count := l.count + 1 }

def Effect.apply (g : Tty) (l : Line) : Effect → Outcome
  | .keep => .more g l
  | .insert c => if l.count = maxCount then .undefined else .more g (push l c)
  | .erase => .more g { l with count := l.count - 1 }
  | .finish => endLine g l
  | .fail => .returned g l (-1)
  | .exit => .exited g l
  | .hang => .hangs l

variable {source : Source} {g : Tty} {l : Line} {key : UInt8}

theorem toNat_upper (h : key ≥ 97) : (key - (97 - 65)).toNat = key.toNat - 32 := by
  have hle : 97 ≤ key.toNat := UInt8.le_iff_toNat_le.mp h
  exact UInt8.toNat_sub_of_le key 32 (UInt8.le_iff_toNat_le.mpr (Nat.le_trans (by decide) hle))

theorem upper_ne (h : key ≥ 97) :
    key - (97 - 65) ≠ 10 ∧ key - (97 - 65) ≠ 54 ∧ key - (97 - 65) ≠ key := by
  have hle : 97 ≤ key.toNat := UInt8.le_iff_toNat_le.mp h
  have hupper := toNat_upper h
  refine ⟨fun heq ↦ ?_, fun heq ↦ ?_, fun heq ↦ ?_⟩
  · rw [heq] at hupper
    change 10 = _ at hupper
    omega
  · rw [heq] at hupper
    change 54 = _ at hupper
    omega
  · rw [heq] at hupper
    omega

theorem shifted_ne_newline (mayus : Bool) (h : key ≠ 10) : shifted mayus key ≠ 10 := by
  simp only [shifted]
  by_cases hletter : mayus ∧ key ≥ 97 ∧ key ≤ 122
  · rw [if_pos hletter]
    split
    · decide
    · exact (upper_ne hletter.2.1).1
  · rw [if_neg hletter]
    split
    · decide
    · exact h

theorem character_effect (h : key ≠ 10) : character source g l key =
    Effect.apply (echo source g (shifted g.mayus key)) l (.insert (shifted g.mayus key)) := by
  have hcount : (if l.count < 100 then l.store l.count (shifted g.mayus key) else l).count =
      l.count := by
    split <;> rfl
  have hprint : ncPrintChar g.console (shifted g.mayus key) =
      some (put (scrollDown g.console) (shifted g.mayus key)) :=
    if_neg (shifted_ne_newline _ h)
  simp only [character, Effect.apply, hcount]
  split
  · rfl
  · cases source with
    | pipe => simp only [push, echo]
    | keyboard => simp only [push, echo, hprint]

theorem decode_effect : decode source g l key =
    Effect.apply (effect source g (l.count > 0) key).1 l (effect source g (l.count > 0) key).2 := by
  unfold decode effect control
  split
  · rfl
  split
  · cases source <;> rfl
  split
  · cases source with
    | pipe => rfl
    | keyboard =>
      simp only [newline]
      cases ncNewline g.console <;> rfl
  rename_i h10
  split
  · by_cases hstarted : l.count > 0
    · simp only [backspace, if_pos hstarted, decide_eq_true hstarted, if_true, Option.getD_some]
      cases (ncBackspace g.console).2 <;> rfl
    · simp [backspace, hstarted, Effect.apply]
  split
  · rfl
  split
  · rfl
  split
  · rfl
  split
  · rfl
  · exact character_effect h10

def Printable (c : UInt8) : Prop := 32 ≤ c ∧ c ≤ 126

instance (c : UInt8) : Decidable (Printable c) := inferInstanceAs (Decidable (_ ∧ _))

theorem effect_printable {started : Bool} (h : Printable key) : effect source g started key =
    (echo source g (shifted g.mayus key), .insert (shifted g.mayus key)) := by
  have hne : ∀ k, ¬ Printable k → key ≠ k := fun k hk heq ↦ hk (heq ▸ h)
  have htoggle : ¬ (key = 11 ∨ key = 14 ∨ key = 15 ∨ key = 0xAA ∨ key = 0xB6) := by
    rintro (heq | heq | heq | heq | heq)
    all_goals exact hne _ (by decide) heq
  unfold effect control
  rw [if_neg (hne 255 (by decide)), if_neg (hne 0 (by decide)), if_neg (hne 10 (by decide)),
    if_neg (hne 8 (by decide)), if_neg (hne 17 (by decide)), if_neg (hne 18 (by decide)),
    if_neg (hne 19 (by decide)), if_neg htoggle]
  rfl

theorem decode_printable (h : Printable key) (hcount : l.count < maxCount) :
    decode .pipe g l key = .more g (push l (shifted g.mayus key)) := by
  rw [decode_effect, effect_printable h]
  exact if_neg (Nat.ne_of_lt hcount)

/-- The buffer shows the line `text`: its first 100 bytes are there. -/
structure Shows (limit : ℤ) (l : Line) (text : List UInt8) : Prop where
  count : l.count = text.length
  bytes : ∀ i c, i < 100 → text[i]? = some c → l.buf i = c ∧ (i, c) ∈ l.stores
  inside : ∀ e ∈ l.stores, e.1 < 100 ∧ (limit ≠ -1 → (e.1 : ℤ) ≤ limit)
  within : limit ≠ -1 → (text.length : ℤ) ≤ limit

variable {limit : ℤ} {text : List UInt8}

theorem Shows.start (hlimit : limit = -1 ∨ 1 ≤ limit) (buf : ℕ → UInt8) :
    Shows limit ⟨0, buf, []⟩ [] := by
  refine ⟨rfl, by simp, by simp, fun h ↦ ?_⟩
  rw [List.length_nil]
  omega

theorem Shows.push (h : Shows limit l text) (hroom : goesOn limit l.count = true) (c : UInt8) :
    Shows limit (push l c) (text ++ [c]) := by
  have hcount := h.count
  have hlt : limit ≠ -1 → (l.count : ℤ) < limit := by
    simp only [goesOn, decide_eq_true_eq] at hroom
    omega
  refine ⟨?_, fun i d hi hd ↦ ?_, ?_, fun hgiven ↦ ?_⟩
  · rw [List.length_append, ← hcount]
    rfl
  · rw [List.getElem?_append] at hd
    unfold LineDiscipline.push
    split
    · by_cases hlast : i = l.count
      · have hdc : c = d := by simpa [hlast, hcount] using hd
        simp [Line.store, hlast, hdc]
      · have hin : i < text.length := by
          by_contra hout
          rw [if_neg hout, List.getElem?_singleton, if_neg (by omega)] at hd
          cases hd
        rw [if_pos hin] at hd
        obtain ⟨hbuf, hmem⟩ := h.bytes i d hi hd
        simp [Line.store, update_of_ne hlast, hbuf, hmem]
    · rw [if_pos (by omega)] at hd
      exact h.bytes i d hi hd
  · unfold LineDiscipline.push
    split
    · intro e he
      rcases List.mem_append.mp he with he | he
      · exact h.inside e he
      · rw [List.mem_singleton.mp he]
        exact ⟨by assumption, fun hgiven ↦ (hlt hgiven).le⟩
    · exact h.inside
  · have hle := hlt hgiven
    rw [List.length_append, List.length_singleton]
    omega

theorem Shows.erase (h : Shows limit l text) :
    Shows limit { l with count := l.count - 1 } text.dropLast := by
  refine ⟨?_, fun i c hi hc ↦ h.bytes i c hi ?_, h.inside, fun hgiven ↦ ?_⟩
  · rw [List.length_dropLast, ← h.count]
  · rw [List.getElem?_dropLast] at hc
    split at hc
    · exact hc
    · cases hc
  · have hle := h.within hgiven
    rw [List.length_dropLast]
    omega

inductive Matches (limit : ℤ) : Outcome → Ending → Prop
  | waits {g : Tty} {l : Line} {text : List UInt8} :
      Shows limit l text → Matches limit (.more g l) (.waits text)
  | line {g : Tty} {l : Line} {text : List UInt8} :
      Shows limit l text → goesOn limit l.count = true →
      Matches limit (.returned g (l.store l.count 0) l.count) (.line text)
  | full {g : Tty} {l : Line} {text : List UInt8} :
      Shows limit l text →
      Matches limit (.returned g (l.store l.count 0) (if l.count ≥ 100 then 100 else l.count))
        (.full text)
  | failed {g : Tty} {l : Line} {text : List UInt8} :
      Shows limit l text → Matches limit (.returned g l (-1)) .failed
  | exited {g : Tty} {l : Line} {text : List UInt8} :
      Shows limit l text → Matches limit (.exited g l) .exited
  | hangs {l : Line} {text : List UInt8} : Shows limit l text → Matches limit (.hangs l) .hangs
  | overflow : Matches limit .undefined .overflow

theorem readLoop_matches {turns : List Turn} (h : Shows limit l text) :
    Matches limit (readLoop source limit turns g l) (editLoop source limit turns g text) := by
  induction turns generalizing g l text with
  | nil =>
    rw [readLoop, editLoop, ← h.count]
    split
    · exact .waits h
    · exact .full h
  | cons turn turns ih =>
    rw [readLoop, editLoop, ← h.count, decode_effect]
    split
    · rename_i hroom
      obtain ⟨g', e⟩ := effect source (turn.others g) (l.count > 0) turn.key
      cases e with
      | keep => exact ih h
      | insert c =>
        simp only [Effect.apply]
        split
        · exact .overflow
        · exact ih (h.push hroom c)
      | erase => exact ih h.erase
      | finish => exact .line h hroom
      | fail => exact .failed h
      | exit => exact .exited h
      | hang => exact .hangs h
    · exact .full h

def InBuffer (limit : ℤ) (l : Line) : Prop :=
  ∀ e ∈ l.stores, e.1 ≤ 100 ∧ (limit ≠ -1 → (e.1 : ℤ) ≤ limit)

def Safe (limit : ℤ) : Outcome → Prop
  | .returned _ l ret =>
    InBuffer limit l ∧
      (0 ≤ ret → ret ≤ 100 ∧ l.buf ret.toNat = 0 ∧ ∀ i < ret.toNat, (i, l.buf i) ∈ l.stores)
  | .more _ l | .exited _ l | .hangs l => InBuffer limit l
  | .undefined => False

theorem Shows.inBuffer (h : Shows limit l text) : InBuffer limit l :=
  fun e he ↦ ⟨(h.inside e he).1.le, (h.inside e he).2⟩

theorem Shows.prefix_eq (h : Shows limit l text) (hlen : text.length ≤ 100) :
    (List.range text.length).map l.buf = text := by
  apply List.ext_getElem?
  intro i
  by_cases hi : i < text.length
  · obtain ⟨c, hc⟩ : ∃ c, text[i]? = some c := ⟨_, List.getElem?_eq_getElem hi⟩
    have hbuf := (h.bytes i c (by omega) hc).1
    rw [List.getElem?_map, List.getElem?_range hi, Option.map_some, hbuf, hc]
  · rw [List.getElem?_eq_none (by simpa using hi), List.getElem?_eq_none (by omega)]

theorem Shows.ended (h : Shows limit l text) (hlen : text.length ≤ 100) :
    Safe limit (.returned g (l.store l.count 0) l.count) := by
  have hcount := h.count
  refine ⟨fun e he ↦ ?_, fun _ ↦ ⟨by omega, by simp [Line.store], fun i hi ↦ ?_⟩⟩
  · rcases List.mem_append.mp he with he | he
    · exact h.inBuffer e he
    · rw [List.mem_singleton.mp he, hcount]
      exact ⟨hlen, h.within⟩
  · rw [Int.toNat_natCast] at hi
    obtain ⟨c, hc⟩ : ∃ c, text[i]? = some c := ⟨_, List.getElem?_eq_getElem (by omega)⟩
    obtain ⟨hbuf, hmem⟩ := h.bytes i c (by omega) hc
    have hne : i ≠ l.count := by omega
    simp only [Line.store, update_of_ne hne, hbuf]
    exact List.mem_append_left _ hmem

theorem not_inBuffer_store (hlen : 100 < l.count) : ¬ InBuffer limit (l.store l.count 0) := by
  intro h
  have hle := (h (l.count, 0) (by simp [Line.store])).1
  exact absurd hlen (by omega)

theorem Matches.safe_iff {out : Outcome} {ending : Ending} (h : Matches limit out ending) :
    Safe limit out ↔ ending.Fits := by
  cases h with
  | waits h | failed h | exited h | hangs h => simpa [Safe, Ending.Fits] using h.inBuffer
  | @line g l text h hroom =>
    refine ⟨fun hsafe ↦ ?_, fun hfits ↦ h.ended hfits⟩
    by_contra hlong
    have hcount := h.count
    simp only [Ending.Fits] at hlong
    exact not_inBuffer_store (by omega) hsafe.1
  | @full g l text h =>
    have hcount := h.count
    constructor
    · intro hsafe
      by_contra hlong
      simp only [Ending.Fits] at hlong
      exact not_inBuffer_store (by omega) hsafe.1
    · intro hfits
      simp only [Ending.Fits] at hfits
      have hret : (if l.count ≥ 100 then (100 : ℤ) else l.count) = l.count := by
        split <;> omega
      rw [hret]
      exact h.ended hfits
  | overflow => rfl

/-- `read` stays inside its buffer exactly if the line has at most 100 bytes
when it is ended. -/
theorem read_safe_iff {priority : ℕ} {turns : List Turn} {buf : ℕ → UInt8}
    (hlimit : limit = -1 ∨ 1 ≤ limit) :
    Safe limit (Read.read priority source limit turns g buf) ↔
      (edit priority source limit turns g).Fits := by
  have hstart := Shows.start hlimit buf
  cases source with
  | pipe => exact (readLoop_matches hstart).safe_iff
  | keyboard =>
    simp only [Read.read, edit]
    split
    · simpa [Ending.Fits] using hstart.ended (g := g) (Nat.zero_le 100)
    · exact (readLoop_matches hstart).safe_iff

def bootTty : Tty := ⟨false, ⟨fun _ ↦ 0, 0, false⟩⟩

def Turn.alone (key : UInt8) : Turn := ⟨id, key⟩

theorem read_safe_two_keys :
    Safe (-1) (Read.read 3 .pipe (-1) [Turn.alone 97, Turn.alone 10] bootTty fun _ ↦ 0) := by
  have hedit : edit 3 .pipe (-1) [Turn.alone 97, Turn.alone 10] bootTty = .line [97] := rfl
  rw [read_safe_iff (Or.inl rfl), hedit]
  simp [Ending.Fits]

theorem editLoop_printable {turns : List Turn} {typed : List UInt8} (h : ∀ c ∈ typed, Printable c)
    (hlen : text.length + typed.length ≤ maxCount) :
    editLoop .pipe (-1) (typed.map Turn.alone ++ turns) g text =
      editLoop .pipe (-1) turns g (text ++ typed.map (shifted g.mayus)) := by
  induction typed generalizing text with
  | nil => simp
  | cons c typed ih =>
    rw [List.forall_mem_cons] at h
    rw [List.length_cons] at hlen
    have hroom : goesOn (-1) text.length = true := by simp [goesOn]
    have hcount : text.length ≠ maxCount := by omega
    rw [List.map_cons, List.cons_append, editLoop, if_pos hroom]
    simp only [Turn.alone, id_eq, effect_printable h.1, echo, if_neg hcount]
    rw [ih h.2 (by rw [List.length_append, List.length_singleton]; omega), List.map_cons,
      List.append_assoc, List.singleton_append]

/-- A line of 101 letters: the NUL goes behind the shell's buffer. -/
theorem long_line_overruns : ¬ ∀ (priority : ℕ) (source : Source) (limit : ℤ) (turns : List Turn)
    (g : Tty) (buf : ℕ → UInt8), limit = -1 ∨ 1 ≤ limit →
      Safe limit (Read.read priority source limit turns g buf) := by
  intro hsafe
  obtain ⟨typed, hlen, hprintable⟩ :
      ∃ typed : List UInt8, typed.length = 101 ∧ ∀ c ∈ typed, Printable c := by
    refine ⟨List.replicate 101 97, List.length_replicate, fun c hc ↦ ?_⟩
    rw [List.eq_of_mem_replicate hc]
    decide
  have hcount : ([] : List UInt8).length + typed.length ≤ maxCount := by
    rw [hlen]
    decide
  let turns := typed.map Turn.alone ++ [Turn.alone 10]
  have hmatches : Matches (-1) (readLoop .pipe (-1) turns bootTty ⟨0, fun _ ↦ 0, []⟩)
      (editLoop .pipe (-1) turns bootTty []) := readLoop_matches (.start (Or.inl rfl) _)
  rw [editLoop_printable hprintable hcount] at hmatches
  have hfits := hmatches.safe_iff.mp (hsafe 3 .pipe (-1) _ bootTty _ (Or.inl rfl))
  have hle : (typed.map (shifted false)).length ≤ 100 := hfits
  rw [List.length_map, hlen] at hle
  exact absurd hle (by decide)

end ShellOS.Terminal.LineDiscipline
