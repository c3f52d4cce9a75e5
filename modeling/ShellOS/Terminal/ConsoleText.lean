import Mathlib.Data.List.GetD
import ShellOS.Terminal.NaiveConsole

namespace ShellOS.Terminal.ConsoleText

open Library.Links NaiveConsole Function

def displayCursor (c : Console) : Console :=
  if c.cursor then deleteCursor c
  else { c with video := update c.video c.currentVideo 0x5F, cursor := true }

/-- The string is its bytes up to the NUL. -/
def ncPrint (c : Console) (string : List UInt8) : Option Console := string.foldlM ncPrintChar c

def ncClear (c : Console) : Console :=
  { c with
    video := (List.range (height * width)).foldl (fun video i ↦ update video (i * 2) 0x20) c.video
    currentVideo := 0 }

inductive Op
  | printChar (character : UInt8)
  | print (string : List UInt8)
  | newline
  | backspace
  | displayCursor
  | deleteCursor
  | clear

def perform (c : Console) : Op → Option Console
  | .printChar character => ncPrintChar c character
  | .print string => ncPrint c string
  | .newline => ncNewline c
  | .backspace => some (ncBackspace c).1
  | .displayCursor => some (ConsoleText.displayCursor c)
  | .deleteCursor => some (NaiveConsole.deleteCursor c)
  | .clear => some (ncClear c)

def boot (video : ℕ → UInt8) : Console := ⟨video, 0, false⟩

/-- `currentVideo` is at a cell of the screen or of the row below the last one
that is written, and the bytes outside of the video area are those of
`video`. -/
structure Within (video : ℕ → UInt8) (c : Console) : Prop where
  even : c.currentVideo % 2 = 0
  le : c.currentVideo ≤ 24 * 160
  outside : ∀ o, 80 * 25 * 2 ≤ o → c.video o = video o

def newline (T : List UInt8) : List UInt8 := T ++ List.replicate (80 - T.length % 80) 0x20

def cells (string : List UInt8) : List UInt8 :=
  string.foldl (fun T character ↦ if character = 10 then newline T else T ++ [character]) []

/-- How many rows of so many cells are above the screen. -/
def above (length : ℕ) : ℕ := (length - 1) / 80 - 23

/-- The console shows the tail of the cells `T`, and blanks after it. -/
structure Shows (T : List UInt8) (c : Console) : Prop where
  at_end : c.currentVideo = 2 * (T.length - 80 * above T.length)
  cell : ∀ i < 80 * 25, c.video (2 * i) = T.getD (80 * above T.length + i) 0x20

variable {video : ℕ → UInt8} {c c' : Console} {T : List UInt8} {b : UInt8} {i n o : ℕ}

section Scroll

theorem setCell_apply (video : ℕ → UInt8) (i : ℕ) (low high : UInt8) (o : ℕ) :
    setCell video i low high o =
      if o = 2 * i + 1 then high else if o = 2 * i then low else video o := by
  unfold setCell
  rw [update_apply, update_apply]

theorem move_apply (n : ℕ) (video : ℕ → UInt8) (o : ℕ) :
    (List.range n).foldl (fun video i ↦
        setCell video i (video (2 * (i + width))) (video (2 * (i + width) + 1))) video o =
      if o < 2 * n then video (o + 160) else video o := by
  induction n generalizing o with
  | zero => simp
  | succ n ih =>
    have hlow : ¬ 2 * (n + width) < 2 * n := by omega
    have hhigh : ¬ 2 * (n + width) + 1 < 2 * n := by omega
    rw [List.range_succ, List.foldl_append, List.foldl_cons, List.foldl_nil, setCell_apply,
      ih, ih, ih, if_neg hlow, if_neg hhigh]
    by_cases hsecond : o = 2 * n + 1
    · rw [if_pos hsecond, if_pos (by omega), hsecond]
      rfl
    rw [if_neg hsecond]
    by_cases hfirst : o = 2 * n
    · rw [if_pos hfirst, if_pos (by omega), hfirst]
      rfl
    · have hlt : o < 2 * n ↔ o < 2 * (n + 1) := by omega
      rw [if_neg hfirst]
      simp only [hlt]

theorem moveRows_apply (video : ℕ → UInt8) (o : ℕ) :
    moveRows video o = if o < 24 * 160 then video (o + 160) else video o :=
  move_apply (width * (height - 1)) video o

theorem clear_apply (s n : ℕ) (video : ℕ → UInt8) (o : ℕ) :
    (List.range' s n).foldl (fun video i ↦ setCell video i 0x20 0x07) video o =
      if 2 * s ≤ o ∧ o < 2 * (s + n) then if o % 2 = 0 then 0x20 else 0x07 else video o := by
  induction n generalizing o with
  | zero => simp
  | succ n ih =>
    rw [List.range'_1_concat, List.foldl_append, List.foldl_cons, List.foldl_nil, setCell_apply, ih]
    by_cases hsecond : o = 2 * (s + n) + 1
    · rw [if_pos hsecond, if_pos (by omega), if_neg (by omega)]
    rw [if_neg hsecond]
    by_cases hfirst : o = 2 * (s + n)
    · rw [if_pos hfirst, if_pos (by omega), if_pos (by omega)]
    · have hin : 2 * s ≤ o ∧ o < 2 * (s + n) ↔ 2 * s ≤ o ∧ o < 2 * (s + (n + 1)) := by omega
      rw [if_neg hfirst]
      simp only [hin]

theorem clearRow_apply (video : ℕ → UInt8) (o : ℕ) :
    clearRow video o =
      if 24 * 160 ≤ o ∧ o < 25 * 160 then if o % 2 = 0 then 0x20 else 0x07 else video o :=
  clear_apply (width * (height - 1)) width video o

theorem blank_apply (n : ℕ) (video : ℕ → UInt8) (o : ℕ) :
    (List.range n).foldl (fun video i ↦ update video (i * 2) 0x20) video o =
      if o < 2 * n ∧ o % 2 = 0 then 0x20 else video o := by
  induction n generalizing o with
  | zero => simp
  | succ n ih =>
    rw [List.range_succ, List.foldl_append, List.foldl_cons, List.foldl_nil, update_apply, ih]
    by_cases hlast : o = n * 2
    · rw [if_pos hlast, if_pos (by omega)]
    · have hin : o < 2 * n ∧ o % 2 = 0 ↔ o < 2 * (n + 1) ∧ o % 2 = 0 := by omega
      rw [if_neg hlast]
      simp only [hin]

theorem ncClear_video (c : Console) (o : ℕ) :
    (ncClear c).video o = if o < 2 * (25 * 80) ∧ o % 2 = 0 then 0x20 else c.video o := by
  unfold ncClear
  dsimp only
  rw [blank_apply]
  rfl

theorem scrollDown_above (h : c.currentVideo < 24 * 160) : scrollDown c = c := by
  unfold scrollDown width height
  exact if_pos (by omega)

theorem scrollDown_below (h : c.currentVideo = 24 * 160) :
    scrollDown c = { c with video := clearRow (moveRows c.video), currentVideo := 23 * 160 } := by
  unfold scrollDown width height
  rw [if_neg (by omega), h]

theorem scrollDown_le (h : c.currentVideo ≤ 24 * 160) :
    (scrollDown c).currentVideo < 24 * 160 := by
  rcases Nat.lt_or_eq_of_le h with hlt | heq
  · rwa [scrollDown_above hlt]
  · rw [scrollDown_below heq]
    change 23 * 160 < 24 * 160
    decide

end Scroll

section Within

theorem within_boot (video : ℕ → UInt8) : Within video (boot video) :=
  ⟨rfl, Nat.zero_le _, fun _ _ ↦ rfl⟩

theorem Within.foldlM {α : Type} {f : Console → α → Option Console}
    (hf : ∀ c, Within video c → ∀ a, ∃ c', f c a = some c' ∧ Within video c')
    (h : Within video c) (l : List α) : ∃ c', l.foldlM f c = some c' ∧ Within video c' := by
  induction l generalizing c with
  | nil => exact ⟨c, rfl, h⟩
  | cons a l ih =>
    obtain ⟨c₁, hfirst, h₁⟩ := hf c h a
    obtain ⟨c', hrest, h'⟩ := ih h₁
    refine ⟨c', ?_, h'⟩
    rw [List.foldlM_cons, hfirst]
    exact hrest

theorem Within.scroll (h : Within video c) : Within video (scrollDown c) := by
  rcases Nat.lt_or_eq_of_le h.le with hlt | heq
  · rwa [scrollDown_above hlt]
  · rw [scrollDown_below heq]
    refine ⟨(by decide : 23 * 160 % 2 = 0), (by decide : 23 * 160 ≤ 24 * 160), fun o ho ↦ ?_⟩
    change clearRow (moveRows c.video) o = video o
    rw [clearRow_apply, if_neg (by omega), moveRows_apply, if_neg (by omega), h.outside o ho]

theorem Within.put (h : Within video c) (hlt : c.currentVideo < 24 * 160) (b : UInt8) :
    Within video (put c b) := by
  have heven := h.even
  refine ⟨?_, ?_, fun o ho ↦ ?_⟩
  · change (c.currentVideo + 2) % 2 = 0
    omega
  · change c.currentVideo + 2 ≤ 24 * 160
    omega
  · change update c.video c.currentVideo b o = video o
    rw [update_of_ne (by omega), h.outside o ho]

theorem Within.printBlank (h : Within video c) : Within video (printBlank c) :=
  h.scroll.put (scrollDown_le h.le) 0x20

theorem Within.seek (h : Within video c)
    (hseek : seek AtMargin NaiveConsole.printBlank n c = some c') : Within video c' := by
  induction n generalizing c with
  | zero => cases hseek
  | succ n ih =>
    rw [Library.Links.seek] at hseek
    split at hseek
    · cases hseek
      exact h
    · exact ih h.printBlank hseek

theorem Within.newline (h : Within video c) : ∃ c', ncNewline c = some c' ∧ Within video c' := by
  obtain ⟨c', hnewline⟩ := ncNewline_ends h.even
  exact ⟨c', hnewline, h.printBlank.seek hnewline⟩

theorem Within.printChar (h : Within video c) (b : UInt8) :
    ∃ c', ncPrintChar c b = some c' ∧ Within video c' := by
  unfold ncPrintChar
  split
  · exact h.scroll.newline
  · exact ⟨_, rfl, h.scroll.put (scrollDown_le h.le) b⟩

theorem Within.print (h : Within video c) (string : List UInt8) :
    ∃ c', ncPrint c string = some c' ∧ Within video c' :=
  Within.foldlM (fun _ hc b ↦ hc.printChar b) h string

theorem Within.store (h : Within video c) (b : UInt8) (cursor : Bool) :
    Within video { c with video := update c.video c.currentVideo b, cursor := cursor } := by
  have hle := h.le
  refine ⟨h.even, h.le, fun o ho ↦ ?_⟩
  change update c.video c.currentVideo b o = video o
  rw [update_of_ne (by omega), h.outside o ho]

theorem Within.backspace (h : Within video c) : Within video (ncBackspace c).1 := by
  unfold ncBackspace
  split
  · rename_i hsome
    have heven := h.even
    have hle := h.le
    refine ⟨?_, ?_, fun o ho ↦ ?_⟩
    · change (c.currentVideo - 2) % 2 = 0
      omega
    · change c.currentVideo - 2 ≤ 24 * 160
      omega
    · change update (update (update c.video c.currentVideo 0x20) (c.currentVideo - 1) 0x07)
        (c.currentVideo - 2) 0 o = video o
      rw [update_of_ne (by omega), update_of_ne (by omega), update_of_ne (by omega),
        h.outside o ho]
  · exact h

theorem Within.clear (h : Within video c) : Within video (ncClear c) := by
  refine ⟨rfl, Nat.zero_le _, fun o ho ↦ ?_⟩
  rw [ncClear_video, if_neg (by omega), h.outside o ho]

theorem Within.perform (h : Within video c) (op : Op) :
    ∃ c', perform c op = some c' ∧ Within video c' := by
  cases op with
  | printChar b => exact h.printChar b
  | print string => exact h.print string
  | newline => exact h.newline
  | backspace => exact ⟨_, rfl, h.backspace⟩
  | displayCursor =>
    refine ⟨_, rfl, ?_⟩
    unfold ConsoleText.displayCursor
    split
    · exact h.store 0x20 false
    · exact h.store 0x5F true
  | deleteCursor => exact ⟨_, rfl, h.store 0x20 false⟩
  | clear => exact ⟨_, rfl, h.clear⟩

end Within

section Shows

theorem above_le (n : ℕ) : 80 * above n ≤ n ∧ n - 80 * above n ≤ 24 * 80 := by
  unfold above
  omega

theorem above_room (h : n - 80 * above n < 24 * 80) : above (n + 1) = above n := by
  unfold above at *
  omega

theorem above_full (h : n - 80 * above n = 24 * 80) : above (n + 1) = above n + 1 := by
  unfold above at *
  omega

theorem getD_snoc (T : List UInt8) (b : UInt8) (j : ℕ) :
    (T ++ [b]).getD j 0x20 = if j = T.length then b else T.getD j 0x20 := by
  rcases Nat.lt_trichotomy j T.length with hlt | heq | hgt
  · rw [List.getD_append T [b] 0x20 j hlt, if_neg (Nat.ne_of_lt hlt)]
  · rw [List.getD_append_right T [b] 0x20 j (Nat.le_of_eq heq.symm), heq, Nat.sub_self, if_pos rfl]
    rfl
  · rw [List.getD_eq_default _ _ (by rw [List.length_append, List.length_singleton]; exact hgt),
      List.getD_eq_default _ _ (Nat.le_of_lt hgt), if_neg (Nat.ne_of_gt hgt)]

theorem Shows.le (h : Shows T c) : c.currentVideo ≤ 24 * 160 := by
  have habove := above_le T.length
  have hend := h.at_end
  omega

theorem Shows.put_room (h : Shows T c) (hroom : c.currentVideo < 24 * 160) :
    Shows (T ++ [b]) (put c b) := by
  have hlast := (above_le T.length).1
  have hend := h.at_end
  have hsame : above (T.length + 1) = above T.length := above_room (by omega)
  constructor
  · change c.currentVideo + 2 = _
    rw [List.length_append, List.length_singleton, hsame]
    omega
  · intro i hi
    change update c.video c.currentVideo b (2 * i) = _
    rw [List.length_append, List.length_singleton, hsame, getD_snoc]
    by_cases hhere : i = T.length - 80 * above T.length
    · rw [if_pos (by omega), hhere, ← hend, update_self]
    · rw [if_neg (by omega), update_of_ne (by omega), h.cell i hi]

theorem Shows.put_full (h : Shows T c) (hfull : c.currentVideo = 24 * 160) :
    Shows (T ++ [b]) (put (scrollDown c) b) := by
  have hlast := (above_le T.length).1
  have hend := h.at_end
  have hnext : above (T.length + 1) = above T.length + 1 := above_full (by omega)
  rw [scrollDown_below hfull]
  constructor
  · change 23 * 160 + 2 = _
    rw [List.length_append, List.length_singleton, hnext]
    omega
  · intro i hi
    change update (clearRow (moveRows c.video)) (23 * 160) b (2 * i) = _
    rw [List.length_append, List.length_singleton, hnext, getD_snoc]
    by_cases hhere : i = 23 * 80
    · rw [if_pos (by omega), hhere]
      exact update_self _ _ _
    rw [if_neg (by omega), update_of_ne (by omega), clearRow_apply]
    by_cases hrow : 24 * 80 ≤ i
    · rw [if_pos (by omega), if_pos (by omega), List.getD_eq_default _ _ (by omega)]
    · have hcell : 2 * i + 160 = 2 * (i + 80) := by omega
      have hindex : 80 * above T.length + (i + 80) = 80 * (above T.length + 1) + i := by omega
      rw [if_neg (by omega), moveRows_apply, if_pos (by omega), hcell, h.cell _ (by omega), hindex]

theorem Shows.put (h : Shows T c) : Shows (T ++ [b]) (put (scrollDown c) b) := by
  rcases Nat.lt_or_eq_of_le h.le with hroom | hfull
  · rw [scrollDown_above hroom]
    exact h.put_room hroom
  · exact h.put_full hfull

theorem Shows.atMargin (h : Shows T c) : AtMargin c = true ↔ T.length % 80 = 0 := by
  have hend := h.at_end
  have hlast := (above_le T.length).1
  unfold AtMargin width
  rw [decide_eq_true_iff]
  omega

theorem Shows.blanks (h : Shows T c) (hmargin : (T.length + n) % 80 = 0) (hn : n < 80) :
    ∃ c', seek AtMargin printBlank (n + 1) c = some c' ∧
      Shows (T ++ List.replicate n 0x20) c' := by
  induction n generalizing T c with
  | zero =>
    refine ⟨c, ?_, by simpa using h⟩
    rw [seek, if_pos (h.atMargin.mpr hmargin)]
  | succ n ih =>
    have hnot : ¬ AtMargin c = true := by
      rw [h.atMargin]
      omega
    have hblank : Shows (T ++ [0x20]) (printBlank c) := h.put
    obtain ⟨c', hseek, h'⟩ := ih hblank (by simp; omega) (by omega)
    refine ⟨c', ?_, ?_⟩
    · rw [seek, if_neg hnot, hseek]
    · rwa [List.append_assoc, List.singleton_append, ← List.replicate_succ] at h'

theorem Shows.newline (h : Shows T c) :
    ∃ c', ncNewline c = some c' ∧ Shows (newline T) c' := by
  have hblank : Shows (T ++ [0x20]) (printBlank c) := h.put
  obtain ⟨c', hseek, h'⟩ := hblank.blanks (n := 79 - T.length % 80) (by simp; omega) (by omega)
  refine ⟨c', seek_mono hseek (by unfold width; omega), ?_⟩
  have hcount : 79 - T.length % 80 + 1 = 80 - T.length % 80 := by omega
  rwa [List.append_assoc, List.singleton_append, ← List.replicate_succ, hcount] at h'

/-- Below the last row that is written, the loop of `ncNewline` scrolls by
itself. -/
theorem ncNewline_scrollDown (h : c.currentVideo ≤ 24 * 160) :
    ncNewline (scrollDown c) = ncNewline c := by
  unfold ncNewline printBlank
  rw [scrollDown_above (scrollDown_le h)]

theorem Shows.printChar (h : Shows T c) (b : UInt8) : ∃ c', ncPrintChar c b = some c' ∧
    Shows (if b = 10 then ConsoleText.newline T else T ++ [b]) c' := by
  unfold ncPrintChar
  by_cases hb : b = 10
  · rw [if_pos hb, if_pos hb, ncNewline_scrollDown h.le]
    exact h.newline
  · rw [if_neg hb, if_neg hb]
    exact ⟨_, rfl, h.put⟩

theorem Shows.print (h : Shows T c) (string : List UInt8) : ∃ c', ncPrint c string = some c' ∧
    Shows (string.foldl (fun T b ↦ if b = 10 then ConsoleText.newline T else T ++ [b]) T) c' := by
  induction string generalizing T c with
  | nil => exact ⟨c, rfl, h⟩
  | cons b string ih =>
    obtain ⟨c₁, hfirst, h₁⟩ := h.printChar b
    obtain ⟨c', hrest, h'⟩ := ih h₁
    refine ⟨c', ?_, h'⟩
    rw [ncPrint, List.foldlM_cons, hfirst]
    exact hrest

theorem shows_clear (c : Console) : Shows [] (ncClear c) := by
  refine ⟨rfl, fun i hi ↦ ?_⟩
  rw [ncClear_video, if_pos (by omega)]
  rfl

end Shows

/-- Whatever is done to the console from boot on, it stays in the video area.
What it shows of a text, in rows 0 to 23, is the tail of its cells. -/
theorem console_text :
    (∀ video, ∀ ops : List Op, ∃ c, ops.foldlM perform (boot video) = some c ∧ Within video c) ∧
      ∀ c string, ∃ c', ncPrint (ncClear c) string = some c' ∧ ∀ i < 80 * 24,
        c'.video (2 * i) =
          (cells string).getD (80 * (((cells string).length - 1) / 80 - 23) + i) 0x20 := by
  constructor
  · intro video ops
    exact Within.foldlM (fun _ hc op ↦ hc.perform op) (within_boot video) ops
  · intro c string
    obtain ⟨c', hprint, h'⟩ := (shows_clear c).print string
    exact ⟨c', hprint, fun i hi ↦ h'.cell i (by omega)⟩

end ShellOS.Terminal.ConsoleText
