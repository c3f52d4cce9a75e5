import ShellOS.Library.Links

namespace ShellOS.Terminal.NaiveConsole

open Library.Links Function

def width : ℕ := 80
def height : ℕ := 25

/-- The bytes from `video` on, and `currentVideo` as an offset from `video`. -/
structure Console where
  video : ℕ → UInt8
  currentVideo : ℕ
  cursor : Bool

def deleteCursor (c : Console) : Console :=
  { c with video := update c.video c.currentVideo 0x20, cursor := false }

/-- A store to `videoChars[i]`, with its low byte first. -/
def setCell (video : ℕ → UInt8) (i : ℕ) (low high : UInt8) : ℕ → UInt8 :=
  update (update video (2 * i) low) (2 * i + 1) high

def moveRows (video : ℕ → UInt8) : ℕ → UInt8 :=
  (List.range (width * (height - 1))).foldl (fun video i ↦
    setCell video i (video (2 * (i + width))) (video (2 * (i + width) + 1))) video

def clearRow (video : ℕ → UInt8) : ℕ → UInt8 :=
  (List.range' (width * (height - 1)) width).foldl (fun video i ↦ setCell video i 0x20 0x07) video

def scrollDown (c : Console) : Console :=
  if c.currentVideo / (width * 2) < height - 1 then c
  else
    { c with
      video := clearRow (moveRows c.video)
      currentVideo := c.currentVideo - width * 2 }

def put (c : Console) (character : UInt8) : Console :=
  { c with
    video := update c.video c.currentVideo character
    currentVideo := c.currentVideo + 2 }

def printBlank (c : Console) : Console := put (scrollDown c) 0x20

def AtMargin (c : Console) : Bool := c.currentVideo % (width * 2) = 0

/-- There is no result when the loop goes on after a whole row. -/
def ncNewline (c : Console) : Option Console := seek AtMargin printBlank width (printBlank c)

def ncPrintChar (c : Console) (character : UInt8) : Option Console :=
  let c := scrollDown c
  if character = 10 then ncNewline c else some (put c character)

def ncBackspace (c : Console) : Console × Bool :=
  if c.currentVideo ≥ 2 then
    let c := deleteCursor c
    let video := update c.video (c.currentVideo - 1) 0x07
    ({ c with
        video := update video (c.currentVideo - 2) 0
        currentVideo := c.currentVideo - 2 }, true)
  else (c, false)

variable {c : Console}

theorem scrollDown_mod : (scrollDown c).currentVideo % (width * 2) =
    c.currentVideo % (width * 2) := by
  unfold scrollDown width height
  split
  · rfl
  · simp only
    omega

theorem seek_margin {n : ℕ} (h : (c.currentVideo + 2 * n) % (width * 2) = 0) :
    ∃ c', seek AtMargin printBlank (n + 1) c = some c' := by
  induction n generalizing c with
  | zero => exact ⟨c, by simp_all [seek, AtMargin]⟩
  | succ n ih =>
    rw [seek]
    split
    · exact ⟨c, rfl⟩
    · apply ih
      change ((scrollDown c).currentVideo + 2 + 2 * n) % (width * 2) = 0
      rw [Nat.add_assoc, ← Nat.mod_add_mod, scrollDown_mod, Nat.mod_add_mod, Nat.add_comm 2]
      exact h

theorem ncNewline_ends (h : c.currentVideo % 2 = 0) : ∃ c', ncNewline c = some c' := by
  have hmod := scrollDown_mod (c := c)
  obtain ⟨n, hn, hmargin⟩ : ∃ n < width,
      ((printBlank c).currentVideo + 2 * n) % (width * 2) = 0 := by
    change ∃ n < width, ((scrollDown c).currentVideo + 2 + 2 * n) % (width * 2) = 0
    unfold width at hmod ⊢
    refine ⟨(80 - (c.currentVideo + 2) % 160 / 2) % 80, Nat.mod_lt _ (by decide), ?_⟩
    omega
  obtain ⟨c', hseek⟩ := seek_margin hmargin
  exact ⟨c', seek_mono hseek hn⟩

end ShellOS.Terminal.NaiveConsole
