import ShellOS.Terminal.NaiveConsole

namespace ShellOS.Terminal.Read

open NaiveConsole Function

structure Tty where
  mayus : Bool
  console : Console

/-- Where `read` takes its keys from: the keyboard when `stdin` is `NULL`. -/
inductive Source
  | keyboard
  | pipe

/-- The `count` and the `buf` of a call of `read`, and its stores so far. -/
structure Line where
  count : ℕ
  buf : ℕ → UInt8
  stores : List (ℕ × UInt8)

def Line.store (l : Line) (i : ℕ) (c : UInt8) : Line :=
  { l with buf := update l.buf i c, stores := l.stores ++ [(i, c)] }

/-- How far `read` has come: it goes on with the next key, it returned, it
went to `exit`, it is in `ncNewline` for ever, or `count` had no successor. -/
inductive Outcome
  | more (g : Tty) (l : Line)
  | returned (g : Tty) (l : Line) (ret : ℤ)
  | exited (g : Tty) (l : Line)
  | hangs (l : Line)
  | undefined

def Outcome.andThen (f : Tty → Line → Outcome) : Outcome → Outcome
  | .more g l => f g l
  | out => out

def maxCount : ℕ := 0x7FFFFFFF

def endLine (g : Tty) (l : Line) : Outcome := .returned g (l.store l.count 0) l.count

def newline (source : Source) (g : Tty) (l : Line) : Outcome :=
  match source with
  | .pipe => endLine g l
  | .keyboard =>
    match ncNewline g.console with
    | none => .hangs l
    | some console => endLine { g with console := console } l

def backspace (g : Tty) (l : Line) : Outcome :=
  if l.count > 0 then
    let r := ncBackspace g.console
    .more { g with console := r.1 } (if r.2 then { l with count := l.count - 1 } else l)
  else .more g l

def shifted (mayus : Bool) (key : UInt8) : UInt8 :=
  let key := if mayus ∧ key ≥ 97 ∧ key ≤ 122 then key - (97 - 65) else key
  if mayus ∧ key = 54 then 38 else key

def character (source : Source) (g : Tty) (l : Line) (key : UInt8) : Outcome :=
  let key := shifted g.mayus key
  let l := if l.count < 100 then l.store l.count key else l
  if l.count = maxCount then .undefined
  else
    let l := { l with count := l.count + 1 }
    match source with
    | .pipe => .more g l
    | .keyboard =>
      match ncPrintChar g.console key with
      | none => .hangs l
      | some console => .more { g with console := console } l

def decode (source : Source) (g : Tty) (l : Line) (key : UInt8) : Outcome :=
  if key = 255 then .returned g l (-1)
  else if key = 0 then
    match source with
    | .keyboard => .more g l
    | .pipe => endLine g l
  else if key = 10 then newline source g l
  else if key = 8 then backspace g l
  else if key = 17 then .more g l
  else if key = 18 then .exited g l
  else if key = 19 then .returned g l (-1)
  else if key = 11 ∨ key = 14 ∨ key = 15 ∨ key = 0xAA ∨ key = 0xB6 then
    .more { g with mayus := !g.mayus } l
  else character source g l key

/-- A turn of the loop: what became of the terminal while the process waited
for the key, and the key. -/
structure Turn where
  others : Tty → Tty
  key : UInt8

def goesOn (limit : ℤ) (count : ℕ) : Bool := count < limit ∨ limit = -1

def leave (g : Tty) (l : Line) : Outcome :=
  .returned g (l.store l.count 0) (if l.count ≥ 100 then 100 else l.count)

def readLoop (source : Source) (limit : ℤ) : List Turn → Tty → Line → Outcome
  | [], g, l => if goesOn limit l.count then .more g l else leave g l
  | turn :: turns, g, l =>
    if goesOn limit l.count then
      (decode source (turn.others g) l turn.key).andThen (readLoop source limit turns)
    else leave g l

def read (priority : ℕ) (source : Source) (limit : ℤ) (turns : List Turn) (g : Tty)
    (buf : ℕ → UInt8) : Outcome :=
  let l : Line := ⟨0, buf, []⟩
  match source with
  | .keyboard =>
    if priority ≠ 1 then .returned g (l.store 0 0) 0 else readLoop source limit turns g l
  | .pipe => readLoop source limit turns g l

end ShellOS.Terminal.Read
