import ShellOS.Terminal.LineDiscipline

namespace ShellOS.Terminal.Keyboard

open NaiveConsole Read LineDiscipline

/-- The character of each scan code. A few codes above 7 and below 32, and the
last two, stand for modifiers and function keys. -/
def asciiTable : List UInt8 :=
  [0, 27, 49, 50, 51, 52, 53, 54, 55, 56, 57, 48, 39, 0, 8,
    9, 113, 119, 101, 114, 116, 121, 117, 105, 111, 112, 0, 43, 10, 0,
    97, 115, 100, 102, 103, 104, 106, 107, 108, 59, 123, 124, 14, 125,
    122, 120, 99, 118, 98, 110, 109, 44, 46, 45, 15, 42, 0, 32, 11, 17,
    18, 19] ++
  List.replicate 108 0 ++ [0xAA] ++ List.replicate 11 0 ++ [0xB6]

def ascii (key : UInt8) : UInt8 := asciiTable.getD key.toNat 0

/-- What becomes of `actualKey` when `getKey` returns `key`, and whether the
queue of the waiting processes is awoken. -/
def keyboardHandler (key actualKey : UInt8) : UInt8 × Bool :=
  if key < 183 then (ascii key, true) else (actualKey, false)

def getInput (actualKey : UInt8) : UInt8 × UInt8 :=
  if actualKey = 0 then (0, actualKey) else (actualKey, 0)

inductive Event
  | interrupt (key : UInt8)
  | getInput

def results : UInt8 → List Event → List UInt8
  | _, [] => []
  | actualKey, .interrupt key :: events => results (keyboardHandler key actualKey).1 events
  | actualKey, .getInput :: events =>
    (getInput actualKey).1 :: results (getInput actualKey).2 events

def pending : UInt8 → List Event → UInt8
  | actualKey, [] => actualKey
  | actualKey, .interrupt key :: events => pending (keyboardHandler key actualKey).1 events
  | actualKey, .getInput :: events => pending (getInput actualKey).2 events

def pressed : List Event → List UInt8
  | [] => []
  | .interrupt key :: events => if key < 183 then ascii key :: pressed events else pressed events
  | .getInput :: events => pressed events

/-- Every key is fetched before the next one is stored. -/
def Prompt : UInt8 → List Event → Prop
  | _, [] => True
  | actualKey, .interrupt key :: events =>
    (key < 183 → actualKey = 0) ∧ Prompt (keyboardHandler key actualKey).1 events
  | actualKey, .getInput :: events => Prompt (getInput actualKey).2 events

def keys (codes : List UInt8) : List UInt8 := codes.filter (· ≠ 0)

section Delivery

variable {actualKey key : UInt8} {events : List Event}

theorem keys_cons_zero (codes : List UInt8) : keys (0 :: codes) = keys codes := rfl

theorem keys_cons (h : key ≠ 0) (codes : List UInt8) : keys (key :: codes) = key :: keys codes :=
  List.filter_cons_of_pos (by simpa using h)

theorem keys_sublist (actualKey : UInt8) (codes : List UInt8) :
    (keys codes).Sublist (keys (actualKey :: codes)) :=
  (List.sublist_cons_self actualKey codes).filter _

theorem handler_stored (h : key < 183) (actualKey : UInt8) :
    (keyboardHandler key actualKey).1 = ascii key := by
  rw [keyboardHandler, if_pos h]

theorem handler_ignored (h : ¬ key < 183) (actualKey : UInt8) :
    (keyboardHandler key actualKey).1 = actualKey := by
  rw [keyboardHandler, if_neg h]

/-- The keys that are fetched, and the one that waits, are among those that were
pressed, in their order. -/
theorem fetched_sublist (actualKey : UInt8) (events : List Event) :
    (keys (results actualKey events ++ [pending actualKey events])).Sublist
      (keys (actualKey :: pressed events)) := by
  induction events generalizing actualKey with
  | nil => exact List.Sublist.refl _
  | cons event events ih =>
    cases event with
    | interrupt key =>
      rw [results, pending, pressed]
      by_cases hkey : key < 183
      · rw [handler_stored hkey, if_pos hkey]
        exact (ih (ascii key)).trans (keys_sublist actualKey _)
      · rw [handler_ignored hkey, if_neg hkey]
        exact ih actualKey
    | getInput =>
      rw [results, pending, pressed]
      by_cases h0 : actualKey = 0
      · subst h0
        exact ih 0
      · have hget : getInput actualKey = (actualKey, 0) := if_neg h0
        rw [hget, List.cons_append, keys_cons h0, keys_cons h0]
        exact (ih 0).cons_cons actualKey

theorem fetched_eq_iff (actualKey : UInt8) (events : List Event) :
    keys (results actualKey events ++ [pending actualKey events]) =
      keys (actualKey :: pressed events) ↔ Prompt actualKey events := by
  induction events generalizing actualKey with
  | nil => exact iff_of_true rfl trivial
  | cons event events ih =>
    cases event with
    | interrupt key =>
      rw [results, pending, pressed, Prompt]
      by_cases hkey : key < 183
      · rw [handler_stored hkey, if_pos hkey, ← ih (ascii key)]
        by_cases h0 : actualKey = 0
        · subst h0
          rw [keys_cons_zero]
          exact ⟨fun h ↦ ⟨fun _ ↦ rfl, h⟩, And.right⟩
        · refine iff_of_false (fun h ↦ ?_) (fun h ↦ h0 (h.1 hkey))
          have hle := (fetched_sublist (ascii key) events).length_le
          rw [h, keys_cons h0, List.length_cons] at hle
          omega
      · rw [handler_ignored hkey, if_neg hkey, ih actualKey]
        exact ⟨fun h ↦ ⟨fun hlt ↦ absurd hlt hkey, h⟩, And.right⟩
    | getInput =>
      rw [results, pending, pressed, Prompt]
      by_cases h0 : actualKey = 0
      · subst h0
        exact ih 0
      · have hget : getInput actualKey = (actualKey, 0) := if_neg h0
        rw [hget, List.cons_append, keys_cons h0, keys_cons h0, ← ih 0, List.cons_inj_right]
        rfl

/-- Keys from the boot on, fetched by any processes in any order: none is
fetched twice or out of order, and none is lost exactly if each was fetched
before the next interrupt that has a key. -/
theorem keys_delivered (events : List Event) :
    (keys (results 0 events)).Sublist (keys (pressed events)) ∧
      (keys (results 0 events ++ [pending 0 events]) = keys (pressed events) ↔
        Prompt 0 events) := by
  have hsub := fetched_sublist 0 events
  have hiff := fetched_eq_iff 0 events
  rw [keys_cons_zero] at hsub hiff
  refine ⟨?_, hiff⟩
  exact ((List.sublist_append_left _ _).filter _).trans hsub

end Delivery

def served (codes : List UInt8) : List Event :=
  codes.flatMap fun key ↦
    if key < 183 then [.interrupt key, .getInput] else [.interrupt key]

/-- A character is typed: its key, or that with one of the shifts held. The
code of a release is that of the press and 128. -/
inductive Stroke : UInt8 → List UInt8 → Prop
  | plain {key : UInt8} : key < 128 → Printable (ascii key) → Stroke (ascii key) [key, key + 128]
  | shift {key shift : UInt8} :
      key < 128 → Printable (ascii key) → shift = 0x2A ∨ shift = 0x36 →
      Stroke (shifted true (ascii key)) [shift, key, key + 128, shift + 128]

def enterKey : UInt8 := 0x1C

section Typing

variable {key c : UInt8} {codes codes' rest text : List UInt8} {g : Tty} {m : Bool}
  {turn : Turn} {turns : List Turn}

def fetched (codes : List UInt8) : List UInt8 := (codes.filter (· < 183)).map ascii

theorem getInput_eq (actualKey : UInt8) : getInput actualKey = (actualKey, 0) := by
  unfold getInput
  split
  · rename_i h
    rw [h]
  · rfl

theorem results_served (codes : List UInt8) : results 0 (served codes) = fetched codes := by
  induction codes with
  | nil => rfl
  | cons key codes ih =>
    rw [served, List.flatMap_cons, ← served]
    by_cases hkey : key < 183
    · have hfetched : fetched (key :: codes) = ascii key :: fetched codes := by
        rw [fetched, List.filter_cons_of_pos (by simpa using hkey)]
        rfl
      rw [if_pos hkey, List.cons_append, List.cons_append, List.nil_append, results, results,
        handler_stored hkey, getInput_eq, ih, hfetched]
    · have hfetched : fetched (key :: codes) = fetched codes := by
        rw [fetched, List.filter_cons_of_neg (by simpa using hkey)]
        rfl
      rw [if_neg hkey, List.cons_append, List.nil_append, results, handler_ignored hkey, ih,
        hfetched]

theorem fetched_append (codes codes' : List UInt8) :
    fetched (codes ++ codes') = fetched codes ++ fetched codes' := by
  rw [fetched, List.filter_append, List.map_append]
  rfl

theorem ascii_ne_zero : ∀ n < 183, asciiTable.getD n 0 ≠ 0 → n < 62 ∨ n = 170 ∨ n = 182 := by
  decide +kernel

theorem ascii_release (hlt : key < 128) (h : Printable (ascii key)) (hkey : key + 128 < 183) :
    ascii (key + 128) = 0 := by
  have hsum : (key + 128).toNat = key.toNat + 128 := by
    have hlt := UInt8.lt_iff_toNat_lt.mp hlt
    change key.toNat < 128 at hlt
    rw [UInt8.toNat_add]
    change (key.toNat + 128) % 256 = _
    omega
  have hkey := UInt8.lt_iff_toNat_lt.mp hkey
  rw [hsum] at hkey
  change key.toNat + 128 < 183 at hkey
  by_contra hne
  unfold ascii at hne
  rw [hsum] at hne
  have hshift : key.toNat = 42 ∨ key.toNat = 54 := by
    have hplace := ascii_ne_zero _ hkey hne
    omega
  unfold ascii at h
  rcases hshift with h42 | h54
  · rw [h42] at h
    exact absurd h (by decide)
  · rw [h54] at h
    exact absurd h (by decide)

structure Ready (m : Bool) (g : Tty) : Prop where
  mayus : g.mayus = m
  even : g.console.currentVideo % 2 = 0

/-- What the others do while `read` waits may be seen on the console only. -/
def Quiet (turns : List Turn) : Prop :=
  ∀ turn ∈ turns, ∀ m g, Ready m g → Ready m (turn.others g)

theorem Ready.echo (h : Ready m g) (c : UInt8) : Ready m (echo .keyboard g c) := by
  refine ⟨h.mayus, ?_⟩
  have hmod := scrollDown_mod (c := g.console)
  have heven := h.even
  change ((scrollDown g.console).currentVideo + 2) % 2 = 0
  unfold width at hmod
  omega

structure Ahead (m : Bool) (ks : List UInt8) (turns : List Turn) (g : Tty) : Prop where
  ready : Ready m g
  quiet : Quiet turns
  keys : turns.map Turn.key = ks

variable {ks : List UInt8}

theorem Ahead.first (h : Ahead m (key :: ks) turns g) : ∃ turn turns', turns = turn :: turns' ∧
    turn.key = key ∧ Ready m (turn.others g) ∧ Quiet turns' ∧ turns'.map Turn.key = ks := by
  obtain ⟨turn, turns', rfl, hkey, hrest⟩ := List.map_eq_cons_iff.mp h.keys
  have hturn := h.quiet turn List.mem_cons_self m g h.ready
  exact ⟨turn, turns', rfl, hkey, hturn,
    fun turn' hmem ↦ h.quiet turn' (List.mem_cons_of_mem _ hmem), hrest⟩

theorem edit_insert (h : Ahead m (key :: ks) turns g) (hkey : Printable key)
    (hlen : text.length < 100) : ∃ turns' g', Ahead m ks turns' g' ∧
      editLoop .keyboard (-1) turns g text =
        editLoop .keyboard (-1) turns' g' (text ++ [shifted m key]) := by
  obtain ⟨turn, turns', rfl, rfl, hready, hquiet, hrest⟩ := h.first
  have hroom : goesOn (-1) text.length = true := by simp [goesOn]
  have hcount : text.length ≠ maxCount := by
    unfold maxCount
    omega
  refine ⟨turns', _, ⟨hready.echo (shifted m turn.key), hquiet, hrest⟩, ?_⟩
  rw [editLoop, if_pos hroom, effect_printable hkey, hready.mayus]
  exact if_neg hcount

theorem edit_none (h : Ahead m (0 :: ks) turns g) : ∃ turns' g', Ahead m ks turns' g' ∧
    editLoop .keyboard (-1) turns g text = editLoop .keyboard (-1) turns' g' text := by
  obtain ⟨turn, turns', rfl, hkey, hready, hquiet, hrest⟩ := h.first
  have hroom : goesOn (-1) text.length = true := by simp [goesOn]
  refine ⟨turns', _, ⟨hready, hquiet, hrest⟩, ?_⟩
  rw [editLoop, if_pos hroom, hkey]
  rfl

theorem edit_shift (text : List UInt8) (h : Ahead m (key :: ks) turns g)
    (hkey : key = 14 ∨ key = 15 ∨ key = 0xAA ∨ key = 0xB6) : ∃ turns' g', Ahead (!m) ks turns' g' ∧
      editLoop .keyboard (-1) turns g text = editLoop .keyboard (-1) turns' g' text := by
  obtain ⟨turn, turns', rfl, rfl, hready, hquiet, hrest⟩ := h.first
  have hroom : goesOn (-1) text.length = true := by simp [goesOn]
  refine ⟨turns', { turn.others g with mayus := !(turn.others g).mayus },
    ⟨⟨congrArg Bool.not hready.mayus, hready.even⟩, hquiet, hrest⟩, ?_⟩
  rw [editLoop, if_pos hroom]
  rcases hkey with hkey | hkey | hkey | hkey <;> rw [hkey] <;> rfl

theorem edit_enter (h : Ahead m (10 :: ks) turns g) :
    editLoop .keyboard (-1) turns g text = .line text := by
  obtain ⟨turn, turns', rfl, hkey, hready, -, -⟩ := h.first
  have hroom : goesOn (-1) text.length = true := by simp [goesOn]
  obtain ⟨console, hconsole⟩ := ncNewline_ends hready.even
  have hcontrol : LineDiscipline.control .keyboard (turn.others g) (text.length > 0) 10 =
      some ({ turn.others g with console := console }, .finish) := by
    unfold LineDiscipline.control
    rw [if_neg (by decide), if_neg (by decide), if_pos rfl]
    simp only [hconsole]
  rw [editLoop, if_pos hroom, hkey, effect, hcontrol]
  rfl

theorem edit_release (text : List UInt8) (hlt : key < 128) (hprintable : Printable (ascii key))
    (h : Ahead m (fetched [key + 128] ++ ks) turns g) : ∃ turns' g', Ahead m ks turns' g' ∧
      editLoop .keyboard (-1) turns g text = editLoop .keyboard (-1) turns' g' text := by
  by_cases hkey : key + 128 < 183
  · have hfetched : fetched [key + 128] = [ascii (key + 128)] := by
      rw [fetched, List.filter_cons_of_pos (by simpa using hkey)]
      rfl
    rw [hfetched, ascii_release hlt hprintable hkey] at h
    exact edit_none h
  · have hfetched : fetched [key + 128] = [] := by
      rw [fetched, List.filter_cons_of_neg (by simpa using hkey)]
      rfl
    rw [hfetched] at h
    exact ⟨turns, g, h, rfl⟩

theorem fetched_press (hlt : key < 128) (codes : List UInt8) :
    fetched (key :: codes) = ascii key :: fetched codes := by
  have hkey : key < 183 := UInt8.lt_trans hlt (by decide)
  rw [fetched, List.filter_cons_of_pos (by simpa using hkey)]
  rfl

theorem shift_keys {shift : UInt8} (h : shift = 0x2A ∨ shift = 0x36) : ∃ press release,
    fetched [shift] = [press] ∧ fetched [shift + 128] = [release] ∧
      (press = 14 ∨ press = 15 ∨ press = 0xAA ∨ press = 0xB6) ∧
      (release = 14 ∨ release = 15 ∨ release = 0xAA ∨ release = 0xB6) := by
  rcases h with rfl | rfl
  · exact ⟨14, 0xAA, rfl, rfl, by decide, by decide⟩
  · exact ⟨15, 0xB6, rfl, rfl, by decide, by decide⟩

theorem edit_stroke (hstroke : Stroke c codes) (h : Ahead false (fetched codes ++ ks) turns g)
    (hlen : text.length < 100) : ∃ turns' g', Ahead false ks turns' g' ∧
      editLoop .keyboard (-1) turns g text = editLoop .keyboard (-1) turns' g' (text ++ [c]) := by
  cases hstroke with
  | @plain key hlt hprintable =>
    rw [fetched_press hlt, List.cons_append] at h
    obtain ⟨turns₁, g₁, h₁, heq₁⟩ := edit_insert h hprintable hlen
    obtain ⟨turns₂, g₂, h₂, heq₂⟩ := edit_release (text ++ [ascii key]) hlt hprintable h₁
    exact ⟨turns₂, g₂, h₂, heq₁.trans heq₂⟩
  | @shift key shift hlt hprintable hshift =>
    obtain ⟨press, release, hpress, hrelease, hpresses, hreleases⟩ := shift_keys hshift
    have hcodes : fetched [shift, key, key + 128, shift + 128] ++ ks =
        press :: ascii key :: (fetched [key + 128] ++ release :: ks) := by
      change fetched ([shift] ++ (key :: ([key + 128] ++ [shift + 128]))) ++ ks = _
      rw [fetched_append, fetched_press hlt, fetched_append, hpress, hrelease]
      simp
    rw [hcodes] at h
    obtain ⟨turns₁, g₁, h₁, heq₁⟩ := edit_shift text h hpresses
    obtain ⟨turns₂, g₂, h₂, heq₂⟩ := edit_insert h₁ hprintable hlen
    obtain ⟨turns₃, g₃, h₃, heq₃⟩ :=
      edit_release (text ++ [shifted true (ascii key)]) hlt hprintable h₂
    obtain ⟨turns₄, g₄, h₄, heq₄⟩ :=
      edit_shift (text ++ [shifted true (ascii key)]) h₃ hreleases
    exact ⟨turns₄, g₄, h₄, heq₁.trans (heq₂.trans (heq₃.trans heq₄))⟩

theorem edit_strokes {typed : List UInt8} {strokes : List (List UInt8)}
    (hstrokes : List.Forall₂ Stroke typed strokes)
    (h : Ahead false (fetched strokes.flatten ++ ks) turns g)
    (hlen : text.length + typed.length ≤ 100) : ∃ turns' g', Ahead false ks turns' g' ∧
      editLoop .keyboard (-1) turns g text =
        editLoop .keyboard (-1) turns' g' (text ++ typed) := by
  induction hstrokes generalizing turns g text with
  | nil => exact ⟨turns, g, h, by rw [List.append_nil]⟩
  | @cons c codes typed strokes hstroke _ ih =>
    rw [List.length_cons] at hlen
    rw [List.flatten_cons, fetched_append, List.append_assoc] at h
    obtain ⟨turns₁, g₁, h₁, heq₁⟩ := edit_stroke hstroke h (by omega : text.length < 100)
    have hlen₁ : (text ++ [c]).length + typed.length ≤ 100 := by
      rw [List.length_append, List.length_singleton]
      omega
    obtain ⟨turns₂, g₂, h₂, heq₂⟩ := ih h₁ hlen₁
    refine ⟨turns₂, g₂, h₂, ?_⟩
    rw [heq₁, heq₂, List.append_assoc]
    rfl

end Typing

/-- What is typed is what is read: a process in the foreground that calls
`read` gets the characters that were typed up to the Enter key, when it fetches
each key before the next interrupt. -/
theorem read_typed {text : List UInt8} {strokes : List (List UInt8)} {turns : List Turn} {g : Tty}
    {buf : ℕ → UInt8} (hstrokes : List.Forall₂ Stroke text strokes) (hlen : text.length ≤ 100)
    (hkeys : turns.map Turn.key = results 0 (served (strokes.flatten ++ [enterKey])))
    (hquiet : Quiet turns) (hready : Ready false g) :
    ∃ g' l, Read.read 1 .keyboard (-1) turns g buf = .returned g' l text.length ∧
      (List.range text.length).map l.buf = text ∧ l.buf text.length = 0 := by
  have henter : fetched [enterKey] = [10] := rfl
  rw [results_served, fetched_append, henter] at hkeys
  have hlen' : ([] : List UInt8).length + text.length ≤ 100 := by
    rwa [List.length_nil, Nat.zero_add]
  obtain ⟨turns', g', h', heq⟩ := edit_strokes hstrokes ⟨hready, hquiet, hkeys⟩ hlen'
  rw [edit_enter h', List.nil_append] at heq
  have hmatches : Matches (-1) (readLoop .keyboard (-1) turns g ⟨0, buf, []⟩)
      (editLoop .keyboard (-1) turns g []) := readLoop_matches (Shows.start (Or.inl rfl) buf)
  rw [heq] at hmatches
  have hread : Read.read 1 .keyboard (-1) turns g buf =
      readLoop .keyboard (-1) turns g ⟨0, buf, []⟩ := rfl
  rw [hread]
  generalize readLoop .keyboard (-1) turns g ⟨0, buf, []⟩ = out at hmatches
  cases hmatches with
  | @line g₁ l text hshows _ =>
    refine ⟨g₁, l.store l.count 0, by rw [hshows.count], ?_, ?_⟩
    · have hsame : ∀ i ∈ List.range text.length, (l.store l.count 0).buf i = l.buf i := by
        intro i hi
        have hlt := List.mem_range.mp hi
        refine Function.update_of_ne ?_ _ _
        rw [hshows.count]
        omega
      rw [List.map_congr_left hsame]
      exact hshows.prefix_eq hlen
    · rw [← hshows.count]
      exact Function.update_self _ _ _

theorem read_typed_two : ∃ turns g l,
    turns.map Turn.key = results 0 (served [0x26, 0xA6, 0x2A, 0x1F, 0x9F, 0xAA, enterKey]) ∧
    Read.read 1 .keyboard (-1) turns bootTty (fun _ ↦ 0) = .returned g l 2 ∧
      (List.range 2).map l.buf = [108, 83] ∧ l.buf 2 = 0 := by
  have hl : Stroke 108 [0x26, 0xA6] := @Stroke.plain 0x26 (by decide) (by decide)
  have hS : Stroke 83 [0x2A, 0x1F, 0x9F, 0xAA] :=
    @Stroke.shift 0x1F 0x2A (by decide) (by decide) (Or.inl rfl)
  let turns := (results 0 (served [0x26, 0xA6, 0x2A, 0x1F, 0x9F, 0xAA, enterKey])).map Turn.alone
  have hquiet : Quiet turns := by
    intro turn hturn m g hready
    obtain ⟨key, -, rfl⟩ := List.mem_map.mp hturn
    exact hready
  have hkeys : turns.map Turn.key =
      results 0 (served [0x26, 0xA6, 0x2A, 0x1F, 0x9F, 0xAA, enterKey]) := by
    rw [List.map_map]
    exact List.map_id _
  obtain ⟨g, l, hread, htext, hend⟩ := read_typed (.cons hl (.cons hS .nil))
    (by decide : 2 ≤ 100) hkeys hquiet (⟨rfl, rfl⟩ : Ready false bootTty)
  exact ⟨turns, g, l, hkeys, hread, htext, hend⟩

end ShellOS.Terminal.Keyboard
