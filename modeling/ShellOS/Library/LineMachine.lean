import Mathlib.Data.List.Basic

namespace ShellOS.Library.LineMachine

variable {σ : Type}

/-- What is done with each line of a text, and at its end. Lines are of at
most `limit` bytes, each of them `plain`. -/
structure Machine (σ : Type) where
  act : List UInt8 → σ → Option σ
  finish : σ → Option σ
  plain : UInt8 → Bool
  limit : ℕ

/-- Where a machine stands: behind the bytes `line` of a line that has not
ended, at its end, where it has no next state, or behind a line that is none. -/
inductive Stage (σ : Type)
  | reads (line : List UInt8) (s : σ)
  | exited (s : σ)
  | undefined
  | lost

def Stage.Ended : Stage σ → Prop
  | .reads _ _ => False
  | _ => True

def Machine.endLine (m : Machine σ) (line : List UInt8) (s : σ) : Stage σ :=
  if line = [] then (m.finish s).elim .undefined .exited
  else (m.act line s).elim .undefined (.reads [])

def Machine.feed (m : Machine σ) : Stage σ → UInt8 → Stage σ
  | .reads line s, c =>
    if c = 10 ∨ c = 0 then m.endLine line s
    else if m.plain c ∧ line.length < m.limit then .reads (line ++ [c]) s
    else .lost
  | stage, _ => stage

def Machine.run (m : Machine σ) : List (List UInt8) → σ → Stage σ
  | [], s => (m.finish s).elim .undefined .exited
  | line :: lines, s =>
    if line = [] then (m.finish s).elim .undefined .exited
    else (m.act line s).elim .undefined (m.run lines)

def Machine.IsLine (m : Machine σ) (line : List UInt8) : Prop :=
  (∀ c ∈ line, m.plain c = true ∧ c ≠ 10 ∧ c ≠ 0) ∧ line.length ≤ m.limit

def text (lines : List (List UInt8)) : List UInt8 := lines.flatMap (· ++ [10])

variable {m : Machine σ} {s : σ} {stage : Stage σ} {line pre keys : List UInt8}
  {lines lines' : List (List UInt8)}

theorem text_cons : text (line :: lines) = line ++ 10 :: text lines := by simp [text]

theorem text_append : text (lines ++ lines') = text lines ++ text lines' := by simp [text]

theorem filter_text {keep : UInt8 → Bool} (h : keep 10 = true) :
    (text lines).filter keep = text (lines.map (List.filter keep)) := by
  induction lines with
  | nil => rfl
  | cons line lines ih =>
    rw [text_cons, List.filter_append, List.filter_cons_of_pos h, ih, List.map_cons, text_cons]

theorem length_le_text (lines : List (List UInt8)) : lines.length ≤ (text lines).length := by
  induction lines with
  | nil => exact Nat.zero_le _
  | cons line lines ih =>
    rw [text_cons, List.length_cons, List.length_append, List.length_cons]
    omega

theorem feed_ended (h : stage.Ended) : keys.foldl m.feed stage = stage := by
  induction keys with
  | nil => rfl
  | cons c keys ih =>
    cases stage with
    | reads line s => exact absurd h id
    | exited s | undefined | lost => exact ih

theorem run_cases (m : Machine σ) (lines : List (List UInt8)) (s : σ) :
    (∃ s', m.run lines s = .exited s') ∨ m.run lines s = .undefined := by
  induction lines generalizing s with
  | nil =>
    rw [Machine.run]
    cases m.finish s with
    | none => exact Or.inr rfl
    | some s' => exact Or.inl ⟨s', rfl⟩
  | cons line lines ih =>
    rw [Machine.run]
    split
    · cases m.finish s with
      | none => exact Or.inr rfl
      | some s' => exact Or.inl ⟨s', rfl⟩
    · cases m.act line s with
      | none => exact Or.inr rfl
      | some s' => exact ih s'

theorem run_ended : (m.run lines s).Ended := by
  rcases run_cases m lines s with ⟨s', h⟩ | h
  · rw [h]
    trivial
  · rw [h]
    trivial

theorem feed_line (h : m.IsLine (pre ++ line)) (keys : List UInt8) :
    (line ++ 10 :: keys).foldl m.feed (.reads pre s) =
      keys.foldl m.feed (m.endLine (pre ++ line) s) := by
  induction line generalizing pre with
  | nil => simp [Machine.feed]
  | cons c line ih =>
    rw [List.append_cons pre c line] at h ⊢
    obtain ⟨hplain, h10, h0⟩ := h.1 c (by simp)
    have hlen := h.2
    rw [List.length_append, List.length_append, List.length_singleton] at hlen
    have hpush : m.feed (.reads pre s) c = .reads (pre ++ [c]) s := by
      rw [Machine.feed, if_neg (by simp [h10, h0]), if_pos ⟨hplain, by omega⟩]
    rw [List.cons_append, List.foldl_cons, hpush]
    exact ih h

theorem feed_text (h : ∀ line ∈ lines, m.IsLine line) :
    (text lines ++ [0]).foldl m.feed (.reads [] s) = m.run lines s := by
  induction lines generalizing s with
  | nil => simp [text, Machine.feed, Machine.endLine, Machine.run]
  | cons line lines ih =>
    rw [List.forall_mem_cons] at h
    rw [text_cons, List.append_assoc, List.cons_append, feed_line (by simpa using h.1),
      List.nil_append, Machine.run, Machine.endLine]
    split
    · apply feed_ended
      cases m.finish s <;> trivial
    · cases m.act line s with
      | none => exact feed_ended trivial
      | some s' => exact ih h.2

theorem feed_whole (h : ∀ line ∈ lines, m.IsLine line) (hkeys : text lines ++ [0] <+: keys) :
    keys.foldl m.feed (.reads [] s) = m.run lines s := by
  obtain ⟨rest, rfl⟩ := hkeys
  rw [List.foldl_append, feed_text h, feed_ended run_ended]

theorem feed_part (h : ∀ line ∈ lines, m.IsLine line)
    (hkeys : keys <+: text lines ++ [0] ∨ text lines ++ [0] <+: keys)
    (hended : (keys.foldl m.feed (.reads [] s)).Ended) :
    keys.foldl m.feed (.reads [] s) = m.run lines s := by
  rcases hkeys with ⟨rest, hrest⟩ | hwhole
  · rw [← feed_text h, ← hrest, List.foldl_append, feed_ended hended]
  · exact feed_whole h hwhole

end ShellOS.Library.LineMachine
