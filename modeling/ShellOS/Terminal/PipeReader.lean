import ShellOS.Terminal.PipeLine

namespace ShellOS.Terminal.PipeReader

open Library.Runs Ipc Pipes PipeSpec Read LineDiscipline PipeLine
open PipeRun (Parties Invariant boot createPipe_ends took_invariant wrote_bytes newPipe
  newPipe_made twoProcesses readerNext)
open PipeEnds (length_unread)

/-- The parties of a pipe, and how far the reader's `read(buf, -1)` has come. -/
structure Reading where
  parties : PipeRun.System
  outcome : Outcome

inductive Act
  | writer (x : PipeRun.Act)
  | read
  | resumeRead
  | others

def Writes : PipeRun.Act → Prop
  | .write string => string ≠ []
  | .resumeWrite => True
  | .read _ | .resumeRead => False

def switch (g : Tty) (l : Line) : Read → Outcome
  | .returned i _ => decode .pipe g l (keyOf i)
  | .blocked => .more g l

def took (p : PipeRun.System) (k : Kernel) (out : Read) : PipeRun.System :=
  { p with
    kernel := k
    reader := readerNext 1 out
    obtained := p.obtained ++ received 1 out }

variable (t : Parties) (f0 f1 : FdPipe)

/-- The writer goes on while the reader is in its loop, and waits there. The
others may do what they like to the console. -/
inductive Step : Reading → Act → Reading → Prop
  | writer {s : Reading} {x : PipeRun.Act} {p : PipeRun.System} :
      Writes x → PipeRun.Step t f0 f1 s.parties x p → Step s (.writer x) ⟨p, s.outcome⟩
  | read {s : Reading} {g : Tty} {l : Line} {k : Kernel} {out : Read} :
      s.outcome = .more g l → s.parties.reader = .idle →
      pipeRead s.parties.kernel t.reader f0 1 = some (k, out) →
      Step s .read ⟨took s.parties k out, switch g l out⟩
  | resumeRead {s : Reading} {g : Tty} {l : Line} {k : Kernel} {out : Read} :
      s.outcome = .more g l → s.parties.reader = .waits 1 → s.parties.kernel.pstate t.reader = 1 →
      resumeRead s.parties.kernel f0 1 = some (k, out) →
      Step s .resumeRead ⟨took s.parties k out, switch g l out⟩
  | others {s : Reading} {g g' : Tty} {l : Line} :
      s.outcome = .more g l → g'.mayus = g.mayus → Step s .others ⟨s.parties, .more g' l⟩

variable {t f0 f1} {a : ℕ} {p p' : PipeRun.System} {s s' : Reading} {x : Act}
  {line rest before : List UInt8} {mayus : Bool}

structure Flows (t : Parties) (a : ℕ) (p : PipeRun.System) : Prop where
  inv : Invariant t a p
  limit : ∀ limit, p.reader = .waits limit → limit = 1
  awoken : p.reader ≠ .idle → p.kernel.pstate t.reader = 1 → 0 < (p.kernel.pipe a).bytesToRead

section Segments

theorem writer_flows (h : Flows t a p) {x : PipeRun.Act} (hx : Writes x)
    (hs : PipeRun.Step t ⟨1, 0, a⟩ ⟨0, 1, a⟩ p x p') :
    Flows t a p' ∧ p'.obtained = p.obtained ∧ p.stored <+: p'.stored := by
  have hinv := PipeRun.step_invariant h.inv hs
  rcases hs.cases_segment h.inv with ⟨i, string, k, out, -, hcall, hw, rfl⟩ |
    ⟨limit, k, out, ⟨rfl, -⟩ | ⟨rfl, -⟩, -, -⟩
  · have hne : string ≠ [] := by
      rcases hcall with ⟨rfl, -⟩ | ⟨-, -, c, rest, rfl, -⟩
      · exact hx
      · exact List.cons_ne_nil _ _
    exact ⟨⟨hinv, h.limit, fun _ _ ↦ wrote_bytes hw hne⟩, rfl, List.prefix_append _ _⟩
  · exact hx.elim
  · exact hx.elim

theorem returned_flows (h : Flows t a p) {k : Kernel} {i : ℤ} {buffer : List UInt8}
    (ht : Took p.kernel a t.reader 1 p.stored p.obtained k (.returned i buffer)) :
    Flows t a (took p k (.returned i buffer)) :=
  ⟨took_invariant h.inv ht, nofun, fun hreads ↦ absurd rfl hreads⟩

inductive Got (t : Parties) (a : ℕ) (p : PipeRun.System) (k : Kernel) : Read → Prop
  | byte {i : ℤ} {buffer rest : List UInt8} :
      unread (p.kernel.pipe a) = keyOf i :: rest → unread (k.pipe a) = rest →
      (took p k (.returned i buffer)).obtained = p.obtained ++ [keyOf i] →
      Flows t a (took p k (.returned i buffer)) → Got t a p k (.returned i buffer)
  | blocked : unread (p.kernel.pipe a) = [] → (took p k .blocked).obtained = p.obtained →
      Flows t a (took p k .blocked) → Got t a p k .blocked

theorem pipeRead_got (h : Flows t a p) :
    ∃ k out, pipeRead p.kernel t.reader ⟨1, 0, a⟩ 1 = some (k, out) ∧ Got t a p k out := by
  cases hunread : unread (p.kernel.pipe a) with
  | cons c rest =>
    obtain ⟨k, i, buffer, hcall, rfl, hreceived, ht⟩ :=
      pipeRead_next (r := t.reader) h.inv.holds hunread
    exact ⟨k, _, hcall, .byte hunread (received_unread h.inv.holds hunread hreceived ht).2.symm
      (congrArg (p.obtained ++ ·) hreceived) (returned_flows h ht)⟩
  | nil =>
    have hb : (p.kernel.pipe a).bytesToRead = 0 := by
      rw [← length_unread, hunread, List.length_nil]
    have hcall : pipeRead p.kernel t.reader ⟨1, 0, a⟩ 1 =
        some (block p.kernel a t.reader, .blocked) := by
      simp [pipeRead, hb, h.inv.writeOpen]
    refine ⟨_, _, hcall, .blocked hunread (List.append_nil _)
      ⟨took_invariant h.inv (.blocked hb), fun limit hwaits ↦ ?_, fun _ hready ↦ ?_⟩⟩
    · cases hwaits
      rfl
    · simp only [took, block_pstate, if_true] at hready
      cases hready

theorem resumeRead_got (h : Flows t a p) (hwaits : p.reader = .waits 1)
    (hready : p.kernel.pstate t.reader = 1) :
    ∃ k out, resumeRead p.kernel ⟨1, 0, a⟩ 1 = some (k, out) ∧ Got t a p k out := by
  have hpos := h.awoken (by simp [hwaits]) hready
  cases hunread : unread (p.kernel.pipe a) with
  | cons c rest =>
    obtain ⟨k, i, buffer, hcall, rfl, hreceived, ht⟩ :=
      resumeRead_next (r := t.reader) h.inv.holds hunread
    exact ⟨k, _, hcall, .byte hunread (received_unread h.inv.holds hunread hreceived ht).2.symm
      (congrArg (p.obtained ++ ·) hreceived) (returned_flows h ht)⟩
  | nil =>
    rw [← length_unread, hunread, List.length_nil] at hpos
    exact absurd hpos (Nat.lt_irrefl 0)

end Segments

/-- The call has typed the first bytes of the line, or returned the whole. -/
inductive Along (mayus : Bool) (line before : List UInt8) : Reading → Prop
  | more {p : PipeRun.System} {g : Tty} {l : Line} {typed : List UInt8} :
      g.mayus = mayus → Shows (-1) l (typed.map (shifted mayus)) → typed <+: line →
      p.obtained = before ++ typed → Along mayus line before ⟨p, .more g l⟩
  | done {p : PipeRun.System} {g : Tty} {l : Line} :
      Shows (-1) l (line.map (shifted mayus)) →
      Along mayus line before ⟨p, .returned g (l.store l.count 0) l.count⟩

/-- What was stored so far may still become the line, and then the call is along it. -/
structure Good (t : Parties) (a : ℕ) (mayus : Bool) (line rest before : List UInt8)
    (s : Reading) : Prop where
  flows : Flows t a s.parties
  along : s.parties.stored <+: before ++ (line ++ 10 :: rest) → Along mayus line before s

theorem switch_along {g : Tty} {l : Line} {typed : List UInt8} {c : UInt8}
    (hmayus : g.mayus = mayus) (hshows : Shows (-1) l (typed.map (shifted mayus)))
    (hbegun : typed <+: line)
    (hline : ∀ c ∈ line, Printable c) (hlen : line.length ≤ 99)
    (hnext : typed ++ [c] <+: line ++ 10 :: rest)
    (hobtained : p.obtained = before ++ (typed ++ [c])) :
    Along mayus line before ⟨p, decode .pipe g l c⟩ := by
  obtain ⟨tail, rfl⟩ := hbegun
  rw [List.append_assoc, List.prefix_append_right_inj] at hnext
  cases tail with
  | nil =>
    obtain rfl : c = 10 := (List.cons_prefix_cons.mp hnext).1
    rw [List.append_nil]
    exact .done hshows
  | cons d tail =>
    obtain rfl : c = d := (List.cons_prefix_cons.mp hnext).1
    have hcount := hshows.count
    rw [List.length_map] at hcount
    rw [List.length_append, List.length_cons] at hlen
    have hroom : l.count < maxCount := by
      unfold maxCount
      omega
    rw [decode_printable (hline c (by simp)) hroom]
    refine .more hmayus ?_ ?_ hobtained
    · rw [List.map_append, hmayus]
      exact hshows.push (by simp [goesOn]) _
    · exact ⟨tail, by simp⟩

theorem got_good (h : Good t a mayus line rest before s) {g : Tty} {l : Line} {k : Kernel}
    {out : Read} (hline : ∀ c ∈ line, Printable c) (hlen : line.length ≤ 99)
    (hmore : s.outcome = .more g l) (hgot : Got t a s.parties k out) :
    Good t a mayus line rest before ⟨took s.parties k out, switch g l out⟩ := by
  obtain ⟨parties, outcome⟩ := s
  obtain rfl : outcome = .more g l := hmore
  cases hgot with
  | @byte i buffer rest' hunread hrest hobtained hflows =>
    refine ⟨hflows, fun hstored ↦ ?_⟩
    have hcontent := hflows.inv.holds.content
    cases h.along hstored with
    | @more _ _ _ typed hmayus hshows hbegun hbefore =>
      rw [hbefore, List.append_assoc] at hobtained
      have hnext : before ++ (typed ++ [keyOf i]) <+: before ++ (line ++ 10 :: rest) := by
        rw [← hobtained]
        exact (hcontent ▸ List.prefix_append _ _ : _ <+: parties.stored).trans hstored
      exact switch_along hmayus hshows hbegun hline hlen
        ((List.prefix_append_right_inj _).mp hnext) hobtained
  | blocked hunread hobtained hflows =>
    refine ⟨hflows, fun hstored ↦ ?_⟩
    cases h.along hstored with
    | more hmayus hshows hbegun hbefore =>
      exact .more hmayus hshows hbegun (hobtained.trans hbefore)

theorem step_good (hline : ∀ c ∈ line, Printable c) (hlen : line.length ≤ 99)
    (h : Good t a mayus line rest before s) (hs : Step t ⟨1, 0, a⟩ ⟨0, 1, a⟩ s x s') :
    Good t a mayus line rest before s' := by
  cases hs with
  | writer hx hstep =>
    obtain ⟨hflows, hobtained, hstored⟩ := writer_flows h.flows hx hstep
    refine ⟨hflows, fun hfits ↦ ?_⟩
    obtain ⟨parties, outcome⟩ := s
    cases h.along (hstored.trans hfits) with
    | more hmayus hshows hbegun hbefore =>
      exact .more hmayus hshows hbegun (hobtained.trans hbefore)
    | done hshows => exact .done hshows
  | read hmore hidle hcall =>
    obtain ⟨k, out, hcall', hgot⟩ := pipeRead_got h.flows
    rw [hcall] at hcall'
    cases hcall'
    exact got_good h hline hlen hmore hgot
  | resumeRead hmore hwaits hready hcall =>
    obtain ⟨k, out, hcall', hgot⟩ := resumeRead_got h.flows hwaits hready
    rw [hcall] at hcall'
    cases hcall'
    exact got_good h hline hlen hmore hgot
  | others hmore hmayus' =>
    refine ⟨h.flows, fun hstored ↦ ?_⟩
    obtain ⟨parties, outcome⟩ := s
    obtain rfl : outcome = _ := hmore
    cases h.along hstored with
    | more hmayus hshows hbegun hbefore =>
      exact .more (hmayus'.trans hmayus) hshows hbegun hbefore

def Awake (t : Parties) (p : PipeRun.System) : Prop :=
  p.reader = .idle ∨ p.kernel.pstate t.reader = 1

def Returned : Outcome → Prop
  | .returned .. => True
  | _ => False

theorem reader_goes (hline : ∀ c ∈ line, Printable c) (hlen : line.length ≤ 99)
    (h : Good t a mayus line rest before s)
    (hstored : s.parties.stored = before ++ (line ++ 10 :: rest)) (hawake : Awake t s.parties)
    (hmore : ¬ Returned s.outcome) :
    ∃ x s', Step t ⟨1, 0, a⟩ ⟨0, 1, a⟩ s x s' ∧ Good t a mayus line rest before s' ∧
      s'.parties.stored = s.parties.stored ∧ Awake t s'.parties ∧
      (unread (s'.parties.kernel.pipe a)).length < (unread (s.parties.kernel.pipe a)).length := by
  obtain ⟨parties, outcome⟩ := s
  cases h.along (hstored ▸ List.prefix_rfl) with
  | done hshows => exact absurd trivial hmore
  | @more _ g l typed hmayus hshows hbegun hbefore =>
    have hcontent := h.flows.inv.holds.content
    have hunread : unread (parties.kernel.pipe a) ≠ [] := by
      intro hnone
      rw [hnone, List.append_nil, hbefore] at hcontent
      have heq := List.append_cancel_left (hcontent.symm.trans hstored)
      have hlong := hbegun.length_le
      rw [heq, List.length_append, List.length_cons] at hlong
      omega
    obtain ⟨x, k, out, hstep, hgot⟩ : ∃ x k out,
        Step t ⟨1, 0, a⟩ ⟨0, 1, a⟩ ⟨parties, .more g l⟩ x ⟨took parties k out, switch g l out⟩ ∧
          Got t a parties k out := by
      cases hreader : parties.reader with
      | idle =>
        obtain ⟨k, out, hcall, hgot⟩ := pipeRead_got h.flows
        exact ⟨_, k, out, .read rfl hreader hcall, hgot⟩
      | waits limit =>
        obtain rfl := h.flows.limit limit hreader
        have hready := hawake.resolve_left (by simp [hreader])
        obtain ⟨k, out, hcall, hgot⟩ := resumeRead_got h.flows hreader hready
        exact ⟨_, k, out, .resumeRead rfl hreader hready hcall, hgot⟩
    refine ⟨x, _, hstep, got_good h hline hlen rfl hgot, rfl, ?_⟩
    cases hgot with
    | byte hnext hrest hobtained hflows =>
      refine ⟨Or.inl rfl, ?_⟩
      simp only [took, hnext, hrest, List.length_cons]
      exact Nat.lt_succ_self _
    | blocked hnone => exact absurd hnone hunread

section Perform

instance : DecidablePred Returned
  | .returned .. => inferInstanceAs (Decidable True)
  | .more .. | .exited .. | .hangs _ | .undefined => inferInstanceAs (Decidable False)

instance : DecidablePred Writes
  | .write string => inferInstanceAs (Decidable (string ≠ []))
  | .resumeWrite => inferInstanceAs (Decidable True)
  | .read _ | .resumeRead => inferInstanceAs (Decidable False)

def perform (t : Parties) (f0 f1 : FdPipe) (s : Reading) : Act → Option Reading
  | .writer x =>
    if Writes x then (PipeRun.perform t f0 f1 s.parties x).map fun p ↦ ⟨p, s.outcome⟩ else none
  | .read =>
    match s.outcome, s.parties.reader with
    | .more g l, .idle => (pipeRead s.parties.kernel t.reader f0 1).map fun r ↦
      ⟨took s.parties r.1 r.2, switch g l r.2⟩
    | _, _ => none
  | .resumeRead =>
    match s.outcome, s.parties.reader with
    | .more g l, .waits limit =>
      if limit = 1 ∧ s.parties.kernel.pstate t.reader = 1 then
        (resumeRead s.parties.kernel f0 1).map fun r ↦ ⟨took s.parties r.1 r.2, switch g l r.2⟩
      else none
    | _, _ => none
  | .others => none

theorem step_perform (h : perform t f0 f1 s x = some s') : Step t f0 f1 s x s' := by
  cases x with
  | writer x =>
    obtain ⟨hwrites, h⟩ := Option.ite_none_right_eq_some.mp h
    obtain ⟨p, hp, rfl⟩ := Option.map_eq_some_iff.mp h
    exact .writer hwrites (PipeRun.step_perform hp)
  | read =>
    simp only [perform] at h
    split at h
    · rename_i g l hmore hidle
      obtain ⟨⟨k, out⟩, hcall, rfl⟩ := Option.map_eq_some_iff.mp h
      exact .read hmore hidle hcall
    · cases h
  | resumeRead =>
    simp only [perform] at h
    split at h
    · rename_i g l limit hmore hwaits
      obtain ⟨⟨rfl, hready⟩, hread⟩ := Option.ite_none_right_eq_some.mp h
      obtain ⟨⟨k, out⟩, hcall, rfl⟩ := Option.map_eq_some_iff.mp hread
      exact .resumeRead hmore hwaits hready hcall
    · cases h
  | others => cases h

end Perform

end ShellOS.Terminal.PipeReader
