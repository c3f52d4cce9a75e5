import ShellOS.Ipc.PipeEnds
import ShellOS.Terminal.LineDiscipline

namespace ShellOS.Terminal.PipeLine

open Library.Runs Ipc Pipes PipeSpec Read LineDiscipline Function
open PipeRun (Parties boot createPipe_ends took_after newPipe newPipe_made twoProcesses)
open PipeEnds (length_unread resumeRead_ne_zero)

/-- A result of `pipeRead` as an `unsigned char`. -/
def keyOf (i : ℤ) : UInt8 := (Int8.ofInt i).toUInt8

/-- `read(buf, limit)` of a process whose `stdin` is a pipe, up to its first
wait, with at most so many calls of `pipeRead`. -/
def readPipe (limit : ℤ) (current : ℕ) (stdin : FdPipe) :
    ℕ → Kernel → Tty → Line → Option (Kernel × Outcome)
  | 0, _, _, _ => none
  | n + 1, k, g, l =>
    if goesOn limit l.count then
      (pipeRead k current stdin 1).bind fun r ↦
        match r.2 with
        | .blocked => some (r.1, .more g l)
        | .returned i _ =>
          match decode .pipe g l (keyOf i) with
          | .more g l => readPipe limit current stdin n r.1 g l
          | out => some (r.1, out)
    else some (k, leave g l)

variable {k : Kernel} {a r n : ℕ} {stored obtained line rest text : List UInt8} {c d : UInt8}
  {g : Tty} {l : Line}

theorem bytes_of_unread (hunread : unread (k.pipe a) = c :: rest) :
    (k.pipe a).bytesToRead ≠ 0 := by
  rw [← length_unread, hunread]
  exact Nat.succ_ne_zero _

theorem received_unread {k' : Kernel} {out : Read} (h : Holds (k.pipe a) stored obtained)
    (hunread : unread (k.pipe a) = c :: rest) (hreceived : received 1 out = [d])
    (htook : Took k a r 1 stored obtained k' out) : c = d ∧ rest = unread (k'.pipe a) := by
  have hcontent := (took_after h htook).1.content
  rw [h.content, hunread, hreceived, List.append_assoc, List.append_cancel_left_eq,
    List.singleton_append, List.cons.injEq] at hcontent
  exact hcontent

theorem resumeRead_next (h : Holds (k.pipe a) stored obtained)
    (hunread : unread (k.pipe a) = c :: rest) :
    ∃ k' i buffer, resumeRead k ⟨1, 0, a⟩ 1 = some (k', .returned i buffer) ∧ keyOf i = c ∧
      received 1 (.returned i buffer) = [c] ∧
      Took k a r 1 stored obtained k' (.returned i buffer) := by
  have hbytes := bytes_of_unread hunread
  obtain ⟨k', out, hread, htook⟩ := resumeRead_spec (r := r) 1 h
  cases out with
  | blocked =>
    cases htook with
    | returned hholds hsame hb hout => exact absurd rfl hout
    | blocked hb => exact absurd hb hbytes
  | returned i buffer =>
    have hi := resumeRead_ne_zero h hbytes hread
    have hreceived : received 1 (.returned i buffer) = [keyOf i] := by
      rw [received, if_pos rfl, if_neg hi, keyOf]
    obtain ⟨hfirst, -⟩ := received_unread h hunread hreceived htook
    rw [← hfirst] at hreceived
    exact ⟨k', i, buffer, hread, hfirst.symm, hreceived, htook⟩

theorem pipeRead_next (h : Holds (k.pipe a) stored obtained)
    (hunread : unread (k.pipe a) = c :: rest) :
    ∃ k' i buffer, pipeRead k r ⟨1, 0, a⟩ 1 = some (k', .returned i buffer) ∧ keyOf i = c ∧
      received 1 (.returned i buffer) = [c] ∧
      Took k a r 1 stored obtained k' (.returned i buffer) := by
  have hbytes := bytes_of_unread hunread
  have hcall : pipeRead k r ⟨1, 0, a⟩ 1 = resumeRead k ⟨1, 0, a⟩ 1 := by
    simp only [pipeRead, one_ne_zero, if_false, if_neg hbytes]
  rw [hcall]
  exact resumeRead_next h hunread

/-- The loop on a pipe is the loop over the keys that `pipeRead` gives. -/
theorem readPipe_keys {limit : ℤ} {fd : FdPipe} {k' : Kernel} {out : Outcome}
    (h : readPipe limit r fd n k g l = some (k', out)) :
    ∃ keys : List UInt8, Read.readLoop .pipe limit (keys.map Turn.alone) g l = out := by
  induction n generalizing k g l with
  | zero => cases h
  | succ n ih =>
    rw [readPipe] at h
    split at h
    · rename_i hroom
      obtain ⟨⟨k₁, res⟩, -, h⟩ := Option.bind_eq_some_iff.mp h
      cases res with
      | blocked =>
        cases h
        exact ⟨[], by rw [List.map_nil, Read.readLoop, if_pos hroom]⟩
      | returned i buffer =>
        have hfirst : ∀ keys : List UInt8,
            Read.readLoop .pipe limit ((keyOf i :: keys).map Turn.alone) g l =
              (decode .pipe g l (keyOf i)).andThen
                (Read.readLoop .pipe limit (keys.map Turn.alone)) := by
          intro keys
          rw [List.map_cons, Read.readLoop, if_pos hroom]
          rfl
        simp only at h
        split at h
        · rename_i g' l' hmore
          obtain ⟨keys, hkeys⟩ := ih h
          exact ⟨keyOf i :: keys, by rw [hfirst, hmore, ← hkeys]; rfl⟩
        · rename_i out' hstop
          cases h
          refine ⟨[keyOf i], ?_⟩
          rw [hfirst]
          cases hout : decode .pipe g l (keyOf i) with
          | more g' l' => exact absurd hout (hstop g' l')
          | _ => rfl
    · rename_i hroom
      cases h
      exact ⟨[], by rw [List.map_nil, Read.readLoop, if_neg hroom]⟩

theorem readPipe_next (h : Holds (k.pipe a) stored obtained)
    (hunread : unread (k.pipe a) = c :: rest) :
    ∃ k', Holds (k'.pipe a) stored (obtained ++ [c]) ∧ unread (k'.pipe a) = rest ∧
      (∀ {g' : Tty} {l' : Line}, decode .pipe g l c = .more g' l' →
        readPipe (-1) r ⟨1, 0, a⟩ (n + 1) k g l = readPipe (-1) r ⟨1, 0, a⟩ n k' g' l') ∧
      ∀ {g' : Tty} {l' : Line} {ret : ℤ}, decode .pipe g l c = .returned g' l' ret →
        readPipe (-1) r ⟨1, 0, a⟩ (n + 1) k g l = some (k', .returned g' l' ret) := by
  obtain ⟨k', i, buffer, hread, rfl, hreceived, htook⟩ := pipeRead_next (r := r) h hunread
  have hroom : goesOn (-1) l.count = true := by simp [goesOn]
  have hholds := (took_after h htook).1
  obtain ⟨-, hrest⟩ := received_unread h hunread hreceived htook
  rw [hreceived] at hholds
  refine ⟨k', hholds, hrest.symm, fun hmore ↦ ?_, fun hreturned ↦ ?_⟩
  · rw [readPipe, if_pos hroom, hread, Option.bind_some]
    simp only [hmore]
  · rw [readPipe, if_pos hroom, hread, Option.bind_some]
    simp only [hreturned]

theorem readPipe_line (hholds : Holds (k.pipe a) stored obtained)
    (hunread : unread (k.pipe a) = line ++ 10 :: rest) (hline : ∀ c ∈ line, Printable c)
    (hshows : Shows (-1) l text) (hlen : text.length + line.length ≤ maxCount)
    (hn : line.length < n) :
    ∃ k' l', readPipe (-1) r ⟨1, 0, a⟩ n k g l =
        some (k', .returned g (l'.store l'.count 0) l'.count) ∧
      Shows (-1) l' (text ++ line.map (shifted g.mayus)) := by
  induction line generalizing k obtained l text n with
  | nil =>
    obtain ⟨n, rfl⟩ := Library.Links.exists_succ hn
    obtain ⟨k', -, -, -, hreturned⟩ := readPipe_next (n := n) (g := g) (l := l) hholds hunread
    exact ⟨k', l, hreturned rfl, by simpa using hshows⟩
  | cons c line ih =>
    rw [List.forall_mem_cons] at hline
    rw [List.length_cons] at hlen hn
    have hcount := hshows.count
    obtain ⟨n, rfl⟩ := Library.Links.exists_succ hn
    obtain ⟨k', hholds', hunread', hmore, -⟩ :=
      readPipe_next (n := n) (g := g) (l := l) hholds hunread
    have hpush := hshows.push (by simp [goesOn]) (shifted g.mayus c)
    have hlen' : (text ++ [shifted g.mayus c]).length + line.length ≤ maxCount := by
      rw [List.length_append, List.length_singleton]
      omega
    obtain ⟨k'', l', hloop, hshows'⟩ :=
      ih hholds' hunread' hline.2 hpush hlen' (Nat.lt_of_succ_lt_succ hn)
    refine ⟨k'', l', ?_, ?_⟩
    · rw [hmore (decode_printable hline.1 (by omega))]
      exact hloop
    · rw [List.map_cons]
      simpa using hshows'

/-- The result of `read` is the line: its length, and its bytes before a NUL. -/
def Reads (line : List UInt8) : Outcome → Prop
  | .returned _ l ret =>
    ret = line.length ∧ (List.range line.length).map l.buf = line ∧ l.buf line.length = 0
  | _ => False

theorem reads_iff (h : Shows (-1) l text) (hlen : text.length = line.length)
    (hle : line.length ≤ 100) :
    Reads line (.returned g (l.store l.count 0) l.count) ↔ text = line := by
  have hcount := h.count
  have htext : (List.range line.length).map (l.store l.count 0).buf = text := by
    rw [← hlen, ← h.prefix_eq (by omega)]
    rw [List.length_map, List.length_range]
    apply List.map_congr_left
    intro i hi
    have hne : i ≠ l.count := by
      have hlt := List.mem_range.mp hi
      omega
    exact update_of_ne hne _ _
  simp only [Reads, htext]
  constructor
  · exact fun hreads ↦ hreads.2.1
  · intro heq
    refine ⟨by omega, heq, ?_⟩
    rw [← hlen, ← hcount]
    exact update_self _ _ _

theorem shifted_eq_iff (mayus : Bool) (c : UInt8) :
    shifted mayus c = c ↔ mayus = false ∨ ¬ (c ≥ 97 ∧ c ≤ 122) ∧ c ≠ 54 := by
  cases mayus with
  | false => simp [shifted]
  | true =>
    simp only [shifted, true_and, Bool.true_eq_false, false_or]
    by_cases hletter : c ≥ 97 ∧ c ≤ 122
    · obtain ⟨-, h6, hne⟩ := upper_ne hletter.1
      rw [if_pos hletter, if_neg h6]
      exact iff_of_false hne (fun h ↦ h.1 hletter)
    · by_cases h6 : c = 54
      · simp [h6]
      · simp [hletter, h6]

theorem reads_shifted_iff {mayus : Bool} (h : Shows (-1) l (line.map (shifted mayus)))
    (hlen : line.length ≤ 99) : Reads line (.returned g (l.store l.count 0) l.count) ↔
      mayus = false ∨ ∀ c ∈ line, ¬ (c ≥ 97 ∧ c ≤ 122) ∧ c ≠ 54 := by
  have hmap : line.map (shifted mayus) = line ↔ ∀ c ∈ line, shifted mayus c = c := by
    conv_lhs => rhs; rw [← List.map_id line]
    exact List.map_inj_left
  rw [reads_iff h (List.length_map _) (by omega), hmap]
  simp only [shifted_eq_iff, forall_or_left]

variable {t : Parties} {f0 f1 : FdPipe}

/-- A line of at most 99 printable bytes at the front of a pipe is read as it
was written exactly if the shift is off, or no byte of it has another one on its key. -/
theorem read_line_iff {k₀ : Kernel} {g0 g1 : FdPipe} {tr : List (PipeRun.System × PipeRun.Act)}
    {s : PipeRun.System} {buf : ℕ → UInt8}
    (hmake : createPipe k₀ g0 g1 a = (k, f0, f1, 0))
    (hrun : Run (PipeRun.Step t f0 f1) (boot k) tr s)
    (hunread : unread (s.kernel.pipe a) = line ++ 10 :: rest) (hline : ∀ c ∈ line, Printable c)
    (hlen : line.length ≤ 99) (hn : line.length < n) :
    (∃ k' out, readPipe (-1) t.reader f0 n s.kernel g ⟨0, buf, []⟩ = some (k', out) ∧
        Reads line out) ↔
      g.mayus = false ∨ ∀ c ∈ line, ¬ (c ≥ 97 ∧ c ≤ 122) ∧ c ≠ 54 := by
  obtain ⟨rfl, rfl, -, -, -, hboot⟩ := createPipe_ends (t := t) hmake
  have hinv : PipeRun.Invariant t a s :=
    hrun.invariant (fun _ _ _ ha hs ↦ PipeRun.step_invariant ha hs) hboot
  have hcount : ([] : List UInt8).length + line.length ≤ maxCount := by
    unfold maxCount
    rw [List.length_nil]
    omega
  obtain ⟨k', l, hread, hshows⟩ := readPipe_line (r := t.reader) (g := g) hinv.holds hunread hline
    (.start (Or.inl rfl) buf) hcount hn
  rw [List.nil_append] at hshows
  rw [← reads_shifted_iff hshows hlen, hread]
  constructor
  · intro ⟨k'', out, hcall, hout⟩
    cases hcall
    exact hout
  · exact fun hout ↦ ⟨k', _, rfl, hout⟩

def words : List UInt8 := [99, 97, 116, 32, 54, 32, 34, 98, 34]

def writeAround : List PipeRun.Act :=
  [.write (List.replicate 507 120), .read 0, .write (words ++ [10, 120])]

theorem read_line_around : ∃ tr s,
    Run (PipeRun.Step twoProcesses ⟨1, 0, 0x3000⟩ ⟨0, 1, 0x3000⟩) (boot newPipe) tr s ∧
      tr.map Prod.snd = writeAround ∧
      ∃ k' out, readPipe (-1) twoProcesses.reader ⟨1, 0, 0x3000⟩ 10 s.kernel bootTty
          ⟨0, fun _ ↦ 0, []⟩ = some (k', out) ∧ Reads words out := by
  have hend : (writeAround.foldlM (PipeRun.perform twoProcesses ⟨1, 0, 0x3000⟩ ⟨0, 1, 0x3000⟩)
      (boot newPipe)).map (fun s ↦ unread (s.kernel.pipe 0x3000)) = some (words ++ [10, 120]) := by
    decide +kernel
  obtain ⟨s, hs, hunread⟩ := Option.map_eq_some_iff.mp hend
  obtain ⟨tr, hrun, hacts⟩ := PipeRun.run_of_perform hs
  have hline : ∀ c ∈ words, Printable c := by simp [words, Printable]
  exact ⟨tr, s, hrun, hacts, (read_line_iff newPipe_made hrun hunread hline (by decide)
    (by decide)).mpr (Or.inl rfl)⟩

/-- With the shift on, `a` comes out of the pipe as `A`. -/
theorem letter_becomes_capital : ∃ tr s k' g l,
    Run (PipeRun.Step twoProcesses ⟨1, 0, 0x3000⟩ ⟨0, 1, 0x3000⟩) (boot newPipe) tr s ∧
      unread (s.kernel.pipe 0x3000) = [97, 10] ∧
      readPipe (-1) twoProcesses.reader ⟨1, 0, 0x3000⟩ 2 s.kernel { bootTty with mayus := true }
        ⟨0, fun _ ↦ 0, []⟩ = some (k', .returned g l 1) ∧
      (List.range 1).map l.buf = [65] ∧ ¬ Reads [97] (.returned g l 1) := by
  have hstep : PipeRun.Step twoProcesses ⟨1, 0, 0x3000⟩ ⟨0, 1, 0x3000⟩ (boot newPipe)
      (.write [97, 10]) _ := .write rfl (by decide) rfl
  refine ⟨_, _, _, _, _, .one hstep, rfl, rfl, rfl, ?_⟩
  exact fun hreads ↦ absurd hreads.2.1 (by decide)

end ShellOS.Terminal.PipeLine
