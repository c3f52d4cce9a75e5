import ShellOS.Ipc.Pipes

namespace ShellOS.Ipc.PipeSpec

open Library.Ring Library.Words Pipes Function

/-- The bytes stored and not read, from the ring cells that hold them. -/
def unread (p : Pipe) : List UInt8 := window pipeSize p.data p.readPos p.bytesToRead

/-- The bytes a segment of `pipeRead` hands to its caller: with limit 1 the
value returned, and otherwise the buffer. -/
def received (limit : ℤ) : Read → List UInt8
  | .returned i buffer =>
    if limit = 1 then if i = 0 then [] else [(Int8.ofInt i).toUInt8] else buffer
  | .blocked => []

/-- The ring holds what was stored and not obtained yet, in order. -/
structure Holds (p : Pipe) (stored obtained : List UInt8) : Prop where
  read_le : p.readPos ≤ pipeSize
  write_eq : p.writePos = (p.readPos + p.bytesToRead) % pipeSize
  bytes_le : p.bytesToRead ≤ pipeSize
  content : stored = obtained ++ unread p
  no_nul : 0 ∉ stored

structure SameEnds (p p' : Pipe) : Prop where
  id : p'.id = p.id
  readOpen : p'.readOpen = p.readOpen
  writeOpen : p'.writeOpen = p.writeOpen
  waitingProcess : p'.waitingProcess = p.waitingProcess

theorem SameEnds.refl (p : Pipe) : SameEnds p p := ⟨rfl, rfl, rfl, rfl⟩

theorem SameEnds.trans {p q r : Pipe} (h : SameEnds p q) (h' : SameEnds q r) : SameEnds p r :=
  ⟨h'.id.trans h.id, h'.readOpen.trans h.readOpen, h'.writeOpen.trans h.writeOpen,
    h'.waitingProcess.trans h.waitingProcess⟩

variable {p : Pipe} {stored obtained string : List UInt8} {c : UInt8} {i : ℕ}

theorem storeByte_spec (h : Holds p stored obtained) (hroom : p.bytesToRead < pipeSize)
    (hc : c ≠ 0) :
    ∃ p', storeByte p c = some p' ∧ Holds p' (stored ++ [c]) obtained ∧
      p'.bytesToRead = p.bytesToRead + 1 ∧ SameEnds p p' := by
  have hlt : p.writePos < pipeSize := by
    rw [h.write_eq]
    exact Nat.mod_lt _ (by decide)
  have hu : u32 (p.bytesToRead + 1) = p.bytesToRead + 1 := by
    unfold pipeSize at hroom
    rw [u32_of_lt (by omega)]
  have hnul : 0 ∉ stored ++ [c] := by
    intro h0
    rcases List.mem_append.mp h0 with h0 | h0
    · exact h.no_nul h0
    · exact hc (List.mem_singleton.mp h0).symm
  have hcontent : stored ++ [c] =
      obtained ++ window pipeSize (update p.data p.writePos c) p.readPos (p.bytesToRead + 1) := by
    rw [h.write_eq, window_push c hroom, ← List.append_assoc]
    exact congrArg (· ++ [c]) h.content
  refine ⟨_, if_pos hlt, ?_, hu, rfl, rfl, rfl, rfl⟩
  refine ⟨h.read_le, ?_, ?_, ?_, hnul⟩
  · have hw := h.write_eq
    simp only [hu]
    unfold pipeSize at hw hlt ⊢
    split <;> omega
  · simp only [hu]
    exact hroom
  · simp only [unread, hu]
    exact hcontent

theorem writeLoop_spec (h : Holds p stored obtained) (hs : 0 ∉ string) :
    ∃ p' out, writeLoop p i string = some (p', out) ∧ SameEnds p p' ∧
      (out = .returned (i + string.length : ℕ) ∧ Holds p' (stored ++ string) obtained ∧
          p'.bytesToRead = p.bytesToRead + string.length ∨
        ∃ s₁ c s₂, string = s₁ ++ c :: s₂ ∧ out = .blocked (i + s₁.length) c s₂ ∧
          Holds p' (stored ++ s₁) obtained ∧ p'.bytesToRead = pipeSize ∧
          p.bytesToRead + s₁.length = pipeSize) := by
  induction string generalizing p stored i with
  | nil =>
    exact ⟨p, .returned i, rfl, .refl p, Or.inl ⟨rfl, by simpa using h, rfl⟩⟩
  | cons c string ih =>
    have hc := List.ne_of_not_mem_cons hs
    replace hs := List.not_mem_of_not_mem_cons hs
    by_cases hfull : p.bytesToRead = pipeSize
    · refine ⟨p, .blocked i c string, by rw [writeLoop, if_pos hfull], .refl p,
        Or.inr ⟨[], c, string, rfl, rfl, by simpa using h, hfull, hfull⟩⟩
    · have hle := h.bytes_le
      obtain ⟨p₁, hstore, h₁, hb₁, hsame₁⟩ := storeByte_spec h (by omega) hc.symm
      obtain ⟨p₂, out, hloop, hsame₂, hout⟩ := ih (i := i + 1) h₁ hs
      refine ⟨p₂, out, ?_, hsame₁.trans hsame₂, ?_⟩
      · rw [writeLoop, if_neg hfull, hstore, Option.bind_some]
        exact hloop
      rcases hout with ⟨rfl, h₂, hb₂⟩ | ⟨s₁, d, s₂, rfl, rfl, h₂, hfull₂, hlen⟩
      · refine Or.inl ⟨?_, ?_, ?_⟩
        · rw [List.length_cons, Nat.add_right_comm, Nat.add_assoc]
        · rw [List.append_cons]
          exact h₂
        · rw [hb₂, hb₁, List.length_cons]
          omega
      · refine Or.inr ⟨c :: s₁, d, s₂, rfl, ?_, ?_, hfull₂, ?_⟩
        · rw [List.length_cons, Nat.add_right_comm, Nat.add_assoc]
        · rw [List.append_cons]
          exact h₂
        · rw [List.length_cons]
          omega

theorem byte_of_return (hc : c ≠ 0) :
    c.toInt8.toInt ≠ 0 ∧ (Int8.ofInt c.toInt8.toInt).toUInt8 = c := by
  have hback : (Int8.ofInt c.toInt8.toInt).toUInt8 = c := by
    rw [Int8.ofInt_toInt, UInt8.toUInt8_toInt8]
  refine ⟨fun h0 ↦ hc ?_, hback⟩
  rw [h0] at hback
  exact hback.symm

theorem takeByte_eq (hr : p.readPos ≤ pipeSize) :
    takeByte p = some ({ p with
      bytesToRead := p.bytesToRead - 1, readPos := p.readPos % pipeSize + 1 },
      p.data (p.readPos % pipeSize)) := by
  have hpos : (if p.readPos = pipeSize then 0 else p.readPos) = p.readPos % pipeSize := by
    unfold pipeSize at hr ⊢
    split <;> omega
  have hlt : p.readPos % pipeSize < pipeSize := Nat.mod_lt _ (by decide)
  simp only [takeByte, hpos, if_pos hlt]

theorem takeByte_spec (h : Holds p stored obtained) (hn : 0 < p.bytesToRead) :
    ∃ p' c, takeByte p = some (p', c) ∧ c ≠ 0 ∧ Holds p' stored (obtained ++ [c]) ∧
      p'.bytesToRead = p.bytesToRead - 1 ∧ SameEnds p p' := by
  obtain ⟨n, hn⟩ : ∃ n, p.bytesToRead = n + 1 := ⟨p.bytesToRead - 1, by omega⟩
  have hlt : p.readPos % pipeSize < pipeSize := Nat.mod_lt _ (by decide)
  have hunread : unread p = p.data (p.readPos % pipeSize) ::
      window pipeSize p.data (p.readPos % pipeSize + 1) n := by
    rw [unread, hn, window_pop, ← window_mod _ (p.readPos + 1),
      ← window_mod _ (p.readPos % pipeSize + 1), Nat.mod_add_mod]
  have hcontent := h.content
  rw [hunread] at hcontent
  have hne : p.data (p.readPos % pipeSize) ≠ 0 := by
    intro h0
    apply h.no_nul
    rw [hcontent, h0]
    simp
  refine ⟨_, _, takeByte_eq h.read_le, hne, ?_, rfl, rfl, rfl, rfl, rfl⟩
  refine ⟨hlt, ?_, ?_, ?_, h.no_nul⟩
  · have hw := h.write_eq
    unfold pipeSize at hw ⊢
    simp only
    omega
  · have hb := h.bytes_le
    simp only
    omega
  · rw [List.append_assoc]
    simp only [unread, hn, Nat.add_sub_cancel]
    exact hcontent

theorem readLoop_spec (limit : ℤ) {n : ℕ} (buffer : List UInt8) (h : Holds p stored obtained)
    (hn : p.bytesToRead = n) (hbuffer : limit = 1 → buffer = []) :
    ∃ p' i taken, readLoop limit n p buffer = some (p', .returned i (buffer ++ taken)) ∧
      Holds p' stored (obtained ++ received limit (.returned i taken)) ∧
      p'.bytesToRead ≤ n - 1 ∧ SameEnds p p' := by
  induction n generalizing p obtained buffer with
  | zero =>
    refine ⟨p, buffer.length, [], by rw [readLoop, List.append_nil], ?_, by omega, .refl p⟩
    by_cases hl : limit = 1
    · simpa [received, hl, hbuffer hl] using h
    · simpa [received, hl] using h
  | succ n ih =>
    obtain ⟨p₁, c, htake, hne, h₁, hb₁, hsame₁⟩ := takeByte_spec h (by omega)
    by_cases hl : limit = 1
    · obtain ⟨hret, hback⟩ := byte_of_return hne
      refine ⟨p₁, c.toInt8.toInt, [], ?_, ?_, by omega, hsame₁⟩
      · rw [readLoop, htake, Option.bind_some, if_pos hl, List.append_nil]
      · simpa only [received, if_pos hl, if_neg hret, hback] using h₁
    · obtain ⟨p₂, i, taken, hloop, h₂, hb₂, hsame₂⟩ :=
        ih (buffer ++ [c]) h₁ (by omega) (fun h1 ↦ absurd h1 hl)
      refine ⟨p₂, i, c :: taken, ?_, ?_, by omega, hsame₁.trans hsame₂⟩
      · rw [readLoop, htake, Option.bind_some, if_neg hl, hloop, List.append_assoc,
          List.singleton_append]
      · simp only [received, if_neg hl] at h₂ ⊢
        rw [List.append_cons]
        exact h₂

/-- What a segment of `pipeWrite` by process `w` does with `string`, when `i`
bytes of the call were stored before it. -/
inductive Wrote (k : Kernel) (a w i : ℕ) (string stored obtained : List UInt8) :
    Kernel → Written → Prop
  | returned {p' : Pipe} :
      Holds p' (stored ++ string) obtained → SameEnds (k.pipe a) p' →
      p'.bytesToRead = (k.pipe a).bytesToRead + string.length →
      Wrote k a w i string stored obtained (awake (k.setPipe a p') a)
        (.returned (i + string.length : ℕ))
  | blocked {p' : Pipe} {s₁ s₂ : List UInt8} {c : UInt8} :
      string = s₁ ++ c :: s₂ → Holds p' (stored ++ s₁) obtained → SameEnds (k.pipe a) p' →
      p'.bytesToRead = pipeSize → (k.pipe a).bytesToRead + s₁.length = pipeSize →
      Wrote k a w i string stored obtained (block (k.setPipe a p') a w)
        (.blocked (i + s₁.length) c s₂)

inductive Took (k : Kernel) (a r : ℕ) (limit : ℤ) (stored obtained : List UInt8) :
    Kernel → Read → Prop
  | returned {p' : Pipe} {out : Read} :
      Holds p' stored (obtained ++ received limit out) → SameEnds (k.pipe a) p' →
      p'.bytesToRead ≤ (k.pipe a).bytesToRead - 1 → out ≠ .blocked →
      Took k a r limit stored obtained (awake (k.setPipe a p') a) out
  | blocked : (k.pipe a).bytesToRead = 0 → Took k a r limit stored obtained (block k a r) .blocked

variable {k : Kernel} {a w r : ℕ}

theorem writeLoop_wrote (h : Holds (k.pipe a) stored obtained) (hs : 0 ∉ string) :
    ∃ k' out, (writeLoop (k.pipe a) i string).map (endWrite k a w) = some (k', out) ∧
      Wrote k a w i string stored obtained k' out := by
  obtain ⟨p', out, hloop, hsame, hout⟩ := writeLoop_spec (i := i) h hs
  rw [hloop, Option.map_some]
  rcases hout with ⟨rfl, h', hb⟩ | ⟨s₁, c, s₂, rfl, rfl, h', hb, hlen⟩
  · exact ⟨_, _, rfl, .returned h' hsame hb⟩
  · exact ⟨_, _, rfl, .blocked rfl h' hsame hb hlen⟩

theorem pipeWrite_spec (h : Holds (k.pipe a) stored obtained) (hopen : (k.pipe a).readOpen = 1)
    (hs : 0 ∉ string) :
    ∃ k' out, pipeWrite k w ⟨0, 1, a⟩ string = some (k', out) ∧
      Wrote k a w 0 string stored obtained k' out := by
  have hok : ¬ (1 = 0 ∨ ((k.pipe a).readOpen = 0 ∧ (k.pipe a).bytesToRead = pipeSize)) := by
    omega
  simp only [pipeWrite, if_neg hok]
  exact writeLoop_wrote h hs

theorem resumeWrite_spec (h : Holds (k.pipe a) stored obtained) {c : UInt8} (hs : 0 ∉ c :: string)
    (hroom : (k.pipe a).bytesToRead < pipeSize) :
    ∃ k' out, resumeWrite k w ⟨0, 1, a⟩ i c string = some (k', out) ∧
      Wrote k a w i (c :: string) stored obtained k' out := by
  obtain ⟨k', out, hloop, hw⟩ := writeLoop_wrote (i := i) (w := w) h hs
  rw [writeLoop, if_neg (by omega)] at hloop
  exact ⟨k', out, hloop, hw⟩

theorem resumeRead_spec (limit : ℤ) (h : Holds (k.pipe a) stored obtained) :
    ∃ k' out, resumeRead k ⟨1, 0, a⟩ limit = some (k', out) ∧
      Took k a r limit stored obtained k' out := by
  obtain ⟨p', i, taken, hloop, h', hb, hsame⟩ := readLoop_spec limit [] h rfl (fun _ ↦ rfl)
  simp only [resumeRead, hloop, Option.map_some]
  exact ⟨_, _, rfl, .returned h' hsame hb (by simp)⟩

theorem pipeRead_spec (limit : ℤ) (h : Holds (k.pipe a) stored obtained)
    (hopen : (k.pipe a).writeOpen = 1) :
    ∃ k' out, pipeRead k r ⟨1, 0, a⟩ limit = some (k', out) ∧
      Took k a r limit stored obtained k' out := by
  by_cases hb : (k.pipe a).bytesToRead = 0
  · refine ⟨block k a r, .blocked, ?_, .blocked hb⟩
    simp [pipeRead, hb, hopen]
  · obtain ⟨k', out, hread, ht⟩ := resumeRead_spec (r := r) limit h
    refine ⟨k', out, ?_, ht⟩
    simp only [pipeRead, if_neg hb]
    exact hread

end ShellOS.Ipc.PipeSpec
