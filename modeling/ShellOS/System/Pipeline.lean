import ShellOS.Ipc.PipeCapacity
import ShellOS.Userland.Packing

namespace ShellOS.System.Pipeline

open Library.Runs Library.Tokens Ipc.Pipes Ipc.PipeCapacity Function
open Userland.Strings Userland.CommandLine Userland.Shell
open Userland.Packing hiding createProcess
open Ipc.PipeConsole (Buffer Text)

/-- A call of `createProcess`: the index in `processFunc` and the arguments. -/
structure Program where
  function : ℕ
  argc : ℕ
  argv : Args
  customStdin : ℕ
  customStdout : ℕ

/-- The pipes, the descriptors by address, the blocks that `alloc` has given
out, and the programs that became processes. -/
structure State where
  kernel : Kernel
  fd : ℕ → FdPipe
  blocks : List ℕ
  programs : List Program

/-- What the calls of `alloc` return: the descriptors, the pipe, and for each
program its node and its stack. -/
structure Grants where
  pipeRead : ℕ
  pipeWrite : ℕ
  pipe : ℕ
  node1 : ℕ
  stack1 : ℕ
  node2 : ℕ
  stack2 : ℕ

def grant (s : State) (a : ℕ) : State := { s with blocks := [a].filter (· ≠ 0) ++ s.blocks }

def createFdPipe (s : State) (fd : ℕ) : State := grant s fd

def createPipe (s : State) (f0 f1 newPipe : ℕ) : State :=
  let r := Ipc.Pipes.createPipe s.kernel (s.fd f0) (s.fd f1) newPipe
  if r.2.2.2 = 0 then
    grant { s with kernel := r.1, fd := update (update s.fd f0 r.2.1) f1 r.2.2.1 } newPipe
  else s

/-- A process whose node is `NULL` does not come into the list. The block of
its arguments is freed again. -/
def createProcess (s : State) (p : Program) (node stack : ℕ) : State :=
  let s := if node ≠ 0 then { s with programs := s.programs ++ [p] } else s
  grant (grant s node) stack

/-- `rows[i][j] = c`, in an array of five rows. -/
def storeRow (rows : Args) (i j : ℕ) (c : UInt8) : Option Args :=
  if i < maxArgAmt ∧ j < maxArgCommandLen + 1 then some (update rows (21 * i + j) c) else none

/-- The calls of `managePipe` before it looks for the names. Their results are
not looked at. -/
def acquire (s : State) (g : Grants) : State :=
  let s := createFdPipe s g.pipeRead
  let s := createFdPipe s g.pipeWrite
  createPipe s g.pipeRead g.pipeWrite g.pipe

/-- `managePipe`, with the contents of its two arrays before, and the bytes it
prints. -/
def managePipe (s : State) (g : Grants) (args args1 args2 : Args) (index argNum : ℕ) :
    Option (State × List Sys) :=
  let s := acquire s g
  (copyRows storeRow args index 0 0 args1).bind fun args1 ↦
    (copyRows storeRow args (argNum - (index + 1)) 0 (index + 1) args2).map fun args2 ↦
      let indexP1 := findName (row args 0) processList (-1)
      let indexP2 := findName (row args (index + 1)) processList (-1)
      if indexP1 = -1 ∨ indexP2 = -1 then (s, [print "Command not found, try 'help'\n"])
      else
        let s := createProcess s ⟨indexP1.toNat, index, args1, 0, g.pipeWrite⟩ g.node1 g.stack1
        (createProcess s ⟨indexP2.toNat, argNum - index - 1, args2, g.pipeRead, 0⟩ g.node2 g.stack2,
          [])

structure Command where
  toks : List (List UInt8)
  index : ℕ
  args : Args
  args1 : Args
  args2 : Args

/-- The shell comes to `managePipe` with this. -/
def Reached (c : Command) : Prop :=
  ∃ status buffer line args, Text buffer 0 line ∧ line.length ≤ 100 ∧ c.toks = tokens line ∧
    executeCommand status 101 buffer args = some (.pipeline c.args c.index c.toks.length)

structure Fresh (s : State) (g : Grants) : Prop where
  pipe : g.pipe ≠ 0 → g.pipe ∉ s.kernel.pipes
  apart : g.pipeRead ≠ 0 → g.pipeRead ≠ g.pipeWrite

def Started (c : Command) (s s' : State) : Prop :=
  ∃ (p q : Program) (a : ℕ), s'.programs = s.programs ++ [p, q] ∧
    (processList[p.function]? = c.toks[0]? ∧ p.argc = c.index ∧ Rows p.argv (c.toks.take c.index)) ∧
    (processList[q.function]? = c.toks[c.index + 1]? ∧ q.argc = c.toks.length - (c.index + 1) ∧
      Rows q.argv (c.toks.drop (c.index + 1))) ∧
    (p.customStdin = 0 ∧ p.customStdout ≠ 0 ∧ s'.fd p.customStdout = ⟨0, 1, a⟩) ∧
    (q.customStdin ≠ 0 ∧ q.customStdout = 0 ∧ s'.fd q.customStdin = ⟨1, 0, a⟩) ∧
    a ≠ 0 ∧ a ∉ s.kernel.pipes ∧ a ∈ s'.kernel.pipes

def Untouched (s s' : State) : Prop :=
  s'.programs = s.programs ∧ s'.kernel = s.kernel ∧ s'.blocks = s.blocks

def Whole (c : Command) (s s' : State) : Prop := Started c s s' ∨ Untouched s s'

def Known (c : Command) : Prop :=
  (∃ name ∈ processList, c.toks[0]? = some name) ∧
    ∃ name ∈ processList, c.toks[c.index + 1]? = some name

/-- In a table with room both programs are known and all memory is there. In a
full one no memory is. -/
def Fits (s : State) (c : Command) (g : Grants) : Prop :=
  if s.kernel.pipes.length = maxPipes then
    g.pipeRead = 0 ∧ g.pipeWrite = 0 ∧
      (Known c → g.node1 = 0 ∧ g.stack1 = 0 ∧ g.node2 = 0 ∧ g.stack2 = 0)
  else
    Known c ∧ g.pipeRead ≠ 0 ∧ g.pipeWrite ≠ 0 ∧ g.pipe ≠ 0 ∧ g.node1 ≠ 0 ∧ g.node2 ≠ 0

variable {s s' : State} {g : Grants} {c : Command} {name : List UInt8} {args args1 args2 : Args}
  {toks : List (List UInt8)} {index i k : ℕ}

section Names

theorem lookup_known (h : name ∈ processList) : lookup name processList (-1) ≠ -1 := by
  have hall : ∀ name ∈ processList, lookup name processList (-1) ≠ -1 := by decide
  exact hall name h

theorem findName_cases (h : Rows args toks) (hname : toks[i]? = some name) :
    findName (row args i) processList (-1) = -1 ∧ name ∉ processList ∨
      ∃ n : ℕ, findName (row args i) processList (-1) = n ∧ processList[n]? = some name := by
  rw [findName_text (h i name hname) processList_ne_nul]
  rcases lookup_cases name processList (-1) with hnone | ⟨n, hn, hget⟩
  · exact Or.inl ⟨hnone, fun hmem ↦ lookup_known hmem hnone⟩
  · exact Or.inr ⟨n, hn, hget⟩

end Names

section Reached

structure Promised (c : Command) : Prop where
  rows : Rows c.args c.toks
  length : c.toks.length ≤ 6
  short : ∀ w ∈ c.toks, w.length ≤ 20
  first : 1 ≤ c.index
  last : c.index + 1 < c.toks.length

theorem tokens_short {line : List UInt8} (h : ¬ Rejected line) :
    ∀ w ∈ tokens line, w.length ≤ 20 := by
  intro w hw
  rcases List.mem_cons.mp hw with rfl | hw
  · exact length_word_le h
  · obtain ⟨v, -, rfl⟩ := List.mem_map.mp hw
    exact List.length_take_le _ _

theorem tokens_length_le (line : List UInt8) : (tokens line).length ≤ 6 := by
  rw [tokens, List.length_cons, List.length_map]
  exact Nat.succ_le_succ (List.length_take_le _ _)

theorem findPipe_bounds {argNum : ℕ} (h : findPipe args argNum = some index) :
    1 ≤ index ∧ index + 1 < argNum := by
  have hmem := List.mem_range'_1.mp (List.mem_of_find?_eq_some h)
  omega

theorem Reached.promised (h : Reached c) : Promised c := by
  obtain ⟨status, buffer, line, args, htext, hlen, htoks, hexec⟩ := h
  by_cases hrejected : Rejected line
  · rw [executeCommand, tokenize_rejected htext hrejected] at hexec
    cases hexec
  obtain ⟨args', htokenize, hstored⟩ := tokenize_stored htext hlen hrejected args
  rw [executeCommand, htokenize, Option.bind_some, ← htoks] at hexec
  rw [← htoks] at hstored
  have hrun : runCommand status args' c.toks.length =
      some (.pipeline c.args c.index c.toks.length) := hexec
  unfold runCommand at hrun
  cases hfind : findPipe args' c.toks.length with
  | none =>
    rw [hfind] at hrun
    dsimp only at hrun
    split at hrun
    · cases hrun
    split at hrun
    · obtain ⟨calls, -, hcalls⟩ := Option.map_eq_some_iff.mp hrun
      cases hcalls
    · cases hrun
  | some index =>
    rw [hfind] at hrun
    obtain ⟨hargs, hindex, -⟩ := Outcome.pipeline.inj (Option.some.inj hrun)
    obtain ⟨hfirst, hlast⟩ := findPipe_bounds hfind
    subst hargs hindex
    refine ⟨.of_stored hstored, ?_, ?_, hfirst, hlast⟩
    · rw [htoks]
      exact tokens_length_le line
    · rw [htoks]
      exact tokens_short hrejected

end Reached

section Acquire

theorem acquire_full (h : s.kernel.pipes.length = maxPipes) (g : Grants) :
    (acquire s g).programs = s.programs ∧ (acquire s g).kernel = s.kernel ∧
      (acquire s g).blocks = [g.pipeWrite, g.pipeRead].filter (· ≠ 0) ++ s.blocks := by
  have hcreate : ∀ f0 f1, Ipc.Pipes.createPipe s.kernel f0 f1 g.pipe = (s.kernel, f0, f1, -1) :=
    fun f0 f1 ↦ if_pos h
  have hsplit : [g.pipeWrite, g.pipeRead] = [g.pipeWrite] ++ [g.pipeRead] := rfl
  simp only [acquire, createPipe, createFdPipe, grant, hcreate]
  refine ⟨rfl, rfl, ?_⟩
  rw [hsplit, List.filter_append, List.append_assoc]
  rfl

theorem acquire_room (h : s.kernel.pipes.length ≠ maxPipes) (g : Grants) :
    (acquire s g).programs = s.programs ∧
      (acquire s g).kernel.pipes = s.kernel.pipes ++ [g.pipe] ∧
      (acquire s g).fd =
        update (update s.fd g.pipeRead ⟨1, 0, g.pipe⟩) g.pipeWrite ⟨0, 1, g.pipe⟩ := by
  have hcreate : ∀ f0 f1, ∃ k, Ipc.Pipes.createPipe s.kernel f0 f1 g.pipe =
      (k, ⟨1, 0, g.pipe⟩, ⟨0, 1, g.pipe⟩, 0) ∧ k.pipes = s.kernel.pipes ++ [g.pipe] :=
    fun f0 f1 ↦ ⟨_, if_neg h, rfl⟩
  obtain ⟨k, hk, hpipes⟩ := hcreate (s.fd g.pipeRead) (s.fd g.pipeWrite)
  simp only [acquire, createPipe, createFdPipe, grant, hk]
  exact ⟨rfl, hpipes, rfl⟩

theorem createProcess_fields (s : State) (p : Program) (node stack : ℕ) :
    (createProcess s p node stack).kernel = s.kernel ∧
      (createProcess s p node stack).fd = s.fd ∧
      (createProcess s p node stack).blocks = [stack, node].filter (· ≠ 0) ++ s.blocks ∧
      (createProcess s p node stack).programs = s.programs ++ if node ≠ 0 then [p] else [] := by
  have hsplit : [stack, node] = [stack] ++ [node] := rfl
  rw [hsplit, List.filter_append, List.append_assoc]
  unfold createProcess
  by_cases hnode : node = 0
  · rw [if_neg (not_not.mpr hnode), if_neg (not_not.mpr hnode), List.append_nil]
    exact ⟨rfl, rfl, rfl, rfl⟩
  · rw [if_pos hnode, if_pos hnode]
    exact ⟨rfl, rfl, rfl, rfl⟩

def launch (s : State) (g : Grants) (p q : Program) : State :=
  createProcess (createProcess s p g.node1 g.stack1) q g.node2 g.stack2

theorem launch_fields (s : State) (g : Grants) (p q : Program) :
    (launch s g p q).kernel = s.kernel ∧ (launch s g p q).fd = s.fd ∧
      (launch s g p q).blocks =
        [g.node1, g.stack1, g.node2, g.stack2].reverse.filter (· ≠ 0) ++ s.blocks ∧
      (launch s g p q).programs = s.programs ++ (if g.node1 ≠ 0 then [p] else []) ++
        if g.node2 ≠ 0 then [q] else [] := by
  have hsplit : [g.node1, g.stack1, g.node2, g.stack2].reverse =
      [g.stack2, g.node2] ++ [g.stack1, g.node1] := rfl
  obtain ⟨hkernel1, hfd1, hblocks1, hprograms1⟩ := createProcess_fields s p g.node1 g.stack1
  obtain ⟨hkernel, hfd, hblocks, hprograms⟩ :=
    createProcess_fields (createProcess s p g.node1 g.stack1) q g.node2 g.stack2
  rw [hsplit, List.filter_append, List.append_assoc, ← hblocks1, ← hprograms1]
  exact ⟨hkernel.trans hkernel1, hfd.trans hfd1, hblocks, hprograms⟩

end Acquire

section Manage

theorem storeRow_row (i : ℕ) (hi : i < 5) (rows : Args) (k : ℕ) (b : UInt8) (hk : k ≤ 20) :
    storeRow rows i k b = some (update rows (21 * i + k) b) :=
  if_pos ⟨hi, Nat.lt_succ_of_le hk⟩

theorem Promised.copied (h : Promised c) : ∃ args1 args2,
    copyRows storeRow c.args c.index 0 0 c.args1 = some args1 ∧
      copyRows storeRow c.args (c.toks.length - (c.index + 1)) 0 (c.index + 1) c.args2 = some args2 ∧
      Rows args1 (c.toks.take c.index) ∧ Rows args2 (c.toks.drop (c.index + 1)) := by
  obtain ⟨hrows, hlength, hshort, hfirst, hlast⟩ := h
  have htake : (c.toks.take c.index).length = c.index := by
    rw [List.length_take]
    omega
  have hdrop : (c.toks.drop (c.index + 1)).length = c.toks.length - (c.index + 1) :=
    List.length_drop
  have hrow1 : ∀ n w, (c.toks.take c.index)[n]? = some w → Text (row c.args (0 + n)) 0 w := by
    intro n w hw
    rw [Nat.zero_add]
    exact rows_take hrows c.index n w hw
  have hrow2 : ∀ n w, (c.toks.drop (c.index + 1))[n]? = some w →
      Text (row c.args (c.index + 1 + n)) 0 w := by
    intro n w hw
    rw [List.getElem?_drop] at hw
    exact hrows _ w hw
  obtain ⟨args1, hcopy1, hstored1⟩ := copyRows_spec storeRow_row hrow1
    (fun w hw ↦ hshort w (List.mem_of_mem_take hw))
    (by omega : 0 + (c.toks.take c.index).length ≤ 5) c.args1
  obtain ⟨args2, hcopy2, hstored2⟩ := copyRows_spec storeRow_row hrow2
    (fun w hw ↦ hshort w (List.mem_of_mem_drop hw))
    (by omega : 0 + (c.toks.drop (c.index + 1)).length ≤ 5) c.args2
  rw [htake] at hcopy1
  rw [hdrop] at hcopy2
  exact ⟨args1, args2, hcopy1, hcopy2, .of_stored hstored1, .of_stored hstored2⟩

structure Calls (c : Command) (g : Grants) (p q : Program) : Prop where
  left : processList[p.function]? = c.toks[0]? ∧ p.argc = c.index ∧
    Rows p.argv (c.toks.take c.index)
  right : processList[q.function]? = c.toks[c.index + 1]? ∧
    q.argc = c.toks.length - (c.index + 1) ∧ Rows q.argv (c.toks.drop (c.index + 1))
  write : p.customStdin = 0 ∧ p.customStdout = g.pipeWrite
  read : q.customStdin = g.pipeRead ∧ q.customStdout = 0

theorem managePipe_cases (h : Promised c) (s : State) (g : Grants) :
    (Known c ∧ ∃ p q, Calls c g p q ∧ managePipe s g c.args c.args1 c.args2 c.index c.toks.length =
        some (launch (acquire s g) g p q, [])) ∨
      ¬ Known c ∧ managePipe s g c.args c.args1 c.args2 c.index c.toks.length =
        some (acquire s g, [print "Command not found, try 'help'\n"]) := by
  obtain ⟨args1, args2, hcopy1, hcopy2, hrows1, hrows2⟩ := h.copied
  obtain ⟨name1, hname1⟩ : ∃ name, c.toks[0]? = some name :=
    ⟨_, List.getElem?_eq_getElem (Nat.zero_lt_of_lt h.last)⟩
  obtain ⟨name2, hname2⟩ : ∃ name, c.toks[c.index + 1]? = some name :=
    ⟨_, List.getElem?_eq_getElem h.last⟩
  have hknown : Known c ↔ name1 ∈ processList ∧ name2 ∈ processList := by
    simp only [Known, hname1, hname2, Option.some.injEq, exists_eq_right']
  rw [hknown]
  simp only [managePipe, hcopy1, hcopy2, Option.bind_some, Option.map_some]
  rcases findName_cases h.rows hname1 with ⟨hnone1, hout1⟩ | ⟨n1, hfind1, hget1⟩
  · exact Or.inr ⟨fun hk ↦ hout1 hk.1, by rw [hnone1, if_pos (Or.inl rfl)]⟩
  rcases findName_cases h.rows hname2 with ⟨hnone2, hout2⟩ | ⟨n2, hfind2, hget2⟩
  · exact Or.inr ⟨fun hk ↦ hout2 hk.2, by rw [hnone2, if_pos (Or.inr rfl)]⟩
  refine Or.inl ⟨⟨List.mem_of_getElem? hget1, List.mem_of_getElem? hget2⟩,
    ⟨n1, c.index, args1, 0, g.pipeWrite⟩,
    ⟨n2, c.toks.length - (c.index + 1), args2, g.pipeRead, 0⟩,
    ⟨⟨hget1.trans hname1.symm, rfl, hrows1⟩, ⟨hget2.trans hname2.symm, rfl, hrows2⟩, ⟨rfl, rfl⟩,
      ⟨rfl, rfl⟩⟩, ?_⟩
  have hindex : ¬ ((n1 : ℤ) = -1 ∨ (n2 : ℤ) = -1) := by omega
  rw [hfind1, hfind2, if_neg hindex, Int.toNat_natCast, Int.toNat_natCast, Nat.sub_sub]
  rfl

end Manage

section Whole

theorem filter_append_eq_iff {l b : List ℕ} : l.filter (· ≠ 0) ++ b = b ↔ ∀ a ∈ l, a = 0 := by
  rw [List.append_left_eq_self, List.filter_eq_nil_iff]
  simp

theorem whole_of_kernel (h : s'.kernel = s.kernel) :
    Whole c s s' ↔ s'.programs = s.programs ∧ s'.blocks = s.blocks := by
  have hnot : ¬ Started c s s' := by
    rintro ⟨p, q, a, -, -, -, -, -, -, hold, hnew⟩
    exact hold (h ▸ hnew)
  rw [Whole, or_iff_right hnot, Untouched, and_iff_right h]

theorem whole_of_pipes {a : ℕ} (h : s'.kernel.pipes = s.kernel.pipes ++ [a]) :
    Whole c s s' ↔ Started c s s' := by
  refine or_iff_left ?_
  rintro ⟨-, hkernel, -⟩
  rw [hkernel] at h
  exact List.cons_ne_nil _ _ (List.self_eq_append_right.mp h)

theorem whole_unknown (hk : ¬ Known c) : Whole c s (acquire s g) ↔ Fits s c g := by
  by_cases hfull : s.kernel.pipes.length = maxPipes
  · obtain ⟨hprograms, hkernel, hblocks⟩ := acquire_full hfull g
    rw [Fits, if_pos hfull, whole_of_kernel hkernel, and_iff_right hprograms, hblocks,
      filter_append_eq_iff]
    simp only [List.forall_mem_cons, List.not_mem_nil, false_implies, implies_true, and_true, hk]
    exact and_comm
  · obtain ⟨hprograms, hpipes, -⟩ := acquire_room hfull g
    rw [Fits, if_neg hfull, whole_of_pipes hpipes]
    refine iff_of_false (fun h ↦ ?_) (fun h ↦ hk h.1)
    obtain ⟨p, q, a, hboth, -⟩ := h
    rw [hprograms] at hboth
    exact List.cons_ne_nil _ _ (List.self_eq_append_right.mp hboth)

theorem launched_both {a b : ℕ} {p q p' q' : Program}
    (h : (if a ≠ 0 then [p] else []) ++ (if b ≠ 0 then [q] else []) = [p', q']) :
    a ≠ 0 ∧ b ≠ 0 ∧ p' = p ∧ q' = q := by
  by_cases ha : a = 0
  · have hlen := congrArg List.length h
    by_cases hb : b = 0 <;> simp [ha, hb] at hlen
  by_cases hb : b = 0
  · simp [ha, hb] at h
  · rw [if_pos ha, if_pos hb, List.singleton_append, List.cons.injEq, List.cons.injEq] at h
    exact ⟨ha, hb, h.1.symm, h.2.1.symm⟩

theorem whole_known {p q : Program} (hk : Known c) (hc : Calls c g p q) (hf : Fresh s g) :
    Whole c s (launch (acquire s g) g p q) ↔ Fits s c g := by
  obtain ⟨hkernel, hfd, hblocks, hprograms⟩ := launch_fields (acquire s g) g p q
  by_cases hfull : s.kernel.pipes.length = maxPipes
  · obtain ⟨hprograms', hkernel', hblocks'⟩ := acquire_full hfull g
    rw [hprograms'] at hprograms
    rw [hblocks', ← List.append_assoc, ← List.filter_append] at hblocks
    have hnone : s.programs ++ (if g.node1 ≠ 0 then [p] else []) ++
        (if g.node2 ≠ 0 then [q] else []) = s.programs ↔ g.node1 = 0 ∧ g.node2 = 0 := by
      rw [List.append_assoc, List.append_right_eq_self, List.append_eq_nil_iff]
      simp
    rw [Fits, if_pos hfull, whole_of_kernel (hkernel.trans hkernel'), hprograms, hblocks,
      filter_append_eq_iff, hnone]
    simp only [List.forall_mem_append, List.mem_reverse, List.forall_mem_cons, List.not_mem_nil,
      false_implies, implies_true, and_true, hk, true_implies]
    tauto
  · obtain ⟨hprograms', hpipes, hfd'⟩ := acquire_room hfull g
    rw [hprograms'] at hprograms
    rw [← hkernel] at hpipes
    rw [hfd'] at hfd
    rw [Fits, if_neg hfull, whole_of_pipes hpipes]
    constructor
    · rintro ⟨p', q', a, hboth, -, -, ⟨-, hw, hfw⟩, ⟨hr, -, hfr⟩, ha, -, -⟩
      have hlist := hprograms.symm.trans hboth
      rw [List.append_assoc] at hlist
      obtain ⟨hnode1, hnode2, rfl, rfl⟩ := launched_both (List.append_cancel_left hlist)
      rw [hc.write.2] at hw hfw
      rw [hfd, update_self, FdPipe.mk.injEq] at hfw
      rw [hc.read.1] at hr
      exact ⟨hk, hr, hw, hfw.2.2 ▸ ha, hnode1, hnode2⟩
    · rintro ⟨-, hread, hwrite, hpipe, hnode1, hnode2⟩
      rw [if_pos hnode1, if_pos hnode2, List.append_assoc] at hprograms
      refine ⟨p, q, g.pipe, hprograms, hc.left, hc.right, ?_, ?_, hpipe, hf.pipe hpipe, ?_⟩
      · rw [hc.write.2, hfd, update_self]
        exact ⟨hc.write.1, hwrite, rfl⟩
      · rw [hc.read.1, hfd, update_of_ne (hf.apart hread), update_self]
        exact ⟨hread, hc.read.2, rfl⟩
      · rw [hpipes]
        simp

end Whole

/-- A pipeline always comes to an end, and is whole exactly in these cases. -/
theorem managePipe_whole_iff (h : Reached c) (hf : Fresh s g) :
    (∃ r, managePipe s g c.args c.args1 c.args2 c.index c.toks.length = some r ∧ Whole c s r.1) ↔
      Fits s c g := by
  rcases managePipe_cases h.promised s g with ⟨hk, p, q, hcalls, hmanage⟩ | ⟨hk, hmanage⟩
  · rw [← whole_known hk hcalls hf, hmanage]
    simp
  · rw [← whole_unknown hk, hmanage]
    simp

section Runs

inductive Act
  | pipeline (c : Command) (g : Grants)
  | call (x : Call)

/-- Between the calls blocks are freed and given out again, and descriptors
change. -/
inductive Step : State → Act → State → Prop
  | pipeline {s : State} {c : Command} {g : Grants} {r : State × List Sys} :
      Reached c → Fresh s g →
      managePipe s g c.args c.args1 c.args2 c.index c.toks.length = some r →
      Step s (.pipeline c g) r.1
  | call {s s' : State} {x : Call} : Ipc.PipeCapacity.Step s.kernel x s'.kernel →
      s'.programs = s.programs → Step s (.call x) s'

def WholeAct (s : State) : Act → Prop
  | .pipeline c g => ∃ r,
    managePipe s g c.args c.args1 c.args2 c.index c.toks.length = some r ∧ Whole c s r.1
  | .call _ => True

def FitsAct (s : State) : Act → Prop
  | .pipeline c g => Fits s c g
  | .call _ => True

def Refused (s : State) : Act → Prop
  | .pipeline c _ => s.kernel.pipes.length = maxPipes ∨ ¬ Known c
  | .call _ => False

instance (c : Command) : Decidable (Known c) := inferInstanceAs (Decidable (_ ∧ _))

instance (s : State) : DecidablePred (Refused s)
  | .pipeline _ _ => inferInstanceAs (Decidable (_ ∨ _))
  | .call _ => inferInstanceAs (Decidable False)

variable {act : Act} {tr : List (State × Act)}

theorem step_whole_iff (hs : Step s act s') : WholeAct s act ↔ FitsAct s act := by
  cases hs with
  | pipeline hreached hfresh _ => exact managePipe_whole_iff hreached hfresh
  | call _ _ => exact Iff.rfl

theorem perform_length (k : Kernel) (x : Call) :
    (perform k x).pipes.length ≤ k.pipes.length + 1 := by
  cases x with
  | create f0 f1 newPipe =>
    simp only [perform, Ipc.Pipes.createPipe]
    split
    · exact Nat.le_succ _
    · rw [List.length_append]
      exact Nat.le_refl _
  | openId fd id reader newPipe =>
    simp only [perform, openPipeId]
    split_ifs
    all_goals simp
  | close fd => exact Nat.le_succ_of_le (close_length k fd)

theorem step_length (hok : FitsAct s act) (hs : Step s act s') :
    s'.kernel.pipes.length ≤ s.kernel.pipes.length + if Refused s act then 0 else 1 := by
  cases hs with
  | @call _ x hcall _ =>
    have hnot : ¬ Refused s (.call x) := id
    rw [if_neg hnot, hcall]
    exact perform_length s.kernel _
  | @pipeline c g r hreached hfresh hmanage =>
    have hkernel : r.1.kernel = (acquire s g).kernel := by
      rcases managePipe_cases hreached.promised s g with ⟨-, p, q, -, hcase⟩ | ⟨-, hcase⟩
      · obtain rfl := Option.some.inj (hmanage.symm.trans hcase)
        exact (launch_fields (acquire s g) g p q).1
      · obtain rfl := Option.some.inj (hmanage.symm.trans hcase)
        rfl
    rw [hkernel]
    by_cases hfull : s.kernel.pipes.length = maxPipes
    · rw [(acquire_full hfull g).2.1]
      exact Nat.le_add_right _ _
    · have hfits : Fits s c g := hok
      rw [Fits, if_neg hfull] at hfits
      have hnot : ¬ Refused s (.pipeline c g) := fun hr ↦ hr.elim hfull (fun hk ↦ hk hfits.1)
      rw [if_neg hnot, (acquire_room hfull g).2.1, List.length_append]
      exact Nat.le_refl _

/-- Pipelines are started whole or not at all in the runs whose steps meet the
condition, and those that are refused do not use up the table. -/
theorem pipelines_whole_iff (hrun : Run Step s tr s') :
    ((∀ e ∈ tr, WholeAct e.1 e.2) ↔ ∀ e ∈ tr, FitsAct e.1 e.2) ∧
      ((∀ e ∈ tr, FitsAct e.1 e.2) → s'.kernel.pipes.length ≤
        s.kernel.pipes.length + tr.countP fun e ↦ ¬ Refused e.1 e.2) := by
  constructor
  · exact hrun.steps_iff (I := fun _ ↦ True) (fun _ _ _ _ _ _ ↦ trivial)
      (fun _ _ _ _ hs ↦ step_whole_iff hs) trivial
  · intro hok
    induction hrun with
    | nil => exact Nat.le_add_right _ _
    | @cons a b c i tr hs _ ih =>
      obtain ⟨hfirst, hrest⟩ := List.forall_mem_cons.mp hok
      have hstep : b.kernel.pipes.length ≤ a.kernel.pipes.length + if Refused a i then 0 else 1 :=
        step_length hfirst hs
      have hlater := ih hrest
      by_cases hr : Refused a i
      · rw [if_pos hr] at hstep
        rw [List.countP_cons_of_neg (by simpa using hr)]
        omega
      · rw [if_neg hr] at hstep
        rw [List.countP_cons_of_pos (by simpa using hr)]
        omega

end Runs

section Lines

theorem reached_of_line (line : List UInt8) (index : ℕ) (hnul : 0 ∉ line)
    (hshort : line.length < 20) (hpipe : (List.range' 1 ((tokens line).length - 2)).find?
      (fun i ↦ (tokens line)[i]? = some (bytes "|")) = some index) :
    ∃ args, ∀ args1 args2, Reached ⟨tokens line, index, args, args1, args2⟩ := by
  have htext : Text (fun i ↦ line.getD i 0) 0 line := text_getD hnul
  have hlen : line.length ≤ 100 := by omega
  have hkept : ¬ Rejected line := fun h ↦ Nat.not_le_of_gt hshort h.1
  obtain ⟨args, htokenize, hstored⟩ := tokenize_stored htext hlen hkept fun _ ↦ 0
  refine ⟨args, fun args1 args2 ↦
    ⟨(0, 0, 0), fun i ↦ line.getD i 0, line, fun _ ↦ 0, htext, hlen, rfl, ?_⟩⟩
  have hfind := (Rows.of_stored hstored).findPipe
  rw [hpipe] at hfind
  have hrun : runCommand (0, 0, 0) args (tokens line).length =
      some (.pipeline args index (tokens line).length) := by
    unfold runCommand
    rw [hfind]
  rw [executeCommand, htokenize, Option.bind_some]
  exact hrun

theorem known_two {bar name' : List UInt8} (htoks : c.toks = [name, bar, name'])
    (hindex : c.index = 1) : Known c ↔ name ∈ processList ∧ name' ∈ processList := by
  simp [Known, htoks, hindex]

def noState : State := ⟨noPipes, fun _ ↦ noFd, [], []⟩

theorem reached_two (line name name' : List UInt8) (hnul : 0 ∉ line) (hshort : line.length < 20)
    (htoks : tokens line = [name, bytes "|", name']) :
    ∃ c, Reached c ∧ c.toks = [name, bytes "|", name'] ∧ c.index = 1 := by
  obtain ⟨args, hreached⟩ := reached_of_line line 1 hnul hshort (by rw [htoks]; rfl)
  exact ⟨_, hreached (fun _ ↦ 0) (fun _ ↦ 0), htoks, rfl⟩

def nearlyFull : State := { noState with kernel := { noPipes with pipes := List.range' 100 19 } }

theorem pipelines_whole_refused : ∃ tr s, Run Step nearlyFull tr s ∧ tr.length = 2 ∧
    (∀ e ∈ tr, WholeAct e.1 e.2) ∧ s.kernel.pipes.length = maxPipes := by
  obtain ⟨c, hc, htoks, hindex⟩ := reached_two (bytes "cat | wc") (bytes "cat") (bytes "wc")
    (by decide) (by decide) (by decide)
  obtain ⟨c', hc', htoks', hindex'⟩ := reached_two (bytes "ct | wc") (bytes "ct") (bytes "wc")
    (by decide) (by decide) (by decide)
  have hknown : Known c := (known_two htoks hindex).mpr (by decide)
  have hunknown : ¬ Known c' := mt (known_two htoks' hindex').mp (by decide)
  let g : Grants := ⟨1, 2, 3, 4, 5, 6, 7⟩
  have hfresh : Fresh nearlyFull g := ⟨fun _ ↦ by decide, by decide⟩
  obtain ⟨-, p, q, -, hstarted⟩ :=
    (managePipe_cases hc.promised nearlyFull g).resolve_right fun h ↦ h.1 hknown
  let s := launch (acquire nearlyFull g) g p q
  have hfirst : Step nearlyFull (.pipeline c g) s := .pipeline hc hfresh hstarted
  have hfull : s.kernel.pipes.length = maxPipes := by
    rw [(launch_fields _ g p q).1]
    rfl
  let none : Grants := ⟨0, 0, 0, 0, 0, 0, 0⟩
  obtain ⟨-, hrefused⟩ :=
    (managePipe_cases hc'.promised s none).resolve_left fun h ↦ hunknown h.1
  have hsecond : Step s (.pipeline c' none) (acquire s none) :=
    .pipeline hc' ⟨fun h ↦ absurd rfl h, fun h ↦ absurd rfl h⟩ hrefused
  have hrun := Run.cons hfirst (.one hsecond)
  refine ⟨_, _, hrun, rfl, (pipelines_whole_iff hrun).1.mpr fun e he ↦ ?_, ?_⟩
  · rcases List.mem_cons.mp he with rfl | he
    · exact ⟨hknown, by decide⟩
    · rw [List.mem_singleton.mp he, FitsAct, Fits, if_pos hfull]
      exact ⟨rfl, rfl, fun h ↦ absurd h hunknown⟩
  · rw [(acquire_full hfull _).2.1]
    exact hfull

theorem mistyped_pipes (hreached : Reached c) (hk : ¬ Known c) (n : ℕ) (hn : n ≤ 20) :
    ∃ tr s, Run Step noState tr s ∧ tr.length = n ∧
      (∀ e ∈ tr, (∃ g, e.2 = .pipeline c g) ∧ ¬ WholeAct e.1 e.2) ∧ s.programs = [] ∧
      s.kernel.pipes.length = n ∧ ∀ a ∈ s.kernel.pipes, a ≤ 3 * n := by
  induction n with
  | zero => exact ⟨[], noState, .nil _, rfl, nofun, rfl, rfl, nofun⟩
  | succ n ih =>
    obtain ⟨tr, s, hrun, htr, hsteps, hprograms, hlen, hle⟩ := ih (by omega)
    let g : Grants := ⟨3 * n + 1, 3 * n + 2, 3 * n + 3, 0, 0, 0, 0⟩
    have hfresh : Fresh s g := by
      refine ⟨fun _ hmem ↦ ?_, fun _ ↦ Nat.ne_of_lt (Nat.lt_succ_self _)⟩
      have hpipe : 3 * n + 3 ≤ 3 * n := hle _ hmem
      omega
    have hroom : s.kernel.pipes.length ≠ maxPipes := by
      unfold maxPipes
      omega
    obtain ⟨hprograms', hpipes, -⟩ := acquire_room hroom g
    have hmanage : managePipe s g c.args c.args1 c.args2 c.index c.toks.length =
        some (acquire s g, _) :=
      ((managePipe_cases hreached.promised s g).resolve_left (fun h ↦ hk h.1)).2
    have hstep : Step s (.pipeline c g) (acquire s g) := .pipeline hreached hfresh hmanage
    have hleak : ¬ WholeAct s (.pipeline c g) := by
      rw [step_whole_iff hstep, FitsAct, Fits, if_neg hroom]
      exact fun h ↦ hk h.1
    refine ⟨_, acquire s g, hrun.trans (.one hstep), ?_, fun e he ↦ ?_, ?_, ?_, fun a ha ↦ ?_⟩
    · rw [List.length_append, htr]
      rfl
    · rcases List.mem_append.mp he with he | he
      · exact hsteps e he
      · rw [List.mem_singleton.mp he]
        exact ⟨⟨g, rfl⟩, hleak⟩
    · rw [hprograms', hprograms]
    · rw [hpipes, List.length_append, hlen]
      rfl
    · rw [hpipes] at ha
      rcases List.mem_append.mp ha with ha | ha
      · have hold := hle a ha
        omega
      · have hnew : a = 3 * n + 3 := List.mem_singleton.mp ha
        omega

/-- Twenty pipelines with a mistyped name use up the table without a process. -/
theorem mistyped_fill : ∃ c tr s, c.toks = [bytes "ct", bytes "|", bytes "wc"] ∧
    Run Step noState tr s ∧ (∀ e ∈ tr, (∃ g, e.2 = .pipeline c g) ∧ ¬ WholeAct e.1 e.2) ∧
    s.programs = [] ∧ tr.length = maxPipes ∧ s.kernel.pipes.length = maxPipes := by
  obtain ⟨c, hc, htoks, hindex⟩ := reached_two (bytes "ct | wc") (bytes "ct") (bytes "wc")
    (by decide) (by decide) (by decide)
  have hk : ¬ Known c := mt (known_two htoks hindex).mp (by decide)
  obtain ⟨tr, s, hrun, htr, hsteps, hprograms, hlen, -⟩ := mistyped_pipes hc hk 20 (Nat.le_refl _)
  exact ⟨c, tr, s, htoks, hrun, hsteps, hprograms, htr, hlen⟩

end Lines

end ShellOS.System.Pipeline
