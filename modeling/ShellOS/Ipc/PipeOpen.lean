import ShellOS.Ipc.PipeTable

namespace ShellOS.Ipc.PipeOpen

open Library.Runs Pipes PipeTable Function

def lookup (k : Kernel) (id : ℕ) : Option ℕ := k.pipes.find? fun q ↦ (k.pipe q).id = id

def aim (fd : FdPipe) (reader : ℕ) : FdPipe :=
  { fd with readable := if reader ≠ 0 then 1 else 0, writable := if reader ≠ 0 then 0 else 1 }

def mark (reader : ℕ) (p : Pipe) : Pipe :=
  if reader ≠ 0 then { p with readOpen := 1 } else { p with writeOpen := 1 }

def fresh (id reader : ℕ) (p : Pipe) : Pipe :=
  { p with
    bytesToRead := 0, readPos := 0, writePos := 0,
    readOpen := if reader ≠ 0 then 1 else 0
    writeOpen := if reader ≠ 0 then 0 else 1
    id := id }

def Taken (reader : ℕ) (p : Pipe) : Prop :=
  reader ≠ 0 ∧ p.readOpen ≠ 0 ∨ reader = 0 ∧ p.writeOpen ≠ 0

def Fails (k : Kernel) (id reader : ℕ) : Prop :=
  id ≥ maxPipes ∨ (lookup k id = none ∧ k.pipes.length = pipeSize) ∨
    ∃ a, lookup k id = some a ∧ Taken reader (k.pipe a)

variable {k k' : Kernel} {fd fd' : FdPipe} {id reader newPipe a b : ℕ} {ret : ℤ}

theorem findIdx_of_lookup_none (h : lookup k id = none) :
    k.pipes.findIdx (fun q ↦ (k.pipe q).id = id) = k.pipes.length := by
  refine List.findIdx_eq_length_of_false (fun q hq ↦ ?_)
  simpa using List.find?_eq_none.mp h q hq

theorem findIdx_of_lookup (h : lookup k id = some a) :
    k.pipes.findIdx (fun q ↦ (k.pipe q).id = id) ≠ k.pipes.length ∧
      k.pipes.getD (k.pipes.findIdx fun q ↦ (k.pipe q).id = id) 0 = a := by
  have hget : k.pipes[k.pipes.findIdx fun q ↦ (k.pipe q).id = id]? = some a := by
    rw [← List.find?_eq_getElem?_findIdx]
    exact h
  refine ⟨fun hlen ↦ ?_, by rw [List.getD_eq_getElem?_getD, hget]; rfl⟩
  rw [hlen, List.getElem?_eq_none le_rfl] at hget
  cases hget

theorem lookup_mem (h : lookup k id = some a) : a ∈ k.pipes ∧ (k.pipe a).id = id :=
  ⟨List.mem_of_find?_eq_some h, by simpa using List.find?_some h⟩

theorem open_refused (hid : id ≥ maxPipes) :
    openPipeId k fd id reader newPipe = (k, fd, -1) := if_pos hid

theorem open_full (hid : id < maxPipes) (hnone : lookup k id = none)
    (hfull : k.pipes.length = pipeSize) :
    openPipeId k fd id reader newPipe = (k, aim fd reader, -1) := by
  simp only [openPipeId, if_neg (Nat.not_le.mpr hid), if_pos (findIdx_of_lookup_none hnone),
    if_pos hfull, aim]

theorem open_new (fd : FdPipe) (reader newPipe : ℕ) (hid : id < maxPipes)
    (hnone : lookup k id = none) (hroom : k.pipes.length ≠ pipeSize) :
    openPipeId k fd id reader newPipe =
      ({ k.setPipe newPipe (fresh id reader (k.pipe newPipe)) with pipes := k.pipes ++ [newPipe] },
        { aim fd reader with pipe := newPipe }, 0) := by
  simp only [openPipeId, if_neg (Nat.not_le.mpr hid), if_pos (findIdx_of_lookup_none hnone),
    if_neg hroom, aim, fresh]

theorem open_taken (hid : id < maxPipes) (hsome : lookup k id = some a)
    (htaken : Taken reader (k.pipe a)) :
    openPipeId k fd id reader newPipe = (k, aim fd reader, -1) := by
  obtain ⟨hlen, hget⟩ := findIdx_of_lookup hsome
  unfold Taken at htaken
  simp only [openPipeId, if_neg (Nat.not_le.mpr hid), if_neg hlen, hget, if_pos htaken, aim]

/-- The mark goes to the pipe that the descriptor pointed to before. -/
theorem open_existing (hid : id < maxPipes) (hsome : lookup k id = some a)
    (hfree : ¬ Taken reader (k.pipe a)) :
    openPipeId k fd id reader newPipe =
      (k.setPipe fd.pipe (mark reader (k.pipe fd.pipe)), { aim fd reader with pipe := a }, 1) := by
  obtain ⟨hlen, hget⟩ := findIdx_of_lookup hsome
  unfold Taken at hfree
  simp only [openPipeId, if_neg (Nat.not_le.mpr hid), if_neg hlen, hget, if_neg hfree, aim, mark]

theorem open_fails (h : Fails k id reader) :
    openPipeId k fd id reader newPipe = (k, if id < maxPipes then aim fd reader else fd, -1) := by
  by_cases hid : id < maxPipes
  · rw [if_pos hid]
    rcases h with hbad | ⟨hnone, hfull⟩ | ⟨a, hsome, htaken⟩
    · omega
    · exact open_full hid hnone hfull
    · exact open_taken hid hsome htaken
  · rw [if_neg hid]
    exact open_refused (Nat.not_lt.mp hid)

theorem open_ret (fd : FdPipe) (newPipe : ℕ) (h : ¬ Fails k id reader) :
    (openPipeId k fd id reader newPipe).2.2 ≠ -1 := by
  unfold Fails at h
  push Not at h
  obtain ⟨hid, hroom, htaken⟩ := h
  cases hlook : lookup k id with
  | none =>
    rw [open_new fd reader newPipe (by omega) hlook (hroom hlook)]
    exact (by decide : (0 : ℤ) ≠ -1)
  | some a =>
    rw [open_existing (by omega) hlook (htaken a hlook)]
    exact (by decide : (1 : ℤ) ≠ -1)

/-- An open attaches the descriptor to the pipe with the id: the one there is,
when that end of it is free, or a new and empty one, when there is room. -/
structure Attaches (k : Kernel) (fd : FdPipe) (id reader newPipe : ℕ) : Prop where
  existing : ∀ a, lookup k id = some a → ¬ Taken reader (k.pipe a) →
    openPipeId k fd id reader newPipe =
      (k.setPipe a (mark reader (k.pipe a)), { aim fd reader with pipe := a }, 1)
  absent : lookup k id = none → k.pipes.length < maxPipes →
    ∃ k' p, openPipeId k fd id reader newPipe = (k', { aim fd reader with pipe := newPipe }, 0) ∧
      k'.pipes = k.pipes ++ [newPipe] ∧ k'.pipe = update k.pipe newPipe p ∧ p.id = id ∧
      p.bytesToRead = 0 ∧ p.readPos = 0 ∧ p.writePos = 0 ∧ p.waitingProcess = 0 ∧
      (p.readOpen ≠ 0 ↔ reader ≠ 0) ∧ (p.writeOpen ≠ 0 ↔ reader = 0)

/-- The descriptor already points to the pipe that is there, or the memory of
the new pipe has no process in it. -/
def Attachable (k : Kernel) (fd : FdPipe) (id reader newPipe : ℕ) : Prop :=
  (∀ a, lookup k id = some a → ¬ Taken reader (k.pipe a) → fd.pipe = a) ∧
    (lookup k id = none → k.pipes.length < maxPipes → (k.pipe newPipe).waitingProcess = 0)

theorem setPipe_pipe (k : Kernel) (a : ℕ) (p : Pipe) : (k.setPipe a p).pipe = update k.pipe a p :=
  rfl

theorem taken_mark (reader : ℕ) (p : Pipe) : Taken reader (mark reader p) := by
  unfold Taken mark
  by_cases hr : reader = 0
  · simp [hr]
  · simp [hr]

theorem existing_iff (hid : id < maxPipes) (hsome : lookup k id = some a)
    (hfree : ¬ Taken reader (k.pipe a)) :
    openPipeId k fd id reader newPipe =
      (k.setPipe a (mark reader (k.pipe a)), { aim fd reader with pipe := a }, 1) ↔
        fd.pipe = a := by
  rw [open_existing hid hsome hfree]
  constructor
  · intro heq
    by_contra hne
    have hpipe : (k.setPipe fd.pipe (mark reader (k.pipe fd.pipe))).pipe a =
        (k.setPipe a (mark reader (k.pipe a))).pipe a := by rw [(Prod.mk.inj heq).1]
    rw [setPipe_pipe, setPipe_pipe, update_of_ne (Ne.symm hne), update_self] at hpipe
    exact hfree (hpipe ▸ taken_mark reader _)
  · rintro rfl
    rfl

theorem attaches_iff (hid : id < maxPipes) :
    Attaches k fd id reader newPipe ↔ Attachable k fd id reader newPipe := by
  constructor
  · intro h
    refine ⟨fun a hsome hfree ↦ (existing_iff hid hsome hfree).mp (h.existing a hsome hfree),
      fun hnone hroom ↦ ?_⟩
    obtain ⟨k', p, hopen, -, hpipe, -, -, -, -, hwait, -⟩ := h.absent hnone hroom
    have hsize : k.pipes.length ≠ pipeSize := by unfold maxPipes at hroom; unfold pipeSize; omega
    rw [open_new fd reader newPipe hid hnone hsize] at hopen
    have hp : k'.pipe newPipe = fresh id reader (k.pipe newPipe) := by
      rw [← (Prod.mk.inj hopen).1]
      exact update_self _ _ _
    rw [hpipe, update_self] at hp
    rw [hp] at hwait
    exact hwait
  · intro ⟨hexisting, habsent⟩
    refine ⟨fun a hsome hfree ↦ (existing_iff hid hsome hfree).mpr (hexisting a hsome hfree),
      fun hnone hroom ↦ ?_⟩
    have hsize : k.pipes.length ≠ pipeSize := by unfold maxPipes at hroom; unfold pipeSize; omega
    refine ⟨_, fresh id reader (k.pipe newPipe), open_new fd reader newPipe hid hnone hsize, rfl,
      rfl, rfl, rfl, rfl, rfl, habsent hnone hroom, ?_, ?_⟩
    · simp [fresh]
    · simp [fresh]

inductive Act
  | table (x : PipeTable.Act)
  | openId (fd : FdPipe) (id reader newPipe : ℕ)

def attach (s : System) (k : Kernel) (fd : FdPipe) (reader : ℕ) (ret : ℤ) : System :=
  if ret = -1 then ⟨k, s.readers, s.writers⟩
  else if reader ≠ 0 then ⟨k, fd.pipe :: s.readers, s.writers⟩
  else ⟨k, s.readers, fd.pipe :: s.writers⟩

/-- The steps on anonymous pipes, the closes of ends that were attached, and
opens by name. `alloc` returns memory that is not in use. -/
inductive Step : System → Act → System → Prop
  | table {s s' : System} {x : PipeTable.Act} : PipeTable.Step s x s' → Step s (.table x) s'
  | openId {s : System} {fd fd' : FdPipe} {id reader newPipe : ℕ} {k : Kernel} {ret : ℤ} :
      newPipe ∉ s.readers → newPipe ∉ s.writers →
      openPipeId s.kernel fd id reader newPipe = (k, fd', ret) →
      Step s (.openId fd id reader newPipe) (attach s k fd' reader ret)

def Sound (s : System) : Act → Prop
  | .table _ => True
  | .openId fd id reader newPipe => Attachable s.kernel fd id reader newPipe ∧
      (id < maxPipes → lookup s.kernel id = none → s.kernel.pipes.length < maxPipes)

def TableFlags (s : System) : Prop :=
  ∀ a ∈ s.kernel.pipes, ((s.kernel.pipe a).readOpen ≠ 0 ↔ a ∈ s.readers) ∧
    ((s.kernel.pipe a).writeOpen ≠ 0 ↔ a ∈ s.writers)

structure Held (s : System) : Prop where
  flags : Flags s
  table : TableFlags s

variable {s s' : System} {x : Act}

theorem Held.open_flags (h : Held s) (ha : a ∈ s.kernel.pipes ∨ a ∈ s.readers ∨ a ∈ s.writers) :
    ((s.kernel.pipe a).readOpen ≠ 0 ↔ a ∈ s.readers) ∧
      ((s.kernel.pipe a).writeOpen ≠ 0 ↔ a ∈ s.writers) := by
  rcases ha with ha | ha
  · exact h.table a ha
  · exact ⟨h.flags.readOpen a ha, h.flags.writeOpen a ha⟩

theorem table_step_flags (h : Held s) {y : PipeTable.Act} (hs : PipeTable.Step s y s') :
    TableFlags s' := by
  cases hs with
  | @create newPipe _ _ _ _ k hr hw hcall =>
    rcases createPipe_spec hcall with ⟨hret, -⟩ | ⟨-, hpipes, hread, hwrite, hold⟩
    · cases hret
    intro b hb
    by_cases hbn : b = newPipe
    · rw [hbn, hread, hwrite]
      simp
    · rw [hpipes] at hb
      have hb' := (List.mem_append.mp hb).resolve_right (by simpa using hbn)
      simpa [hold b hbn, hbn] using h.table b hb'
  | full hcall =>
    rcases createPipe_spec hcall with ⟨-, rfl⟩ | ⟨hret, -⟩
    · exact h.table
    · cases hret
  | @closeRead a ha =>
    obtain ⟨hread, hwrite, hclosed⟩ := closeRead_spec (k := s.kernel) (a := a) rfl
    intro b hb
    have hb' := hclosed.mem_of_mem hb
    simp only [hread, hwrite, h.flags.readers.mem_erase_iff]
    by_cases hba : b = a
    · rw [if_pos hba]
      simpa [hba] using (h.open_flags (Or.inr (Or.inl ha))).2
    · simpa [hba] using h.table b hb'
  | @closeWrite a ha =>
    obtain ⟨hread, hwrite, hclosed⟩ := closeWrite_spec (k := s.kernel) (a := a) rfl
    intro b hb
    have hb' := hclosed.mem_of_mem hb
    simp only [hread, hwrite, h.flags.writers.mem_erase_iff]
    by_cases hba : b = a
    · rw [if_pos hba]
      simpa [hba] using (h.open_flags (Or.inr (Or.inr ha))).1
    · simpa [hba] using h.table b hb'

theorem attach_held (h : Held s) (hk : ∀ b, b ≠ a → k.pipe b = s.kernel.pipe b)
    (hpipes : ∀ b ∈ k.pipes, b ∈ s.kernel.pipes ∨ b = a)
    (hread : (k.pipe a).readOpen ≠ 0 ↔ reader ≠ 0 ∨ a ∈ s.readers)
    (hwrite : (k.pipe a).writeOpen ≠ 0 ↔ reader = 0 ∨ a ∈ s.writers)
    (hnot : if reader ≠ 0 then a ∉ s.readers else a ∉ s.writers)
    (hfd : fd'.pipe = a) (hret : ret ≠ -1) : Held (attach s k fd' reader ret) := by
  have hall : ∀ b, b ∈ s.kernel.pipes ∨ b = a ∨ b ∈ s.readers ∨ b ∈ s.writers →
      ((k.pipe b).readOpen ≠ 0 ↔ reader ≠ 0 ∧ b = a ∨ b ∈ s.readers) ∧
        ((k.pipe b).writeOpen ≠ 0 ↔ reader = 0 ∧ b = a ∨ b ∈ s.writers) := by
    intro b hb
    by_cases hba : b = a
    · subst hba
      simpa using And.intro hread hwrite
    · rw [hk b hba]
      simpa [hba] using h.open_flags (a := b) (by simpa [hba] using hb)
  unfold attach
  rw [if_neg hret]
  by_cases hr : reader = 0
  · simp only [hr, ne_eq, not_true_eq_false, if_false, hfd, false_and, true_and,
      false_or] at hnot hall ⊢
    have hends : ∀ b, b ∈ s.readers ∨ b ∈ a :: s.writers →
        b ∈ s.kernel.pipes ∨ b = a ∨ b ∈ s.readers ∨ b ∈ s.writers := by
      rintro b (hb | hb)
      · exact Or.inr (Or.inr (Or.inl hb))
      · exact Or.inr ((List.mem_cons.mp hb).imp_right Or.inr)
    refine ⟨⟨h.flags.readers, List.nodup_cons.mpr ⟨hnot, h.flags.writers⟩, fun b hb ↦ ?_,
      fun b hb ↦ ?_⟩, fun b hb ↦ ?_⟩
    · exact (hall b (hends b hb)).1
    · simpa using (hall b (hends b hb)).2
    · simpa using hall b ((hpipes b hb).imp_right Or.inl)
  · simp only [hr, ne_eq, not_false_eq_true, if_true, hfd, false_and, true_and,
      false_or] at hnot hall ⊢
    have hends : ∀ b, b ∈ a :: s.readers ∨ b ∈ s.writers →
        b ∈ s.kernel.pipes ∨ b = a ∨ b ∈ s.readers ∨ b ∈ s.writers := by
      rintro b (hb | hb)
      · exact Or.inr ((List.mem_cons.mp hb).imp_right Or.inl)
      · exact Or.inr (Or.inr (Or.inr hb))
    refine ⟨⟨List.nodup_cons.mpr ⟨hnot, h.flags.readers⟩, h.flags.writers, fun b hb ↦ ?_,
      fun b hb ↦ ?_⟩, fun b hb ↦ ?_⟩
    · simpa using (hall b (hends b hb)).1
    · exact (hall b (hends b hb)).2
    · simpa using hall b ((hpipes b hb).imp_right Or.inl)

theorem step_held (h : Held s) (hok : Sound s x) (hs : Step s x s') : Held s' := by
  cases hs with
  | table hs => exact ⟨step_flags h.flags hs, table_step_flags h hs⟩
  | @openId fd fd' id reader newPipe k ret hr hw hopen =>
    by_cases hfails : Fails s.kernel id reader
    · rw [open_fails hfails] at hopen
      cases hopen
      exact h
    have hid : id < maxPipes := by
      by_contra hge
      exact hfails (Or.inl (Nat.not_lt.mp hge))
    have hatt := (attaches_iff hid).mpr hok.1
    cases hlook : lookup s.kernel id with
    | none =>
      obtain ⟨k', p, hnew, hpipes, hpipe, -, -, -, -, -, hread, hwrite⟩ :=
        hatt.absent hlook (hok.2 hid hlook)
      rw [hnew] at hopen
      cases hopen
      refine attach_held h (a := newPipe) (fun b hb ↦ ?_) (fun b hb ↦ ?_) ?_ ?_ ?_ rfl (by decide)
      · rw [hpipe, update_of_ne hb]
      · rw [hpipes] at hb
        simpa using hb
      · simpa [hpipe, hr] using hread
      · simpa [hpipe, hw] using hwrite
      · split
        · exact hr
        · exact hw
    | some a =>
      have hfree : ¬ Taken reader (s.kernel.pipe a) := fun ht ↦
        hfails (Or.inr (Or.inr ⟨a, hlook, ht⟩))
      rw [hatt.existing a hlook hfree] at hopen
      cases hopen
      have hflags := h.table a (lookup_mem hlook).1
      unfold Taken at hfree
      refine attach_held h (a := a) (fun b hb ↦ ?_) (fun b hb ↦ Or.inl hb) ?_ ?_ ?_ rfl (by decide)
      · exact update_of_ne hb _ _
      · by_cases hr0 : reader = 0
        · simpa [mark, hr0] using hflags.1
        · simp [mark, hr0]
      · by_cases hr0 : reader = 0
        · simp [mark, hr0]
        · simpa [mark, hr0] using hflags.2
      · by_cases hr0 : reader = 0
        · simpa [hr0, hflags.2] using hfree
        · simpa [hr0, hflags.1] using hfree

theorem held_boot (hk : k.pipes = []) : Held (boot k) :=
  ⟨flags_boot, fun a ha ↦ by simp [boot, hk] at ha⟩

/-- Closing an open end frees the pipe exactly when its other end is not open. -/
def FreedLast (s : System) : Prop :=
  (∀ a ∈ s.readers, (closeFdPipe s.kernel (some ⟨1, 0, a⟩)).2 =
      if a ∈ s.writers then none else some a) ∧
    ∀ a ∈ s.writers, (closeFdPipe s.kernel (some ⟨0, 1, a⟩)).2 =
      if a ∈ s.readers then none else some a

theorem freedLast_of_flags (hf : Flags s) : FreedLast s :=
  ⟨fun _ ha ↦ closeRead_freed hf ha, fun _ ha ↦ closeWrite_freed hf ha⟩

/-- An open by name attaches its descriptor exactly when the descriptor points
to the pipe already, or the new pipe's memory has no process in it. In runs
whose opens do so, a pipe is freed when the last of its open ends is closed. -/
theorem openPipeId_attaches_iff (k : Kernel) :
    (∀ (fd : FdPipe) (id reader newPipe : ℕ), id < maxPipes →
      (Attaches k fd id reader newPipe ↔ Attachable k fd id reader newPipe)) ∧
    ∀ (tr : List (System × Act)) (s : System), k.pipes = [] →
      Run Step (boot k) tr s → (∀ e ∈ tr, Sound e.1 e.2) → Always FreedLast tr s := by
  refine ⟨fun fd id reader newPipe hid ↦ attaches_iff hid, fun tr s hk hrun hok ↦ ?_⟩
  exact hrun.always_of (I := Held) (fun a i b ha hi hs ↦ step_held ha hi hs)
    (fun a ha ↦ freedLast_of_flags ha.flags) hok (held_boot hk)

def firstOpen : System := ⟨(openPipeId noPipes noFd 5 1 1).1, [1], []⟩

theorem firstOpen_run : Run Step (boot noPipes) [(boot noPipes, .openId noFd 5 1 1)] firstOpen := by
  have hopen : openPipeId (boot noPipes).kernel noFd 5 1 1 =
      ((openPipeId noPipes noFd 5 1 1).1, ⟨1, 0, 1⟩, 0) := rfl
  have hstep := Step.openId (s := boot noPipes) (by simp [boot]) (by simp [boot]) hopen
  exact Run.one hstep

theorem attach_reader_then_writer : Attaches firstOpen.kernel ⟨0, 0, 1⟩ 5 0 2 ∧
    Always FreedLast [(boot noPipes, Act.openId noFd 5 1 1)] firstOpen := by
  have hlook : lookup firstOpen.kernel 5 = some 1 := by decide
  refine ⟨((openPipeId_attaches_iff firstOpen.kernel).1 ⟨0, 0, 1⟩ 5 0 2 (by decide)).mpr
    ⟨fun a ha _ ↦ ?_, fun hnone ↦ ?_⟩,
    (openPipeId_attaches_iff noPipes).2 _ _ rfl firstOpen_run ?_⟩
  · exact Option.some.inj (hlook.symm.trans ha)
  · rw [hlook] at hnone
    cases hnone
  · intro e he
    rw [List.mem_singleton.mp he]
    exact ⟨⟨fun a ha ↦ (by cases ha), fun _ _ ↦ rfl⟩, fun _ _ ↦ by decide⟩

/-- A writer that comes with a descriptor from the heap is told that it is
attached. The pipe's write end stays closed, and the reader's close frees the pipe. -/
theorem stale_descriptor_not_attached :
    Run Step (boot noPipes) [(boot noPipes, .openId noFd 5 1 1)] firstOpen ∧
      lookup firstOpen.kernel 5 = some 1 ∧ ¬ Taken 0 (firstOpen.kernel.pipe 1) ∧
      (openPipeId firstOpen.kernel ⟨0, 0, 7⟩ 5 0 2).2.2 = 1 ∧
      (closeFdPipe (openPipeId firstOpen.kernel ⟨0, 0, 7⟩ 5 0 2).1 (some ⟨1, 0, 1⟩)).2 = some 1 ∧
      ¬ Attaches firstOpen.kernel ⟨0, 0, 7⟩ 5 0 2 := by
  have hlook : lookup firstOpen.kernel 5 = some 1 := by decide
  have hfree : ¬ Taken 0 (firstOpen.kernel.pipe 1) := by unfold Taken; decide
  refine ⟨firstOpen_run, hlook, hfree, by decide, by decide, fun h ↦ ?_⟩
  have hpipe := ((attaches_iff (by decide)).mp h).1 1 hlook hfree
  exact absurd hpipe (by decide)

end ShellOS.Ipc.PipeOpen
