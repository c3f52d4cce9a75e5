import ShellOS.Ipc.PipeOpen

namespace ShellOS.Ipc.PipeCapacity

open Library.Runs Pipes PipeTable PipeOpen Function

/-- A call, with whatever descriptors it is given and the address that `alloc` returns. -/
inductive Call
  | create (f0 f1 : FdPipe) (newPipe : ℕ)
  | openId (fd : FdPipe) (id reader newPipe : ℕ)
  | close (fd : Option FdPipe)

def perform (k : Kernel) : Call → Kernel
  | .create f0 f1 newPipe => (createPipe k f0 f1 newPipe).1
  | .openId fd id reader newPipe => (openPipeId k fd id reader newPipe).1
  | .close fd => (closeFdPipe k fd).1

/-- The indices of `pipes[]` that a call reads or writes. -/
def accessed (k : Kernel) : Call → List ℕ
  | .create _ _ _ => if k.pipes.length = maxPipes then [] else [k.pipes.length]
  | .openId _ id _ _ =>
    if id ≥ maxPipes then []
    else
      let i := k.pipes.findIdx (fun q ↦ (k.pipe q).id = id)
      if i = k.pipes.length then
        if k.pipes.length = pipeSize then List.range k.pipes.length
        else List.range k.pipes.length ++ [k.pipes.length]
      else List.range (i + 1)
  | .close fd => if (closeFdPipe k fd).2 = none then [] else List.range k.pipes.length

/-- Between two calls others read and write the pipes and the memory that was
freed, but not the table. -/
def Step (k : Kernel) (c : Call) (k' : Kernel) : Prop := k'.pipes = (perform k c).pipes

def InBounds (k : Kernel) : Prop := k.pipes.length ≤ maxPipes

def FindsNoRoom (k : Kernel) : Call → Prop
  | .openId _ id _ _ => id < maxPipes ∧ lookup k id = none ∧ maxPipes ≤ k.pipes.length
  | _ => False

/-- The call keeps to the table, and an open that finds no room fails and
allocates nothing. -/
def Capacity (k : Kernel) (c : Call) : Prop :=
  InBounds (perform k c) ∧ (∀ i ∈ accessed k c, i < maxPipes) ∧
    ∀ fd id reader newPipe, c = .openId fd id reader newPipe → FindsNoRoom k c →
      ∃ fd', openPipeId k fd id reader newPipe = (k, fd', -1)

variable {k k' : Kernel} {c : Call} {fd : FdPipe} {id reader newPipe : ℕ}

theorem inBounds_openId : InBounds (perform k (.openId fd id reader newPipe)) ↔
    (openPipeId k fd id reader newPipe).1.pipes.length ≤ maxPipes := .rfl

theorem inBounds_create {f0 f1 : FdPipe} : InBounds (perform k (.create f0 f1 newPipe)) ↔
    (createPipe k f0 f1 newPipe).1.pipes.length ≤ maxPipes := .rfl

theorem release_length (k : Kernel) (a other : ℕ) :
    (release k a other).1.pipes.length ≤ k.pipes.length := by
  rw [release_pipes]
  split
  · exact (deletePipeFromArray_sublist k a).length_le
  · exact le_rfl

theorem close_length (k : Kernel) (fd : Option FdPipe) :
    (closeFdPipe k fd).1.pipes.length ≤ k.pipes.length := by
  cases fd with
  | none => exact le_rfl
  | some fd =>
    by_cases hr : fd.readable = 0
    · by_cases hw : fd.writable = 0
      · rw [closeFdPipe_neither hr hw]
      · rw [closeFdPipe_writable hr hw]
        exact release_length (shutWrite k fd.pipe) _ _
    · rw [closeFdPipe_readable hr]
      exact release_length (shutRead k fd.pipe) _ _

theorem open_capacity_iff (h : InBounds k) : Capacity k (.openId fd id reader newPipe) ↔
    ¬ FindsNoRoom k (.openId fd id reader newPipe) := by
  unfold InBounds at h
  have hsize : k.pipes.length ≠ pipeSize := by unfold maxPipes at h; unfold pipeSize; omega
  by_cases hid : id < maxPipes
  swap
  · have hroom : ¬ FindsNoRoom k (.openId fd id reader newPipe) := fun hfull ↦ hid hfull.1
    refine ⟨fun _ ↦ hroom, fun _ ↦ ⟨?_, ?_, fun _ _ _ _ hc hfull ↦ absurd hfull hroom⟩⟩
    · rw [inBounds_openId, open_refused (Nat.not_lt.mp hid)]
      exact h
    · simp [accessed, Nat.not_lt.mp hid]
  have hnot : ¬ id ≥ maxPipes := Nat.not_le.mpr hid
  cases hlook : lookup k id with
  | some a =>
    have hroom : ¬ FindsNoRoom k (.openId fd id reader newPipe) := by
      rintro ⟨-, hnone, -⟩
      rw [hlook] at hnone
      cases hnone
    refine ⟨fun _ ↦ hroom, fun _ ↦ ⟨?_, ?_, fun _ _ _ _ hc hfull ↦ absurd hfull hroom⟩⟩
    · rw [inBounds_openId]
      by_cases htaken : Taken reader (k.pipe a)
      · rw [open_taken hid hlook htaken]
        exact h
      · rw [open_existing hid hlook htaken]
        exact h
    · obtain ⟨hlen, -⟩ := findIdx_of_lookup hlook
      have hle : k.pipes.findIdx (fun q ↦ (k.pipe q).id = id) ≤ k.pipes.length :=
        List.findIdx_le_length
      intro i hi
      simp only [accessed, if_neg hnot, if_neg hlen, List.mem_range] at hi
      omega
  | none =>
    have hopen := open_new fd reader newPipe hid hlook hsize
    constructor
    · rintro ⟨hbounds, -, -⟩ ⟨-, -, hfull⟩
      rw [inBounds_openId, hopen, List.length_append] at hbounds
      simp only [List.length_singleton] at hbounds
      omega
    · intro hroom
      have hlt : k.pipes.length < maxPipes := by
        by_contra hge
        exact hroom ⟨hid, hlook, Nat.not_lt.mp hge⟩
      refine ⟨?_, fun i hi ↦ ?_, fun _ _ _ _ hc hfull ↦ absurd hfull hroom⟩
      · rw [inBounds_openId, hopen, List.length_append]
        exact hlt
      · simp only [accessed, if_neg hnot, if_pos (findIdx_of_lookup_none hlook), if_neg hsize,
          List.mem_append, List.mem_range, List.mem_singleton] at hi
        omega

theorem capacity_iff (h : InBounds k) (c : Call) : Capacity k c ↔ ¬ FindsNoRoom k c := by
  cases c with
  | openId fd id reader newPipe => exact open_capacity_iff h
  | create f0 f1 newPipe =>
    refine ⟨fun _ hfull ↦ hfull, fun _ ↦ ⟨?_, ?_, fun _ _ _ _ hc ↦ by cases hc⟩⟩
    · rw [inBounds_create]
      unfold createPipe
      split
      · exact h
      · rename_i hlen
        unfold InBounds at h
        simp only [List.length_append, List.length_singleton]
        omega
    · unfold InBounds at h
      by_cases hlen : k.pipes.length = maxPipes
      · simp [accessed, hlen]
      · simp only [accessed, if_neg hlen, List.mem_singleton, forall_eq]
        omega
  | close fd =>
    refine ⟨fun _ hfull ↦ hfull, fun _ ↦ ⟨?_, ?_, fun _ _ _ _ hc ↦ by cases hc⟩⟩
    · exact (close_length k fd).trans h
    · unfold InBounds at h
      by_cases hfreed : (closeFdPipe k fd).2 = none
      · simp [accessed, hfreed]
      · intro i hi
        simp only [accessed, if_neg hfreed, List.mem_range] at hi
        exact hi.trans_le h

/-- A sequence of calls stays within the table exactly when no open of a new
name comes while the table is full. -/
theorem pipe_array_capacity_iff {tr : List (Kernel × Call)} (hk : k.pipes = [])
    (hrun : Run Step k tr k') :
    (∀ e ∈ tr, Capacity e.1 e.2) ↔ ∀ e ∈ tr, ¬ FindsNoRoom e.1 e.2 := by
  have hboot : InBounds k := by simp [InBounds, hk]
  have hkeep : ∀ a i b, InBounds a → ¬ FindsNoRoom a i → Step a i b → InBounds b := by
    intro a i b ha hok hs
    have hcap := ((capacity_iff ha i).mpr hok).1
    unfold InBounds at hcap ⊢
    rw [hs]
    exact hcap
  have hstep : ∀ a i b, InBounds a → Step a i b → (Capacity a i ↔ ¬ FindsNoRoom a i) :=
    fun a i b ha _ ↦ capacity_iff ha i
  exact hrun.steps_iff hkeep hstep hboot

instance : DecidablePred (FindsNoRoom k)
  | .openId _ id _ _ =>
    inferInstanceAs (Decidable (id < maxPipes ∧ lookup k id = none ∧ maxPipes ≤ k.pipes.length))
  | .create .. | .close _ => inferInstanceAs (Decidable False)

def openBesides : List Call :=
  [.create noFd noFd 1, .openId noFd 5 1 2, .close (some ⟨1, 0, 1⟩), .close (some ⟨0, 1, 1⟩)]

theorem pipe_array_capacity_open_besides : ∃ tr k', Run Step noPipes tr k' ∧
    tr.map Prod.snd = openBesides ∧ k'.pipes = [2] ∧ ∀ e ∈ tr, Capacity e.1 e.2 := by
  have hend : (openBesides.foldlM (fun k c ↦
      if ¬ FindsNoRoom k c then some (perform k c) else none) noPipes).map
      (fun k ↦ k.pipes) = some [2] := by decide +kernel
  obtain ⟨k', hk', hpipes⟩ := Option.map_eq_some_iff.mp hend
  obtain ⟨tr, hrun, hcalls, hroom⟩ := run_of_checked hk'
  have hstep : Run Step noPipes tr k' := hrun.mono fun a c b hs ↦ by
    cases hs
    rfl
  exact ⟨tr, k', hstep, hcalls, hpipes, (pipe_array_capacity_iff rfl hstep).mpr hroom⟩

theorem fill (n : ℕ) (hn : n ≤ 20) : ∃ tr k, Run Step noPipes tr k ∧ k.pipes.length = n ∧
    ∀ a, (k.pipe a).id = 0 ∨ maxPipes ≤ (k.pipe a).id := by
  induction n with
  | zero => exact ⟨[], noPipes, .nil _, rfl, fun a ↦ Or.inl rfl⟩
  | succ n ih =>
    obtain ⟨tr, k, hrun, hlen, hids⟩ := ih (by omega)
    have hroom : k.pipes.length ≠ maxPipes := by unfold maxPipes; omega
    refine ⟨_, perform k (.create noFd noFd (n + 1)), hrun.trans (Run.one rfl), ?_, fun a ↦ ?_⟩
    · simpa [perform, createPipe, hroom] using hlen
    · by_cases ha : a = n + 1
      · simp [perform, createPipe, hroom, ha]
      · simpa [perform, createPipe, hroom, ha] using hids a

/-- The open of a name in a full table puts an entry behind its end. -/
theorem twenty_first_pipe : ∃ tr k, Run Step noPipes tr k ∧ k.pipes.length = maxPipes ∧
    (openPipeId k noFd 7 1 21).2.2 = 0 ∧
    (perform k (.openId noFd 7 1 21)).pipes.length = 21 ∧ ¬ Capacity k (.openId noFd 7 1 21) := by
  obtain ⟨tr, k, hrun, hlen, hids⟩ := fill 20 le_rfl
  have hlook : lookup k 7 = none := by
    refine List.find?_eq_none.mpr (fun a _ ↦ ?_)
    have ha := hids a
    unfold maxPipes at ha
    simp only [decide_eq_true_eq]
    omega
  have hopen := open_new noFd 1 21 (by decide) hlook (by rw [hlen]; decide)
  refine ⟨tr, k, hrun, hlen, by rw [hopen], by simp [perform, hopen, hlen], fun hcap ↦ ?_⟩
  have hroom : InBounds k := hlen.le
  exact (capacity_iff hroom _).mp hcap ⟨by decide, hlook, hlen.ge⟩

end ShellOS.Ipc.PipeCapacity
