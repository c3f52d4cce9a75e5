import ShellOS.Ipc.Pipes
import ShellOS.Library.Runs
import Mathlib.Data.List.Nodup

namespace ShellOS.Ipc.PipeTable

open Library.Runs Pipes Function

/-- The kernel and the pipes of which the read end and the write end are open. -/
structure System where
  kernel : Kernel
  readers : List ℕ
  writers : List ℕ

inductive Act
  | create (newPipe : ℕ)
  | closeRead (a : ℕ)
  | closeWrite (a : ℕ)

/-- `alloc` returns memory that is not in use. Each end is closed once. -/
inductive Step : System → Act → System → Prop
  | create {s : System} {newPipe : ℕ} {f0 f1 g0 g1 : FdPipe} {k : Kernel} :
      newPipe ∉ s.readers → newPipe ∉ s.writers →
      createPipe s.kernel f0 f1 newPipe = (k, g0, g1, 0) →
      Step s (.create newPipe) ⟨k, newPipe :: s.readers, newPipe :: s.writers⟩
  | full {s : System} {newPipe : ℕ} {f0 f1 g0 g1 : FdPipe} {k : Kernel} :
      createPipe s.kernel f0 f1 newPipe = (k, g0, g1, -1) →
      Step s (.create newPipe) ⟨k, s.readers, s.writers⟩
  | closeRead {s : System} {a : ℕ} :
      a ∈ s.readers → Step s (.closeRead a)
        ⟨(closeFdPipe s.kernel (some ⟨1, 0, a⟩)).1, s.readers.erase a, s.writers⟩
  | closeWrite {s : System} {a : ℕ} :
      a ∈ s.writers → Step s (.closeWrite a)
        ⟨(closeFdPipe s.kernel (some ⟨0, 1, a⟩)).1, s.readers, s.writers.erase a⟩

def boot (k : Kernel) : System := ⟨k, [], []⟩

/-- The table lists exactly the pipes with an open end, each once. -/
def Exact (s : System) : Prop :=
  s.kernel.pipes.Nodup ∧ ∀ a, a ∈ s.kernel.pipes ↔ a ∈ s.readers ∨ a ∈ s.writers

def FirstOfId (k : Kernel) (a : ℕ) : Prop :=
  ∀ l₁ l₂, k.pipes = l₁ ++ a :: l₂ → ∀ q ∈ l₁, (k.pipe q).id ≠ (k.pipe a).id

/-- A pipe whose second end is closed is the first of its id in the table. -/
def Distinct (s : System) : Act → Prop
  | .create _ => True
  | .closeRead a => a ∉ s.writers → FirstOfId s.kernel a
  | .closeWrite a => a ∉ s.readers → FirstOfId s.kernel a

structure Flags (s : System) : Prop where
  readers : s.readers.Nodup
  writers : s.writers.Nodup
  readOpen : ∀ a, a ∈ s.readers ∨ a ∈ s.writers →
    ((s.kernel.pipe a).readOpen ≠ 0 ↔ a ∈ s.readers)
  writeOpen : ∀ a, a ∈ s.readers ∨ a ∈ s.writers →
    ((s.kernel.pipe a).writeOpen ≠ 0 ↔ a ∈ s.writers)

variable {s s' : System} {k : Kernel} {a b : ℕ} {x : Act}

theorem pipes_awake : (awake k a).pipes = k.pipes := by
  simp only [awake]
  split <;> rfl

theorem pipe_deletePipeFromArray : (deletePipeFromArray k a).pipe = k.pipe := by
  simp only [deletePipeFromArray]
  split <;> rfl

theorem eraseIdx_findIdx {p : ℕ → Bool} {l₁ : List ℕ} (l₂ : List ℕ) {q : ℕ}
    (h : ∀ y ∈ l₁, p y = false) (hq : p q = true) :
    (l₁ ++ q :: l₂).findIdx p = l₁.length ∧
      (l₁ ++ q :: l₂).eraseIdx l₁.length = l₁ ++ l₂ := by
  induction l₁ with
  | nil => simp [List.findIdx_cons, hq]
  | cons y l₁ ih =>
    have hy := h y List.mem_cons_self
    obtain ⟨hfind, herase⟩ := ih (fun z hz ↦ h z (List.mem_cons_of_mem _ hz))
    simp [List.findIdx_cons, hy, hfind, herase]

theorem deletePipeFromArray_congr {k' : Kernel} (hid : ∀ q, (k'.pipe q).id = (k.pipe q).id)
    (hpipes : k'.pipes = k.pipes) :
    (deletePipeFromArray k' a).pipes = (deletePipeFromArray k a).pipes := by
  simp only [deletePipeFromArray, hid, hpipes]
  split <;> simp [hpipes]

theorem deletePipeFromArray_pipes (hnd : k.pipes.Nodup) (ha : a ∈ k.pipes) :
    ∃ q ∈ k.pipes, (deletePipeFromArray k a).pipes = k.pipes.erase q ∧
      (q = a ↔ FirstOfId k a) := by
  obtain ⟨q, l₁, l₂, hl₁, hq, hpipes, -⟩ := List.exists_of_eraseP (l := k.pipes)
    (p := fun q ↦ decide ((k.pipe q).id = (k.pipe a).id)) ha (by simp)
  have hfirst : ∀ y ∈ l₁, decide ((k.pipe y).id = (k.pipe a).id) = false :=
    fun y hy ↦ by simpa using hl₁ y hy
  obtain ⟨hfind, herase⟩ := eraseIdx_findIdx l₂ hfirst hq
  have hq₁ : q ∉ l₁ := by
    rw [hpipes] at hnd
    exact fun h ↦ List.disjoint_of_nodup_append hnd h List.mem_cons_self
  refine ⟨q, by rw [hpipes]; simp, ?_, ?_⟩
  · rw [← hpipes] at hfind herase
    have hlt : l₁.length ≠ k.pipes.length := by
      rw [hpipes, List.length_append, List.length_cons]
      omega
    simp only [deletePipeFromArray, hfind, if_neg hlt, herase]
    rw [hpipes, List.erase_append_right _ hq₁, List.erase_cons_head]
  · constructor
    · rintro rfl m₁ m₂ hm y hy heq
      rw [hm] at hpipes hnd
      have hm₁ : q ∉ m₁ := fun h ↦ List.disjoint_of_nodup_append hnd h List.mem_cons_self
      have hsame : m₁ = l₁ := by
        have htake := congrArg (List.takeWhile (fun z ↦ decide (z ≠ q))) hpipes
        rw [List.takeWhile_append_of_pos (fun z hz ↦ by simpa using ne_of_mem_of_not_mem hz hm₁),
          List.takeWhile_append_of_pos (fun z hz ↦ by simpa using ne_of_mem_of_not_mem hz hq₁)] at htake
        simpa using htake
      exact hl₁ y (hsame ▸ hy) (by simpa using heq)
    · intro hfirst
      by_contra hne
      have ha₂ : a ∈ l₂ := by
        have hmem := hpipes ▸ ha
        rcases List.mem_append.mp hmem with h | h
        · exact absurd (by simp) (hl₁ a h)
        · exact (List.mem_cons.mp h).resolve_left (Ne.symm hne)
      obtain ⟨r₁, r₂, rfl⟩ := List.append_of_mem ha₂
      have hsplit : k.pipes = (l₁ ++ q :: r₁) ++ a :: r₂ := by simpa using hpipes
      exact hfirst _ _ hsplit q (by simp) (by simpa using hq)

structure Closed (k k' : Kernel) (freed : Option ℕ) (a other : ℕ) : Prop where
  pipes : k'.pipes = if other = 0 then (deletePipeFromArray k a).pipes else k.pipes
  freed : freed = if other = 0 then some a else none

def shutRead (k : Kernel) (a : ℕ) : Kernel := k.setPipe a { k.pipe a with readOpen := 0 }

def shutWrite (k : Kernel) (a : ℕ) : Kernel := k.setPipe a { k.pipe a with writeOpen := 0 }

def release (k : Kernel) (a other : ℕ) : Kernel × Option ℕ :=
  if other = 0 then (deletePipeFromArray k a, some a) else (awake k a, none)

section Release

variable (k : Kernel) (a other : ℕ)

theorem release_pipe (b : ℕ) : (release k a other).1.pipe b =
    if other ≠ 0 ∧ b = a then { k.pipe b with waitingProcess := 0 } else k.pipe b := by
  rw [release]
  by_cases hother : other = 0
  · rw [if_pos hother, if_neg (fun h ↦ h.1 hother), pipe_deletePipeFromArray]
  · rw [if_neg hother]
    by_cases hb : b = a
    · rw [if_pos ⟨hother, hb⟩, hb, awake_pipe]
    · rw [if_neg (fun h ↦ hb h.2)]
      simp only [awake]
      split
      · exact update_of_ne hb _ _
      · rfl

theorem deletePipeFromArray_pstate : (deletePipeFromArray k a).pstate = k.pstate := by
  rw [deletePipeFromArray]
  split
  · rfl
  · rfl

theorem deletePipeFromArray_sublist :
    (deletePipeFromArray k a).pipes.Sublist k.pipes := by
  rw [deletePipeFromArray]
  split
  · exact List.Sublist.refl _
  · exact List.eraseIdx_sublist _ _

theorem release_pstate {y : ℕ} (hy : y ≠ 0) : (release k a other).1.pstate y =
    if other ≠ 0 ∧ y = (k.pipe a).waitingProcess then 1 else k.pstate y := by
  rw [release]
  by_cases hother : other = 0
  · rw [if_pos hother, if_neg (fun h ↦ h.1 hother), deletePipeFromArray_pstate]
  · rw [if_neg hother, awake_pstate k a y hy]
    simp only [ne_eq, hother, not_false_eq_true, true_and]

theorem release_pipes : (release k a other).1.pipes =
    if other = 0 then (deletePipeFromArray k a).pipes else k.pipes := by
  rw [release]
  split
  · rfl
  · exact pipes_awake

/-- When no two pipes of the table have the same id, it is the pipe itself that
leaves it. -/
theorem not_mem_deletePipeFromArray (hids : (k.pipes.map fun q ↦ (k.pipe q).id).Nodup) :
    a ∉ (deletePipeFromArray k a).pipes := by
  have hnd : k.pipes.Nodup := List.Nodup.of_map _ hids
  by_cases ha : a ∈ k.pipes
  · obtain ⟨q, -, herase, hq⟩ := deletePipeFromArray_pipes hnd ha
    have hfirst : FirstOfId k a := by
      intro l₁ l₂ hl y hy hid
      rw [hl, List.map_append, List.map_cons, List.nodup_middle, List.nodup_cons] at hids
      exact hids.1 (List.mem_append_left _ (List.mem_map.mpr ⟨y, hy, hid⟩))
    rw [herase, hq.mpr hfirst]
    exact hnd.not_mem_erase
  · exact fun hmem ↦ ha ((deletePipeFromArray_sublist k a).mem hmem)

end Release

theorem Closed.mem_of_mem {k' : Kernel} {freed : Option ℕ} {other b : ℕ}
    (h : Closed k k' freed a other) (hb : b ∈ k'.pipes) : b ∈ k.pipes := by
  rw [h.pipes] at hb
  split at hb
  · exact (deletePipeFromArray_sublist _ _).mem hb
  · exact hb

theorem closeFdPipe_readable {fd : FdPipe} (hr : fd.readable ≠ 0) : closeFdPipe k (some fd) =
    release (shutRead k fd.pipe) fd.pipe (k.pipe fd.pipe).writeOpen := by
  simp [closeFdPipe, release, shutRead, hr]

theorem closeFdPipe_writable {fd : FdPipe} (hr : fd.readable = 0) (hw : fd.writable ≠ 0) :
    closeFdPipe k (some fd) =
      release (shutWrite k fd.pipe) fd.pipe (k.pipe fd.pipe).readOpen := by
  simp [closeFdPipe, release, shutWrite, hr, hw]

theorem closeFdPipe_neither {fd : FdPipe} (hr : fd.readable = 0) (hw : fd.writable = 0) :
    closeFdPipe k (some fd) = (k, none) := by
  simp [closeFdPipe, hr, hw]

theorem closeFdPipe_read :
    closeFdPipe k (some ⟨1, 0, a⟩) = release (shutRead k a) a (k.pipe a).writeOpen :=
  closeFdPipe_readable one_ne_zero

theorem closeFdPipe_write :
    closeFdPipe k (some ⟨0, 1, a⟩) = release (shutWrite k a) a (k.pipe a).readOpen :=
  closeFdPipe_writable rfl one_ne_zero

theorem release_spec (a : ℕ) {k₁ : Kernel} (other : ℕ) (hid : ∀ q, (k₁.pipe q).id = (k.pipe q).id)
    (hpipes : k₁.pipes = k.pipes) :
    (∀ b, ((release k₁ a other).1.pipe b).readOpen = (k₁.pipe b).readOpen) ∧
      (∀ b, ((release k₁ a other).1.pipe b).writeOpen = (k₁.pipe b).writeOpen) ∧
      Closed k (release k₁ a other).1 (release k₁ a other).2 a other := by
  refine ⟨fun b ↦ ?_, fun b ↦ ?_, ?_, ?_⟩
  · rw [release_pipe]
    split
    · rfl
    · rfl
  · rw [release_pipe]
    split
    · rfl
    · rfl
  · rw [release_pipes, deletePipeFromArray_congr hid hpipes, hpipes]
  · rw [release]
    split
    · rfl
    · rfl

theorem shutRead_pipe (b : ℕ) :
    ((shutRead k a).pipe b).id = (k.pipe b).id ∧
      ((shutRead k a).pipe b).readOpen = (if b = a then 0 else (k.pipe b).readOpen) ∧
      ((shutRead k a).pipe b).writeOpen = (k.pipe b).writeOpen := by
  by_cases hb : b = a <;> simp [shutRead, hb]

theorem shutWrite_pipe (b : ℕ) :
    ((shutWrite k a).pipe b).id = (k.pipe b).id ∧
      ((shutWrite k a).pipe b).readOpen = (k.pipe b).readOpen ∧
      ((shutWrite k a).pipe b).writeOpen = if b = a then 0 else (k.pipe b).writeOpen := by
  by_cases hb : b = a <;> simp [shutWrite, hb]

theorem closeRead_spec {r : Kernel × Option ℕ} (hr : closeFdPipe k (some ⟨1, 0, a⟩) = r) :
    (∀ b, (r.1.pipe b).readOpen = if b = a then 0 else (k.pipe b).readOpen) ∧
      (∀ b, (r.1.pipe b).writeOpen = (k.pipe b).writeOpen) ∧
      Closed k r.1 r.2 a (k.pipe a).writeOpen := by
  rw [← hr, closeFdPipe_read]
  obtain ⟨hread, hwrite, hclosed⟩ := release_spec a (k.pipe a).writeOpen
    (fun q ↦ (shutRead_pipe (k := k) (a := a) q).1) rfl
  exact ⟨fun b ↦ (hread b).trans (shutRead_pipe b).2.1,
    fun b ↦ (hwrite b).trans (shutRead_pipe b).2.2, hclosed⟩

theorem closeWrite_spec {r : Kernel × Option ℕ} (hr : closeFdPipe k (some ⟨0, 1, a⟩) = r) :
    (∀ b, (r.1.pipe b).readOpen = (k.pipe b).readOpen) ∧
      (∀ b, (r.1.pipe b).writeOpen = if b = a then 0 else (k.pipe b).writeOpen) ∧
      Closed k r.1 r.2 a (k.pipe a).readOpen := by
  rw [← hr, closeFdPipe_write]
  obtain ⟨hread, hwrite, hclosed⟩ := release_spec a (k.pipe a).readOpen
    (fun q ↦ (shutWrite_pipe (k := k) (a := a) q).1) rfl
  exact ⟨fun b ↦ (hread b).trans (shutWrite_pipe b).2.1,
    fun b ↦ (hwrite b).trans (shutWrite_pipe b).2.2, hclosed⟩

theorem erase_exact {l : List ℕ} {q : ℕ} {Open Open' : ℕ → Prop} (hnd : l.Nodup)
    (hl : ∀ b, b ∈ l ↔ Open b) (ha : Open a) (hopen : ∀ b, Open' b ↔ b ≠ a ∧ Open b) :
    ((l.erase q).Nodup ∧ ∀ b, b ∈ l.erase q ↔ Open' b) ↔ q = a := by
  constructor
  · rintro ⟨-, hexact⟩
    by_contra hne
    have hmem : a ∈ l.erase q := (List.mem_erase_of_ne (Ne.symm hne)).mpr ((hl a).mpr ha)
    exact ((hopen a).mp ((hexact a).mp hmem)).1 rfl
  · rintro rfl
    refine ⟨hnd.erase q, fun b ↦ ?_⟩
    rw [hnd.mem_erase_iff, hopen, hl]

theorem close_exact {k' : Kernel} {freed : Option ℕ} {other : ℕ} {Open Open' : ℕ → Prop}
    (hc : Closed k k' freed a other) (hnd : k.pipes.Nodup) (hl : ∀ b, b ∈ k.pipes ↔ Open b)
    (ha : Open a) (hopen : ∀ b, Open' b ↔ (b = a → other ≠ 0) ∧ Open b) :
    (k'.pipes.Nodup ∧ ∀ b, b ∈ k'.pipes ↔ Open' b) ↔ (other = 0 → FirstOfId k a) := by
  rw [hc.pipes]
  by_cases hother : other = 0
  · obtain ⟨q, -, herase, hq⟩ := deletePipeFromArray_pipes hnd ((hl a).mpr ha)
    rw [if_pos hother, herase, erase_exact hnd hl ha (fun b ↦ by rw [hopen]; simp [hother]), hq]
    simp [hother]
  · rw [if_neg hother]
    refine ⟨fun _ h0 ↦ absurd h0 hother, fun _ ↦ ⟨hnd, fun b ↦ ?_⟩⟩
    rw [hl, hopen]
    simp [hother]

theorem createPipe_spec {k' : Kernel} {f0 f1 g0 g1 : FdPipe} {ret : ℤ}
    (h : createPipe k f0 f1 a = (k', g0, g1, ret)) :
    ret = -1 ∧ k' = k ∨
      ret = 0 ∧ k'.pipes = k.pipes ++ [a] ∧ (k'.pipe a).readOpen = 1 ∧
        (k'.pipe a).writeOpen = 1 ∧ ∀ b, b ≠ a → k'.pipe b = k.pipe b := by
  unfold createPipe at h
  split at h
  · simp only [Prod.mk.injEq] at h
    exact Or.inl ⟨h.2.2.2.symm, h.1.symm⟩
  · simp only [Prod.mk.injEq] at h
    obtain ⟨hk, -, -, hret⟩ := h
    refine Or.inr ⟨hret.symm, ?_⟩
    rw [← hk]
    exact ⟨rfl, by simp, by simp, fun b hb ↦ by simp [hb]⟩

theorem create_flags {newPipe : ℕ} (hf : Flags s) (hr : newPipe ∉ s.readers)
    (hw : newPipe ∉ s.writers) (hread : (k.pipe newPipe).readOpen = 1)
    (hwrite : (k.pipe newPipe).writeOpen = 1)
    (hold : ∀ b, b ≠ newPipe → k.pipe b = s.kernel.pipe b) :
    Flags ⟨k, newPipe :: s.readers, newPipe :: s.writers⟩ := by
  have hcases : ∀ b, b ∈ newPipe :: s.readers ∨ b ∈ newPipe :: s.writers →
      b = newPipe ∨ b ≠ newPipe ∧ (b ∈ s.readers ∨ b ∈ s.writers) := by
    intro b hb
    by_cases hbn : b = newPipe
    · exact Or.inl hbn
    · exact Or.inr ⟨hbn, by simpa [hbn] using hb⟩
  refine ⟨List.nodup_cons.mpr ⟨hr, hf.readers⟩, List.nodup_cons.mpr ⟨hw, hf.writers⟩,
    fun b hb ↦ ?_, fun b hb ↦ ?_⟩
  · rcases hcases b hb with rfl | ⟨hbn, hb⟩
    · simp [hread]
    · simpa [hold b hbn, hbn] using hf.readOpen b hb
  · rcases hcases b hb with rfl | ⟨hbn, hb⟩
    · simp [hwrite]
    · simpa [hold b hbn, hbn] using hf.writeOpen b hb

theorem create_exact {newPipe : ℕ} (hP : Exact s) (hr : newPipe ∉ s.readers)
    (hw : newPipe ∉ s.writers) (hpipes : k.pipes = s.kernel.pipes ++ [newPipe]) :
    Exact ⟨k, newPipe :: s.readers, newPipe :: s.writers⟩ := by
  constructor
  · change k.pipes.Nodup
    rw [hpipes]
    refine List.nodup_append'.mpr ⟨hP.1, List.nodup_singleton _, ?_⟩
    rw [List.disjoint_singleton]
    intro hmem
    exact ((hP.2 newPipe).mp hmem).elim hr hw
  · intro b
    change b ∈ k.pipes ↔ _
    rw [hpipes, List.mem_append, hP.2 b, List.mem_singleton, List.mem_cons, List.mem_cons]
    constructor
    · rintro ((hb | hb) | rfl)
      · exact Or.inl (Or.inr hb)
      · exact Or.inr (Or.inr hb)
      · exact Or.inl (Or.inl rfl)
    · rintro ((rfl | hb) | (rfl | hb))
      · exact Or.inr rfl
      · exact Or.inl (Or.inl hb)
      · exact Or.inr rfl
      · exact Or.inl (Or.inr hb)

theorem step_flags (hf : Flags s) (hs : Step s x s') : Flags s' := by
  cases hs with
  | create hr hw hcall =>
    rcases createPipe_spec hcall with ⟨hret, -⟩ | ⟨-, -, hread, hwrite, hold⟩
    · cases hret
    · exact create_flags hf hr hw hread hwrite hold
  | full hcall =>
    rcases createPipe_spec hcall with ⟨-, rfl⟩ | ⟨hret, -⟩
    · exact hf
    · cases hret
  | @closeRead a ha =>
    obtain ⟨hread, hwrite, -⟩ := closeRead_spec (k := s.kernel) (a := a) rfl
    refine ⟨hf.readers.erase a, hf.writers, fun b hb ↦ ?_, fun b hb ↦ ?_⟩
    · simp only [hread, hf.readers.mem_erase_iff]
      by_cases hba : b = a
      · simp [hba]
      · have hb' := hb.imp List.mem_of_mem_erase id
        simpa [hba] using hf.readOpen b hb'
    · rw [hwrite]
      exact hf.writeOpen b (hb.imp List.mem_of_mem_erase id)
  | @closeWrite a ha =>
    obtain ⟨hread, hwrite, -⟩ := closeWrite_spec (k := s.kernel) (a := a) rfl
    refine ⟨hf.readers, hf.writers.erase a, fun b hb ↦ ?_, fun b hb ↦ ?_⟩
    · rw [hread]
      exact hf.readOpen b (hb.imp id List.mem_of_mem_erase)
    · simp only [hwrite, hf.writers.mem_erase_iff]
      by_cases hba : b = a
      · simp [hba]
      · have hb' := hb.imp id List.mem_of_mem_erase
        simpa [hba] using hf.writeOpen b hb'

theorem step_exact (hf : Flags s) (hP : Exact s) (hs : Step s x s') :
    Exact s' ↔ Distinct s x := by
  cases hs with
  | create hr hw hcall =>
    rcases createPipe_spec hcall with ⟨hret, -⟩ | ⟨-, hpipes, -⟩
    · cases hret
    · exact ⟨fun _ ↦ trivial, fun _ ↦ create_exact hP hr hw hpipes⟩
  | full hcall =>
    rcases createPipe_spec hcall with ⟨-, rfl⟩ | ⟨hret, -⟩
    · exact ⟨fun _ ↦ trivial, fun _ ↦ hP⟩
    · cases hret
  | @closeRead a ha =>
    obtain ⟨-, -, hclosed⟩ := closeRead_spec (k := s.kernel) (a := a) rfl
    have hother := hf.writeOpen a (Or.inl ha)
    refine (close_exact hclosed hP.1 hP.2 (Or.inl ha) (fun b ↦ ?_)).trans ?_
    · rw [hother, hf.readers.mem_erase_iff]
      by_cases hb : b = a
      · subst hb
        simpa using fun h ↦ Or.inr h
      · simp [hb]
    · rw [Distinct, ← hother, not_not]
  | @closeWrite a ha =>
    obtain ⟨-, -, hclosed⟩ := closeWrite_spec (k := s.kernel) (a := a) rfl
    have hother := hf.readOpen a (Or.inr ha)
    refine (close_exact hclosed hP.1 hP.2 (Or.inr ha) (fun b ↦ ?_)).trans ?_
    · rw [hother, hf.writers.mem_erase_iff]
      by_cases hb : b = a
      · subst hb
        simpa using fun h ↦ Or.inl h
      · simp [hb]
    · rw [Distinct, ← hother, not_not]

theorem closeRead_freed (hf : Flags s) (ha : a ∈ s.readers) :
    (closeFdPipe s.kernel (some ⟨1, 0, a⟩)).2 = if a ∈ s.writers then none else some a := by
  have hother := hf.writeOpen a (Or.inl ha)
  rw [(closeRead_spec rfl).2.2.freed]
  by_cases hw : a ∈ s.writers
  · rw [if_neg (hother.mpr hw), if_pos hw]
  · rw [if_pos (not_not.mp (fun h ↦ hw (hother.mp h))), if_neg hw]

theorem closeWrite_freed (hf : Flags s) (ha : a ∈ s.writers) :
    (closeFdPipe s.kernel (some ⟨0, 1, a⟩)).2 = if a ∈ s.readers then none else some a := by
  have hother := hf.readOpen a (Or.inr ha)
  rw [(closeWrite_spec rfl).2.2.freed]
  by_cases hr : a ∈ s.readers
  · rw [if_neg (hother.mpr hr), if_pos hr]
  · rw [if_pos (not_not.mp (fun h ↦ hr (hother.mp h))), if_neg hr]

theorem flags_boot : Flags (boot k) := by
  constructor <;> simp [boot]

/-- The table stays exact in exactly those runs in which every pipe whose
second end is closed is the first of its id in the table. In every run a pipe
is freed exactly when its second end is closed. -/
theorem pipe_table_iff {tr : List (System × Act)} (hk : k.pipes = [])
    (hrun : Run Step (boot k) tr s) :
    (Always Exact tr s ↔ ∀ e ∈ tr, Distinct e.1 e.2) ∧
      (∀ a ∈ s.readers, (closeFdPipe s.kernel (some ⟨1, 0, a⟩)).2 =
        if a ∈ s.writers then none else some a) ∧
      ∀ a ∈ s.writers, (closeFdPipe s.kernel (some ⟨0, 1, a⟩)).2 =
        if a ∈ s.readers then none else some a := by
  have hboot : Exact (boot k) := by simp [Exact, boot, hk]
  refine ⟨hrun.always_iff (fun _ _ _ hf _ hs _ ↦ step_flags hf hs)
    (fun _ _ _ hf hP hs ↦ step_exact hf hP hs) flags_boot hboot, ?_⟩
  have hf : Flags s := hrun.invariant (fun _ _ _ hf hs ↦ step_flags hf hs) flags_boot
  exact ⟨fun _ ha ↦ closeRead_freed hf ha, fun _ ha ↦ closeWrite_freed hf ha⟩

section Perform

def perform (s : System) : Act → Option System
  | .create newPipe =>
    if newPipe ∉ s.readers ∧ newPipe ∉ s.writers ∧
        (createPipe s.kernel noFd noFd newPipe).2.2.2 = 0 then
      some ⟨(createPipe s.kernel noFd noFd newPipe).1, newPipe :: s.readers, newPipe :: s.writers⟩
    else none
  | .closeRead a =>
    if a ∈ s.readers then
      some ⟨(closeFdPipe s.kernel (some ⟨1, 0, a⟩)).1, s.readers.erase a, s.writers⟩
    else none
  | .closeWrite a =>
    if a ∈ s.writers then
      some ⟨(closeFdPipe s.kernel (some ⟨0, 1, a⟩)).1, s.readers, s.writers.erase a⟩
    else none

theorem step_perform (h : perform s x = some s') : Step s x s' := by
  cases x with
  | create newPipe =>
    obtain ⟨⟨hr, hw, hret⟩, h⟩ := Option.ite_none_right_eq_some.mp h
    cases h
    exact .create hr hw (Prod.ext rfl (Prod.ext rfl (Prod.ext rfl hret)))
  | closeRead a =>
    obtain ⟨ha, h⟩ := Option.ite_none_right_eq_some.mp h
    cases h
    exact .closeRead ha
  | closeWrite a =>
    obtain ⟨ha, h⟩ := Option.ite_none_right_eq_some.mp h
    cases h
    exact .closeWrite ha

abbrev IdsDiffer (k : Kernel) : Prop := (k.pipes.map fun q ↦ (k.pipe q).id).Nodup

theorem IdsDiffer.first (h : IdsDiffer k) (a : ℕ) : FirstOfId k a := by
  intro l₁ l₂ hpipes q hq heq
  rw [IdsDiffer, hpipes, List.map_append, List.map_cons, List.nodup_append] at h
  exact h.2.2 _ (List.mem_map_of_mem hq) _ List.mem_cons_self heq

theorem IdsDiffer.distinct (h : IdsDiffer s.kernel) (x : Act) : Distinct s x := by
  cases x with
  | create newPipe => exact trivial
  | closeRead a => exact fun _ ↦ h.first a
  | closeWrite a => exact fun _ ↦ h.first a

theorem run_of_perform {acts : List Act} {s s' : System}
    (h : acts.foldlM (fun s x ↦ if IdsDiffer s.kernel then perform s x else none) s = some s') :
    ∃ tr, Run Step s tr s' ∧ tr.map Prod.snd = acts ∧ ∀ e ∈ tr, Distinct e.1 e.2 := by
  obtain ⟨tr, hrun, hacts, hall⟩ := run_of_checked h
  exact ⟨tr, hrun.mono fun _ _ _ hs ↦ step_perform hs, hacts, fun e he ↦ (hall e he).distinct _⟩

end Perform

def twoPipes : List Act :=
  [.create 1, .create 2, .closeRead 1, .closeWrite 2, .closeWrite 1, .create 3]

theorem pipe_table_two_pipes : ∃ tr s, Run Step (boot noPipes) tr s ∧
    tr.map Prod.snd = twoPipes ∧ s.kernel.pipes = [2, 3] ∧ Always Exact tr s := by
  have hend : (twoPipes.foldlM (fun s x ↦ if IdsDiffer s.kernel then perform s x else none)
      (boot noPipes)).map (fun s ↦ s.kernel.pipes) = some [2, 3] := by decide +kernel
  obtain ⟨s, hs, hpipes⟩ := Option.map_eq_some_iff.mp hend
  obtain ⟨tr, hrun, hacts, hdistinct⟩ := run_of_perform hs
  exact ⟨tr, s, hrun, hacts, hpipes, (pipe_table_iff rfl hrun).1.mpr hdistinct⟩

def firstPipe : System := ⟨(createPipe noPipes noFd noFd 1).1, [1], [1]⟩

theorem firstPipe_run : Run Step (boot noPipes) [(boot noPipes, Act.create 1)] firstPipe := by
  have hcall : createPipe noPipes noFd noFd 1 = ((createPipe noPipes noFd noFd 1).1,
      ⟨1, 0, 1⟩, ⟨0, 1, 1⟩, 0) := rfl
  have hstep : Step (boot noPipes) (.create 1) ⟨_, 1 :: [], 1 :: []⟩ :=
    .create (by simp [boot]) (by simp [boot]) hcall
  exact Run.one hstep

structure Old (i : ℕ) (s : System) : Prop where
  readers : s.readers = [1]
  writers : s.writers = [1]
  id : (s.kernel.pipe 1).id = maxPipes
  pipeIds : s.kernel.pipeIds = i

/-- A second pipe is made and closed. It takes the first one's entry out of
the table when the two have the same id. -/
theorem come_and_go {i : ℕ} (h : Old i s) (hpipes : s.kernel.pipes = [1]) :
    ∃ tr s', Run Step s tr s' ∧ Old ((i + 1) % 2 ^ 8) s' ∧
      s'.kernel.pipes = if i = 0 then [2] else [1] := by
  obtain ⟨k, readers, writers⟩ := s
  obtain ⟨rfl, rfl, hid, rfl⟩ := h
  have hcall : createPipe k noFd noFd 2 =
      ((createPipe k noFd noFd 2).1, ⟨1, 0, 2⟩, ⟨0, 1, 2⟩, 0) := by
    simp only at hpipes
    simp [createPipe, hpipes, maxPipes]
  have hcreate : Step ⟨k, [1], [1]⟩ (.create 2) ⟨_, 2 :: [1], 2 :: [1]⟩ :=
    .create (by simp) (by simp) hcall
  have hread := Step.closeRead (s := ⟨(createPipe k noFd noFd 2).1, 2 :: [1], 2 :: [1]⟩)
    (a := 2) List.mem_cons_self
  have hwrite := Step.closeWrite
    (s := ⟨(closeFdPipe (createPipe k noFd noFd 2).1 (some ⟨1, 0, 2⟩)).1,
      (2 :: [1]).erase 2, 2 :: [1]⟩) (a := 2) List.mem_cons_self
  refine ⟨_, _, .cons hcreate (.cons hread (.cons hwrite (.nil _))), ?_, ?_⟩
  · simp only at hpipes hid
    refine ⟨rfl, rfl, ?_, ?_⟩
    all_goals
      simp only [createPipe, hpipes, closeFdPipe, awake, deletePipeFromArray, maxPipes]
      simp
      split <;> simp [hid, maxPipes]
  · simp only at hpipes hid
    by_cases hi : k.pipeIds = 0
    · simp [createPipe, hpipes, hid, closeFdPipe, awake, deletePipeFromArray, maxPipes, hi,
        List.findIdx_cons]
    · simp [createPipe, hpipes, hid, closeFdPipe, awake, deletePipeFromArray, maxPipes, hi,
        List.findIdx_cons]

theorem reuse (n : ℕ) (hn : n ≤ 255) :
    ∃ tr s, Run Step firstPipe tr s ∧ Old ((n + 1) % 2 ^ 8) s ∧ s.kernel.pipes = [1] := by
  induction n with
  | zero => exact ⟨[], firstPipe, .nil _, ⟨rfl, rfl, rfl, rfl⟩, rfl⟩
  | succ n ih =>
    obtain ⟨tr, s, hrun, hold, hpipes⟩ := ih (by omega)
    obtain ⟨tr', s', hrun', hold', hpipes'⟩ := come_and_go hold hpipes
    have hne : (n + 1) % 2 ^ 8 ≠ 0 := by omega
    rw [if_neg hne] at hpipes'
    rw [Nat.mod_add_mod] at hold'
    exact ⟨tr ++ tr', s', hrun.trans hrun', hold', hpipes'⟩

theorem old_pipe_lost : ∃ tr s, Run Step (boot noPipes) tr s ∧
    s.readers = [1] ∧ s.writers = [1] ∧ s.kernel.pipes = [2] ∧ ¬ Exact s := by
  obtain ⟨tr, s, hrun, hold, hpipes⟩ := reuse 255 le_rfl
  obtain ⟨tr', s', hrun', hold', hpipes'⟩ := come_and_go hold hpipes
  refine ⟨_, s', firstPipe_run.trans (hrun.trans hrun'), hold'.readers, hold'.writers, hpipes',
    fun hexact ↦ ?_⟩
  have hmem := (hexact.2 1).mpr (Or.inl (by simp [hold'.readers]))
  rw [hpipes'] at hmem
  simp at hmem

end ShellOS.Ipc.PipeTable
