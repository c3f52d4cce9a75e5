import ShellOS.Library.Copying

namespace ShellOS.Boot.ModulePacker

open Library.Copying

abbrev Contents := List (BitVec 8)

/-- A file that is read: the bytes still to come, and whether a read has met
their end. -/
structure Source where
  rest : Contents
  feof : Bool

def fopen (contents : Contents) : Source := ⟨contents, false⟩

def fread (n : ℕ) (source : Source) : Contents × Source :=
  (source.rest.take n, ⟨source.rest.drop n, source.feof || source.rest.length < n⟩)

def bufferSize : ℕ := 128

/-- There is no result when so many turns of the loop do not meet the end of
the file. -/
def writeFile : ℕ → Contents → Source → Option Contents
  | 0, _, _ => none
  | turns + 1, target, source =>
    if source.feof then some target
    else
      let (buffer, source) := fread bufferSize source
      writeFile turns (target ++ buffer) source

/-- The size that `stat` reports, in the 32 bits of `uint32_t size`. -/
def writeSize (target file : Contents) : Contents :=
  target ++ bytesOf 4 (BitVec.ofNat 32 file.length)

def writeModules (turns : ℕ) : Contents → List Contents → Option Contents
  | target, [] => some target
  | target, file :: files =>
    (writeFile turns (writeSize target file) (fopen file)).bind fun target ↦
      writeModules turns target files

/-- The image of the files of `fileArray`, of which the first is the kernel. -/
def buildImage (turns : ℕ) : List Contents → Option Contents
  | [] => none
  | kernel :: modules =>
    (writeFile turns [] (fopen kernel)).bind fun target ↦
      writeModules turns (target ++ bytesOf 4 (BitVec.ofNat 32 modules.length)) modules

def packed (file : Contents) : Contents := writeSize [] file ++ file

def payload (modules : List Contents) : Contents :=
  bytesOf 4 (BitVec.ofNat 32 modules.length) ++ modules.flatMap packed

variable {turns : ℕ} {target file kernel image : Contents} {files modules : List Contents}

theorem fread_fopen_lt {n : ℕ} (h : file.length < n) :
    fread n (fopen file) = (file, ⟨[], true⟩) := by
  simp [fread, fopen, List.take_of_length_le h.le, List.drop_of_length_le h.le, h]

theorem fread_fopen_ge {n : ℕ} (h : n ≤ file.length) :
    fread n (fopen file) = (file.take n, fopen (file.drop n)) := by
  simp [fread, fopen, Nat.not_lt.mpr h]

theorem writeFile_fopen (h : file.length / bufferSize + 1 < turns) :
    writeFile turns target (fopen file) = some (target ++ file) := by
  induction turns generalizing target file with
  | zero => exact absurd h (Nat.not_lt_zero _)
  | succ turns ih =>
    rcases Nat.lt_or_ge file.length bufferSize with hlt | hge
    · have hleft : turns ≠ 0 := by
        have hpos := Nat.zero_le (file.length / bufferSize)
        omega
      obtain ⟨left, rfl⟩ := Nat.exists_eq_succ_of_ne_zero hleft
      have hread := fread_fopen_lt hlt
      simp only [writeFile, hread]
      rfl
    · have hread := fread_fopen_ge hge
      have hlen : (file.drop bufferSize).length / bufferSize + 1 < turns := by
        rw [List.length_drop]
        unfold bufferSize at h hge ⊢
        omega
      have hrest : writeFile turns (target ++ file.take bufferSize) (fopen (file.drop bufferSize)) =
          some (target ++ file) := by
        rw [ih hlen, List.append_assoc, List.take_append_drop]
      simp only [writeFile, hread]
      exact hrest

def Enough (turns : ℕ) (files : List Contents) : Prop :=
  ∀ file ∈ files, file.length / bufferSize + 1 < turns

theorem writeModules_eq (h : Enough turns files) :
    writeModules turns target files = some (target ++ files.flatMap packed) := by
  induction files generalizing target with
  | nil => simp [writeModules]
  | cons file files ih =>
    obtain ⟨hfile, hfiles⟩ := List.forall_mem_cons.mp h
    rw [writeModules, writeFile_fopen hfile, Option.bind_some, ih hfiles]
    simp [packed, writeSize]

theorem buildImage_eq (h : Enough turns (kernel :: modules)) :
    buildImage turns (kernel :: modules) = some (kernel ++ payload modules) := by
  obtain ⟨hkernel, hmodules⟩ := List.forall_mem_cons.mp h
  rw [buildImage, writeFile_fopen hkernel, Option.bind_some, writeModules_eq hmodules]
  simp [payload]

@[simp]
theorem length_packed (file : Contents) : (packed file).length = 4 + file.length := by
  simp [packed, writeSize]

end ShellOS.Boot.ModulePacker
