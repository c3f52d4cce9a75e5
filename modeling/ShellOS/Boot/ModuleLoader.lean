import ShellOS.Boot.Lib
import ShellOS.Boot.ModulePacker

namespace ShellOS.Boot.ModuleLoader

open Library.Bytes Library.Copying Lib ModulePacker

def readUint32 (m : Memory) (address : BitVec 64) : BitVec 32 × BitVec 64 :=
  (load m 4 address, address + 4)

def loadModule (m : Memory) (currentModule targetModuleAddress : BitVec 64) : Memory × BitVec 64 :=
  let (moduleSize, currentModule) := readUint32 m currentModule
  (memcpy m targetModuleAddress currentModule (moduleSize.setWidth 64),
    currentModule + moduleSize.setWidth 64)

/-- The loop over so many modules from `i` on. There is no result when it reads
behind the array of addresses. -/
def loadLoop (targetModuleAddress : List (BitVec 64)) :
    ℕ → ℕ → Memory → BitVec 64 → Option Memory
  | 0, _, m, _ => some m
  | left + 1, i, m, currentModule =>
    (targetModuleAddress[i]?).bind fun target ↦
      let (m, currentModule) := loadModule m currentModule target
      loadLoop targetModuleAddress left (i + 1) m currentModule

def loadModules (m : Memory) (payloadStart : BitVec 64) (targetModuleAddress : List (BitVec 64)) :
    Option Memory :=
  let (moduleCount, currentModule) := readUint32 m payloadStart
  loadLoop targetModuleAddress moduleCount.toNat 0 m currentModule

section Kernel

/-- The symbols of the linker script. -/
structure Layout where
  endOfKernelBinary : BitVec 64
  bss : BitVec 64
  endOfKernel : BitVec 64

def pageSize : BitVec 64 := 0x1000

def kernelAddress : BitVec 64 := 0x100000

def sampleCodeModuleAddress : BitVec 64 := 0x400000

def sampleDataModuleAddress : BitVec 64 := 0x500000

def heapModuleAddress : BitVec 64 := 0x600000

def getStackBase (l : Layout) : BitVec 64 := l.endOfKernel + pageSize * 8 - 8

end Kernel

variable {m : Memory} {a b t : BitVec 64} {i n : ℕ} {file : Contents} {targets : List (BitVec 64)}
  {places : List (BitVec 64 × Contents)}

def area (p : BitVec 64 × Contents) : Set (BitVec 64) := span p.1 p.2.length

section Load

theorem apart_of_disjoint (h : Disjoint (span a n) (span b n)) :
    (a - b).toNat = 0 ∨ n ≤ (a - b).toNat := by
  rcases Nat.eq_zero_or_pos n with rfl | hpos
  · exact .inr (Nat.zero_le _)
  · refine .inr (Nat.le_of_not_lt (fun hlt ↦ ?_))
    have ha : a ∈ span a n := by
      change (a - a).toNat < n
      simpa using hpos
    exact Set.disjoint_left.mp h ha hlt

theorem loadModule_packed (h : Holds m a (packed file)) (hsize : file.length < 2 ^ 32)
    (happart : Disjoint (span t file.length) (span a (packed file).length)) :
    Holds (loadModule m a t).1 t file ∧ (∀ x ∉ area (t, file), (loadModule m a t).1 x = m x) ∧
      (loadModule m a t).2 = a + BitVec.ofNat 64 (packed file).length := by
  obtain ⟨hword, hfile⟩ := holds_append.mp h
  have hsizeWord : load m 4 a = BitVec.ofNat 32 file.length := hword.load
  have hlen : ((BitVec.ofNat 32 file.length).setWidth 64).toNat = file.length := by
    rw [BitVec.toNat_setWidth, BitVec.toNat_ofNat]
    omega
  have hfile : Holds m (a + 4) file := by simpa [writeSize] using hfile
  have hsub : span (a + 4) file.length ⊆ span a (packed file).length := by
    intro x hx
    exact mem_span_offset (i := 4) (by simp) hx
  have hfar := apart_of_disjoint (happart.mono_right hsub)
  unfold loadModule readUint32
  rw [hsizeWord]
  refine ⟨?_, fun x hx ↦ memcpy_outside (by rw [hlen]; exact hx), ?_⟩
  · have hcopy := hfile.copy (by omega) hfar
    simp only [memcpy_eq_copyBytes, hlen]
    exact hcopy
  · rw [length_packed]
    bv_omega

theorem loadLoop_packed (spare : List (BitVec 64))
    (hpacked : Holds m a ((places.map Prod.snd).flatMap packed))
    (hsize : ∀ p ∈ places, p.2.length < 2 ^ 32)
    (htargets : targets.drop i = places.map Prod.fst ++ spare)
    (happart : ∀ p ∈ places,
      Disjoint (area p) (span a ((places.map Prod.snd).flatMap packed).length))
    (hplaces : places.Pairwise fun p q ↦ Disjoint (area p) (area q)) :
    ∃ m', loadLoop targets places.length i m a = some m' ∧ (∀ p ∈ places, Holds m' p.1 p.2) ∧
      ∀ x, (∀ p ∈ places, x ∉ area p) → m' x = m x := by
  induction places generalizing i m a with
  | nil => exact ⟨m, rfl, by simp, fun _ _ ↦ rfl⟩
  | cons p places ih =>
    obtain ⟨t, file⟩ := p
    rw [List.map_cons, List.flatMap_cons] at hpacked
    simp only [List.map_cons, List.flatMap_cons, List.length_append] at happart
    obtain ⟨hfirst, hrest⟩ := holds_append.mp hpacked
    obtain ⟨hp, hothers⟩ := List.pairwise_cons.mp hplaces
    have hhead : span a (packed file).length ⊆
        span a ((packed file).length + ((places.map Prod.snd).flatMap packed).length) :=
      fun x hx ↦ Nat.lt_add_right _ hx
    have htail : span (a + BitVec.ofNat 64 (packed file).length)
        ((places.map Prod.snd).flatMap packed).length ⊆
        span a ((packed file).length + ((places.map Prod.snd).flatMap packed).length) :=
      fun x hx ↦ mem_span_offset le_rfl hx
    obtain ⟨hload, hframe, hnext⟩ := loadModule_packed hfirst (hsize _ List.mem_cons_self)
      ((happart _ List.mem_cons_self).mono_right hhead)
    have htarget : targets[i]? = some t := by
      have hget := congrArg (fun l : List (BitVec 64) ↦ l[0]?) htargets
      simpa using hget
    have htargets' : targets.drop (i + 1) = places.map Prod.fst ++ spare := by
      rw [← List.tail_drop, htargets]
      rfl
    -- the copy leaves the modules that are still to be loaded
    have hrest := hrest.congr (fun x hx ↦ hframe x (fun hmem ↦
      Set.disjoint_left.mp (happart _ List.mem_cons_self) hmem (htail hx)))
    obtain ⟨m', hloop, hall, hout⟩ := ih hrest (fun q hq ↦ hsize q (List.mem_cons_of_mem _ hq))
      htargets' (fun q hq ↦ (happart q (List.mem_cons_of_mem _ hq)).mono_right htail) hothers
    refine ⟨m', ?_, ?_, ?_⟩
    · rw [List.length_cons, loadLoop, htarget, Option.bind_some]
      change loadLoop targets places.length (i + 1) (loadModule m a t).1 (loadModule m a t).2 = _
      rw [hnext]
      exact hloop
    · intro q hq
      rcases List.mem_cons.mp hq with rfl | hq
      · exact hload.congr (fun x hx ↦ hout x (fun q hq hmem ↦
          Set.disjoint_left.mp (hp q hq) hx hmem))
      · exact hall q hq
    · intro x hx
      rw [hout x (fun q hq ↦ hx q (List.mem_cons_of_mem _ hq)), hframe x (hx _ List.mem_cons_self)]

theorem loadModules_payload (spare : List (BitVec 64))
    (hpayload : Holds m a (payload (places.map Prod.snd)))
    (hcount : places.length < 2 ^ 32) (hsize : ∀ p ∈ places, p.2.length < 2 ^ 32)
    (happart : ∀ p ∈ places, Disjoint (area p) (span a (payload (places.map Prod.snd)).length))
    (hplaces : places.Pairwise fun p q ↦ Disjoint (area p) (area q)) :
    ∃ m', loadModules m a (places.map Prod.fst ++ spare) = some m' ∧
      (∀ p ∈ places, Holds m' p.1 p.2) ∧ ∀ x, (∀ p ∈ places, x ∉ area p) → m' x = m x := by
  obtain ⟨hcountWord, hmodules⟩ := holds_append.mp hpayload
  have hload : load m 4 a = BitVec.ofNat 32 places.length := by
    have h := hcountWord.load
    rwa [List.length_map] at h
  have hleft : (BitVec.ofNat 32 places.length).toNat = places.length := by
    rw [BitVec.toNat_ofNat]
    omega
  have hmodules : Holds m (a + 4) ((places.map Prod.snd).flatMap packed) := by
    simpa using hmodules
  have hbehind : span (a + 4) ((places.map Prod.snd).flatMap packed).length ⊆
      span a (payload (places.map Prod.snd)).length := by
    intro x hx
    exact mem_span_offset (i := 4) (by simp [payload]) hx
  have hloop := loadLoop_packed (i := 0) spare hmodules hsize rfl
    (fun p hp ↦ (happart p hp).mono_right hbehind) hplaces
  unfold loadModules readUint32
  rw [hload]
  simp only [hleft]
  exact hloop

end Load

section Image

variable {turns : ℕ} {kernel image code data : Contents} {l : Layout} {base : BitVec 64}

/-- What the packer writes is what the loader reads. -/
theorem loadModules_buildImage (places : List (BitVec 64 × Contents)) (spare : List (BitVec 64))
    (hturns : Enough turns (kernel :: places.map Prod.snd))
    (hcount : places.length < 2 ^ 32) (hsize : ∀ p ∈ places, p.2.length < 2 ^ 32)
    (happart : ∀ p ∈ places, Disjoint (area p)
      (span (base + BitVec.ofNat 64 kernel.length) (payload (places.map Prod.snd)).length))
    (hplaces : places.Pairwise fun p q ↦ Disjoint (area p) (area q)) :
    ∃ image, buildImage turns (kernel :: places.map Prod.snd) = some image ∧
      ∀ m, Holds m base image →
        ∃ m', loadModules m (base + BitVec.ofNat 64 kernel.length)
            (places.map Prod.fst ++ spare) = some m' ∧
          (∀ p ∈ places, Holds m' p.1 p.2) ∧ ∀ x, (∀ p ∈ places, x ∉ area p) → m' x = m x := by
  refine ⟨_, buildImage_eq hturns, fun m hm ↦ ?_⟩
  exact loadModules_payload spare (holds_append.mp hm).2 hcount hsize happart hplaces

theorem loadModules_buildImage_two :
    ∃ image, buildImage 2 [[1, 2, 3], [7, 8], [9]] = some image ∧
      ∀ m, Holds m 0x100000 image →
        ∃ m', loadModules m (0x100000 + BitVec.ofNat 64 3) [0x400000, 0x500000] = some m' ∧
          (∀ p ∈ [((0x400000 : BitVec 64), ([7, 8] : Contents)), (0x500000, [9])],
            Holds m' p.1 p.2) ∧
          ∀ x, (∀ p ∈ [((0x400000 : BitVec 64), ([7, 8] : Contents)), (0x500000, [9])],
            x ∉ area p) → m' x = m x := by
  refine loadModules_buildImage [(0x400000, [7, 8]), (0x500000, [9])] []
    (by simp [Enough, bufferSize]) (by simp) (by simp) ?_ ?_
  · simp only [List.forall_mem_cons, List.not_mem_nil, false_implies, implies_true, and_true]
    exact ⟨(disjoint_span (by decide) (by decide)).symm, (disjoint_span (by decide) (by decide)).symm⟩
  · simp only [List.pairwise_cons, List.mem_singleton, forall_eq, List.not_mem_nil, false_implies,
      implies_true, List.Pairwise.nil, and_true]
    exact disjoint_span (by decide) (by decide)

section Clear

variable {bss endOfKernel x : BitVec 64}

end Clear

/-- The linker script puts the bytes of the kernel's file at its address, the
zeroed data behind them, and the end of the kernel behind these. -/
structure Linked (l : Layout) (kernel : Contents) : Prop where
  binary : l.endOfKernelBinary = kernelAddress + BitVec.ofNat 64 kernel.length
  bss : l.endOfKernelBinary ≤ l.bss
  endOfKernel : l.bss ≤ l.endOfKernel

def modulePlaces (code data : Contents) : List (BitVec 64 × Contents) :=
  [(sampleCodeModuleAddress, code), (sampleDataModuleAddress, data)]

/-- The modules have room between the kernel and the heap. -/
structure Room (l : Layout) (kernel code data : Contents) : Prop where
  image : kernelAddress.toNat + (kernel ++ payload [code, data]).length ≤
    sampleCodeModuleAddress.toNat
  code : sampleCodeModuleAddress.toNat + code.length ≤ sampleDataModuleAddress.toNat
  data : sampleDataModuleAddress.toNat + data.length ≤ heapModuleAddress.toNat
  endOfKernel : l.endOfKernel ≤ sampleCodeModuleAddress

variable {p : BitVec 64 × Contents}

theorem Room.bounds (h : Room l kernel code data) (hp : p ∈ modulePlaces code data) :
    0x400000 ≤ p.1.toNat ∧ p.1.toNat + p.2.length ≤ 0x600000 := by
  obtain ⟨-, hcode, hdata, -⟩ := h
  rcases List.mem_cons.mp hp with rfl | hp
  · exact ⟨(by decide : 0x400000 ≤ sampleCodeModuleAddress.toNat), hcode.trans (by decide)⟩
  · rw [List.mem_singleton.mp hp]
    exact ⟨(by decide : 0x400000 ≤ sampleDataModuleAddress.toNat), hdata⟩

theorem Room.stackBase (h : Room l kernel code data) : l.endOfKernel < getStackBase l := by
  have hend := h.endOfKernel
  unfold sampleCodeModuleAddress at hend
  unfold getStackBase pageSize
  bv_omega

end Image

end ShellOS.Boot.ModuleLoader
