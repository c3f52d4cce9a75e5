import ShellOS.Asm.Processor
import ShellOS.Library.Copying

namespace ShellOS.Asm.Clock

open Library.Bytes Library.Copying Processor Cpu

section Parts

variable {v : Word} {b : BitVec 8} {w : BitVec 16}

def low8 (v : Word) : BitVec 8 := v.setWidth 8

def setLow8 (v : Word) (b : BitVec 8) : Word := BitVec.ofNat 64 (v.toNat - v.toNat % 2 ^ 8 + b.toNat)

def setLow16 (v : Word) (w : BitVec 16) : Word :=
  BitVec.ofNat 64 (v.toNat - v.toNat % 2 ^ 16 + w.toNat)

theorem toNat_low8 : (low8 v).toNat = v.toNat % 2 ^ 8 := BitVec.toNat_setWidth 8 v

theorem toNat_setLow8 : (setLow8 v b).toNat = v.toNat - v.toNat % 2 ^ 8 + b.toNat := by
  have hv := v.isLt
  have hb := b.isLt
  rw [setLow8, BitVec.toNat_ofNat]
  omega

theorem toNat_setLow16 : (setLow16 v w).toNat = v.toNat - v.toNat % 2 ^ 16 + w.toNat := by
  have hv := v.isLt
  have hw := w.isLt
  rw [setLow16, BitVec.toNat_ofNat]
  omega

theorem low8_setLow8 : low8 (setLow8 v b) = b := by
  have hb := b.isLt
  apply BitVec.eq_of_toNat_eq
  rw [toNat_low8, toNat_setLow8]
  omega

theorem setLow8_zero {b' : BitVec 8} : setLow8 (setLow8 0 b') b = b.setWidth 64 := by
  have hb := b.isLt
  have hb' := b'.isLt
  apply BitVec.eq_of_toNat_eq
  rw [toNat_setLow8, toNat_setLow8, BitVec.toNat_setWidth]
  change 0 - 0 % 2 ^ 8 + b'.toNat - _ + b.toNat = _
  omega

theorem low8_setLow16 : low8 (setLow16 v w) = w.setWidth 8 := by
  have hw := w.isLt
  apply BitVec.eq_of_toNat_eq
  rw [toNat_low8, toNat_setLow16, BitVec.toNat_setWidth]
  omega

end Parts

section Text

variable (c : Cpu)

def setRax (v : Word) : Cpu := { c with reg := { c.reg with rax := v } }

def setRbx (v : Word) : Cpu := { c with reg := { c.reg with rbx := v } }

def setRcx (v : Word) : Cpu := { c with reg := { c.reg with rcx := v } }

def setRdx (v : Word) : Cpu := { c with reg := { c.reg with rdx := v } }

def setRbp (v : Word) : Cpu := { c with reg := { c.reg with rbp := v } }

def setRdi (v : Word) : Cpu := { c with reg := { c.reg with rdi := v } }

def ret : Cpu := { c.pop.2 with rip := c.pop.1 }

def leave : Cpu :=
  let c := { c with rsp := c.reg.rbp }
  setRbp c.pop.2 c.pop.1

def bcdToDec : Cpu :=
  let c := setRdx c (setLow8 c.reg.rdx (low8 c.reg.rax)) -- mov dl, al
  let c := setRcx c (setLow8 c.reg.rcx (low8 c.reg.rdx)) -- mov cl, dl
  let c := setRcx c (setLow8 c.reg.rcx (low8 c.reg.rcx >>> 4)) -- shr cl, 4
  let c := setRax c (setLow8 c.reg.rax 10) -- mov al, 10
  let c := setRax c (setLow16 c.reg.rax -- mul cl
    ((low8 c.reg.rax).setWidth 16 * (low8 c.reg.rcx).setWidth 16))
  let c := setRdx c (setLow8 c.reg.rdx (low8 c.reg.rdx &&& 0x0F)) -- and dl, 0Fh
  let c := setRdx c (setLow8 c.reg.rdx (low8 c.reg.rdx + low8 c.reg.rax)) -- add dl, al
  let c := setRax c (setLow8 c.reg.rax (low8 c.reg.rdx)) -- mov al, dl
  ret c

/-- The registers of the clock at the moment of a read. -/
abbrev Cmos := BitVec 8 → BitVec 8

/-- `getRTC` up to the call of `BCDtoDec`. -/
def readRTC (clock : Cmos) : Cpu :=
  let c := c.push c.reg.rbp
  let c := setRbp c c.rsp
  let c := c.push c.reg.rbx
  let c := setRbx c (load c.mem 8 (c.reg.rbp + 24))
  let c := setRax c 0
  let c := setRax c (setLow8 c.reg.rax (load c.mem 1 (c.reg.rbp + 16)))
  setRax c (setLow8 c.reg.rax (clock (low8 c.reg.rax))) -- out 70h, al; in al, 71h

/-- `getRTC` behind the call of `BCDtoDec`. -/
def storeRTC : Cpu :=
  let c := { c with mem := store c.mem 4 c.reg.rbx (c.reg.rax.setWidth 32) }
  let c := setRbx c.pop.2 c.pop.1
  ret (leave c)

variable (back back' : Word)

def getRTC (clock : Cmos) : Cpu := storeRTC (bcdToDec ((readRTC c clock).push back'))

def getData (clock : Cmos) (i : Word) : Cpu :=
  let c := setRdi c (c.reg.rdi + 4)
  let c := (c.push c.reg.rdi).push i
  let c := getRTC (c.push back) back' clock
  { c with rsp := c.rsp + 16 }

end Text

/-- The registers that none of these routines is meant to change. -/
def others (r : Registers) : List Word :=
  [r.rbx, r.rbp, r.rsi, r.r8, r.r9, r.r10, r.r11, r.r12, r.r13, r.r14, r.r15]

def decimal (b : BitVec 8) : ℕ := 10 * (b.toNat / 16) + b.toNat % 16

variable {c k : Cpu} {clock : Cmos} {back back' : Word} {b : BitVec 8}

theorem bcdToDec_rax (h : c.reg.rax = b.setWidth 64) :
    (bcdToDec c).reg.rax = BitVec.ofNat 64 (decimal b) := by
  have hb := b.isLt
  have hrax : c.reg.rax.toNat = b.toNat := by
    rw [h, BitVec.toNat_setWidth]
    omega
  have hlow : low8 c.reg.rax = b := by
    apply BitVec.eq_of_toNat_eq
    rw [toNat_low8]
    omega
  have hhigh : (b >>> 4).toNat = b.toNat / 16 := by
    rw [BitVec.toNat_ushiftRight, Nat.shiftRight_eq_div_pow]
  have hdigit : (b &&& 0x0F).toNat = b.toNat % 16 := by
    rw [BitVec.toNat_and]
    exact Nat.and_two_pow_sub_one_eq_mod b.toNat 4
  let product : BitVec 16 := (10 : BitVec 8).setWidth 16 * (b >>> 4).setWidth 16
  have hproduct : product.toNat = 10 * (b.toNat / 16) := by
    rw [BitVec.toNat_mul, BitVec.toNat_setWidth, BitVec.toNat_setWidth, hhigh]
    change 10 % 2 ^ 16 * _ % _ = _
    omega
  have hvalue : (bcdToDec c).reg.rax = setLow8 (setLow16 (setLow8 c.reg.rax 10) product)
      ((b &&& 0x0F) + product.setWidth 8) := by
    simp only [bcdToDec, ret, pop, setRax, setRcx, setRdx, low8_setLow8, low8_setLow16, hlow]
    rfl
  have hten : (setLow8 c.reg.rax 10).toNat = 10 := by
    rw [toNat_setLow8, hrax, Nat.mod_eq_of_lt hb, Nat.sub_self, Nat.zero_add]
    rfl
  have htens : (setLow16 (setLow8 c.reg.rax 10) product).toNat = 10 * (b.toNat / 16) := by
    rw [toNat_setLow16, hten, hproduct]
    omega
  have hsum : ((b &&& 0x0F) + product.setWidth 8).toNat = decimal b := by
    rw [BitVec.toNat_add, BitVec.toNat_setWidth, hproduct, hdigit, decimal]
    omega
  have htop : b.toNat / 16 < 16 := by omega
  apply BitVec.eq_of_toNat_eq
  rw [hvalue, toNat_setLow8, htens, hsum, BitVec.toNat_ofNat, decimal,
    Nat.mod_eq_of_lt (by omega : 10 * (b.toNat / 16) < 2 ^ 8)]
  omega

section Data

variable {i x : Word} {us : List Word}

/-- The six words that `getData` has on the stack, the lowest one first. -/
def framed (c : Cpu) (i back back' : Word) : List Word :=
  [back', c.reg.rbx, c.reg.rbp, back, i, c.reg.rdi + 4]

def atBcdToDec (c : Cpu) (clock : Cmos) (i back back' : Word) : Cpu :=
  let c := setRdi c (c.reg.rdi + 4)
  (readRTC (((c.push c.reg.rdi).push i).push back) clock).push back'

theorem getData_eq : getData c back back' clock i =
    { storeRTC (bcdToDec (atBcdToDec c clock i back back')) with
      rsp := (storeRTC (bcdToDec (atBcdToDec c clock i back back'))).rsp + 16 } := rfl

theorem load_low {m : Memory} {a : Word} (h : load m 8 a = i) : load m 1 a = i.setWidth 8 := by
  apply eq_of_byte
  intro j hj
  rw [byte_load hj, ← byte_load (m := m) (by omega : j < 8), h, byte_setWidth _ (by omega)]

theorem readRTC_loads (c : Cpu) (i back : Word) :
    let m := (c.pushes [c.reg.rdi + 4, i, back, c.reg.rbp, c.reg.rbx]).mem
    load m 1 (c.rsp - 32 + 16) = i.setWidth 8 ∧ load m 8 (c.rsp - 32 + 24) = c.reg.rdi + 4 := by
  intro m
  let vs : List Word := [c.reg.rdi + 4, i, back, c.reg.rbp, c.reg.rbx]
  have hempty : Stacked c.mem c.rsp [] := trivial
  have hstacked : Stacked m (c.pushes vs).rsp (vs.reverse ++ []) :=
    pushes_stacked hempty (by decide : 8 * (5 + 0) ≤ 2 ^ 64)
  have hrsp : (c.pushes vs).rsp = c.rsp - 40 := pushes_rsp c vs
  rw [hrsp] at hstacked
  obtain ⟨-, -, -, hi, hrdi, -⟩ := hstacked
  have hi_place : c.rsp - 32 + 16 = c.rsp - 40 + 8 + 8 + 8 := by bv_omega
  have hrdi_place : c.rsp - 32 + 24 = c.rsp - 40 + 8 + 8 + 8 + 8 := by bv_omega
  rw [hi_place, hrdi_place]
  exact ⟨load_low hi, hrdi⟩

theorem atBcdToDec_stack (c : Cpu) (clock : Cmos) (i back back' : Word) :
    let k := atBcdToDec c clock i back back'
    k.rsp = c.rsp - 48 ∧ Stacked k.mem k.rsp (framed c i back back') ∧
      ∀ x ∉ span (c.rsp - 48) 48, k.mem x = c.mem x := by
  intro k
  let vs : List Word := [c.reg.rdi + 4, i, back, c.reg.rbp, c.reg.rbx, back']
  have hempty : Stacked c.mem c.rsp [] := trivial
  have hstacked : Stacked (c.pushes vs).mem (c.pushes vs).rsp (vs.reverse ++ []) :=
    pushes_stacked hempty (by decide : 8 * (6 + 0) ≤ 2 ^ 64)
  have hrsp : (c.pushes vs).rsp = c.rsp - 48 := pushes_rsp c vs
  have hlen : vs.length = 6 := rfl
  have houtside : ∀ x ∉ span (c.pushes vs).rsp 48, (c.pushes vs).mem x = c.mem x :=
    fun x hx ↦ pushes_outside (by rw [hlen]; decide) hx
  rw [hrsp] at houtside
  exact ⟨hrsp, hstacked, houtside⟩

theorem atBcdToDec_reg (c : Cpu) (clock : Cmos) (i back back' : Word) :
    let k := atBcdToDec c clock i back back'
    k.reg.rax = (clock (i.setWidth 8)).setWidth 64 ∧ k.reg.rbx = c.reg.rdi + 4 ∧
      k.reg.rbp = c.rsp - 32 ∧ k.reg.rdi = c.reg.rdi + 4 := by
  intro k
  obtain ⟨hi, hrdi⟩ := readRTC_loads c i back
  have hplace : c.rsp - 8 - 8 - 8 - 8 = c.rsp - 32 := by bv_omega
  let m := (c.pushes [c.reg.rdi + 4, i, back, c.reg.rbp, c.reg.rbx]).mem
  refine ⟨?_, ?_, hplace, rfl⟩
  · change setLow8 (setLow8 0 (load m 1 (c.rsp - 8 - 8 - 8 - 8 + 16)))
      (clock (low8 (setLow8 0 (load m 1 (c.rsp - 8 - 8 - 8 - 8 + 16))))) = _
    rw [hplace, hi, low8_setLow8]
    exact setLow8_zero
  · change load m 8 (c.rsp - 8 - 8 - 8 - 8 + 24) = _
    rw [hplace, hrdi]

/-- What `getRTC` does behind the conversion. -/
theorem storeRTC_spec {d : Cpu} {rbx rbp rip : Word} (hbp : d.reg.rbp = d.rsp + 8)
    (h : Stacked d.mem d.rsp (rbx :: rbp :: rip :: us)) (hlen : us.length = 2)
    (hapart : Disjoint (span d.reg.rbx 4) (span d.rsp 40)) :
    storeRTC d = { d with
      reg := { d.reg with rbx := rbx, rbp := rbp }
      rsp := d.rsp + 24
      rip := rip
      mem := store d.mem 4 d.reg.rbx (d.reg.rax.setWidth 32) } := by
  let m := store d.mem 4 d.reg.rbx (d.reg.rax.setWidth 32)
  have hwords : Stacked m d.rsp (rbx :: rbp :: rip :: us) := by
    refine h.congr ?_ (fun x hx ↦ store_outside (fun hx' ↦ ?_))
    · simp only [List.length_cons, hlen]
      decide
    · simp only [List.length_cons, hlen] at hx
      exact Set.disjoint_left.mp hapart hx' hx
  obtain ⟨hrbx, hrbp, hrip, -⟩ := hwords
  have hrsp : d.rsp + 8 + 8 + 8 = d.rsp + 24 := by bv_omega
  simp only [storeRTC, ret, leave, pop, setRbx, setRbp, hbp]
  rw [hrbx, hrbp, hrip, hrsp]

theorem getData_spec (hapart : Disjoint (span (c.reg.rdi + 4) 4) (span (c.rsp - 48) 48)) :
    let k := getData c back back' clock i
    k.rsp = c.rsp ∧ k.reg.rdi = c.reg.rdi + 4 ∧ others k.reg = others c.reg ∧
      load k.mem 4 (c.reg.rdi + 4) = BitVec.ofNat 32 (decimal (clock (i.setWidth 8))) ∧
      ∀ x ∉ span (c.reg.rdi + 4) 4, x ∉ span (c.rsp - 48) 48 → k.mem x = c.mem x := by
  intro k
  obtain ⟨hrsp, ⟨-, hstacked⟩, houtside⟩ := atBcdToDec_stack c clock i back back'
  obtain ⟨hrax, hrbx, hrbp, hrdi⟩ := atBcdToDec_reg c clock i back back'
  let d := bcdToDec (atBcdToDec c clock i back back')
  have hd : d.rsp = c.rsp - 40 := by
    change (atBcdToDec c clock i back back').rsp + 8 = _
    rw [hrsp]
    bv_omega
  have hvalue : d.reg.rax = BitVec.ofNat 64 (decimal (clock (i.setWidth 8))) := bcdToDec_rax hrax
  have hinside : ∀ x ∈ span d.rsp 40, x ∈ span (c.rsp - 48) 48 := by
    intro x hx
    have hx : (x - d.rsp).toNat < 40 := hx
    change (x - (c.rsp - 48)).toNat < 48
    rw [hd] at hx
    bv_omega
  have hbp : d.reg.rbp = d.rsp + 8 := by
    rw [hd]
    change (atBcdToDec c clock i back back').reg.rbp = _
    rw [hrbp]
    bv_omega
  have hdrbx : d.reg.rbx = c.reg.rdi + 4 := hrbx
  have hspec := storeRTC_spec (d := d) hbp hstacked rfl
    (by rw [hdrbx]; exact hapart.mono_right hinside)
  have hk : k = _ := getData_eq.trans (congrArg (fun e : Cpu ↦ { e with rsp := e.rsp + 16 }) hspec)
  rw [hk]
  refine ⟨?_, hrdi, rfl, ?_, fun x hx hx' ↦ ?_⟩
  · change d.rsp + 24 + 16 = _
    rw [hd]
    bv_omega
  · change load (store d.mem 4 d.reg.rbx (d.reg.rax.setWidth 32)) 4 (c.reg.rdi + 4) = _
    rw [hdrbx, load_store (by decide), hvalue]
    exact BitVec.setWidth_ofNat_of_le (by decide) _
  · change store d.mem 4 d.reg.rbx (d.reg.rax.setWidth 32) x = _
    rw [hdrbx, store_outside hx]
    exact houtside x hx'

end Data

section Time

/-- A use of `getData`, with the address behind its call and what the clock
holds then. -/
structure Access where
  back : Word
  clock : Cmos
  register : Word

def Access.value (p : Access) : BitVec 32 :=
  BitVec.ofNat 32 (decimal (p.clock (p.register.setWidth 8)))

def getAll (back' : Word) (c : Cpu) (reads : List Access) : Cpu :=
  reads.foldl (fun c p ↦ getData c p.back back' p.clock p.register) c

variable {reads : List Access}

theorem getAll_spec (back' : Word) (hn : reads.length ≤ 2 ^ 60)
    (hapart : Disjoint (span (c.reg.rdi + 4) (4 * reads.length)) (span (c.rsp - 48) 48)) :
    let k := getAll back' c reads
    k.rsp = c.rsp ∧ others k.reg = others c.reg ∧
      (∀ j p, reads[j]? = some p → load k.mem 4 (c.reg.rdi + 4 + BitVec.ofNat 64 (4 * j)) =
        p.value) ∧
      ∀ x ∉ span (c.reg.rdi + 4) (4 * reads.length), x ∉ span (c.rsp - 48) 48 → k.mem x = c.mem x := by
  induction reads generalizing c with
  | nil =>
    refine ⟨rfl, rfl, fun j p hp ↦ ?_, fun x _ _ ↦ rfl⟩
    rw [List.getElem?_nil] at hp
    cases hp
  | cons p reads ih =>
    intro k
    rw [List.length_cons] at hn hapart ⊢
    let a := c.reg.rdi + 4
    let c' := getData c p.back back' p.clock p.register
    have hfirst : ∀ x ∈ span a 4, x ∈ span a (4 * (reads.length + 1)) := by
      intro x hx
      have hx : (x - a).toNat < 4 := hx
      change (x - a).toNat < 4 * (reads.length + 1)
      omega
    have hrest : ∀ x ∈ span (a + 4) (4 * reads.length),
        x ∈ span a (4 * (reads.length + 1)) ∧ x ∉ span a 4 := by
      intro x hx
      have hx : (x - (a + 4)).toNat < 4 * reads.length := hx
      constructor
      · change (x - a).toNat < 4 * (reads.length + 1)
        bv_omega
      · change ¬ (x - a).toNat < 4
        bv_omega
    obtain ⟨hrsp, hrdi, hreg, hload, hout⟩ : _ ∧ _ ∧ _ ∧ _ ∧ _ :=
      getData_spec (hapart.mono_left hfirst)
    have hlater : Disjoint (span (c'.reg.rdi + 4) (4 * reads.length)) (span (c'.rsp - 48) 48) := by
      rw [hrdi, hrsp]
      exact hapart.mono_left fun x hx ↦ (hrest x hx).1
    obtain ⟨hrsp', hreg', hload', hout'⟩ := ih (by omega) hlater
    rw [hrdi, hrsp] at hout'
    rw [hrdi] at hload'
    refine ⟨hrsp'.trans hrsp, hreg'.trans hreg, fun j q hq ↦ ?_, fun x hx hx' ↦ ?_⟩
    · cases j with
      | zero =>
        obtain rfl : p = q := by simpa using hq
        have hkept : load k.mem 4 a = load c'.mem 4 a := by
          rw [load_eq_iff]
          intro x hx
          refine hout' x (fun hx' ↦ (hrest x hx').2 hx) (fun hx' ↦ ?_)
          exact Set.disjoint_left.mp hapart (hfirst x hx) hx'
        rw [Nat.mul_zero, Access.value, ← hload, ← hkept]
        exact congrArg (load k.mem 4) (BitVec.add_zero a)
      | succ j =>
        have hplace : a + BitVec.ofNat 64 (4 * (j + 1)) = a + 4 + BitVec.ofNat 64 (4 * j) := by
          bv_omega
        rw [hplace]
        exact hload' j q (by simpa using hq)
    · have hx₁ : x ∉ span (a + 4) (4 * reads.length) := fun hmem ↦ hx (hrest x hmem).1
      exact (hout' x hx₁ hx').trans (hout x (fun hmem ↦ hx (hfirst x hmem)) hx')

def getTimeRTC (back : ℕ → Word) (back' : Word) (clock : ℕ → Cmos) (c : Cpu) : Cpu :=
  let c := c.push c.reg.rbp
  let c := setRbp c c.rsp
  let c := setRdi c (c.reg.rdi - 4)
  let c := getData c (back 0) back' (clock 0) 4
  let c := getData c (back 1) back' (clock 1) 2
  let c := getData c (back 2) back' (clock 2) 0
  let c := getData c (back 3) back' (clock 3) 7
  let c := getData c (back 4) back' (clock 4) 8
  let c := getData c (back 5) back' (clock 5) 9
  ret (leave c)

structure Time where
  hour : BitVec 32
  minutes : BitVec 32
  seconds : BitVec 32
  day : BitVec 32
  month : BitVec 32
  year : BitVec 32
  deriving DecidableEq

def time (m : Memory) (a : Word) : Time :=
  ⟨load m 4 a, load m 4 (a + 4), load m 4 (a + 8), load m 4 (a + 12), load m 4 (a + 16),
    load m 4 (a + 20)⟩

def bcd (n : ℕ) : BitVec 8 := BitVec.ofNat 8 (16 * (n / 10) + n % 10)

theorem decimal_bcd {n : ℕ} (hn : n < 100) : decimal (bcd n) = n := by
  rw [decimal, bcd, BitVec.toNat_ofNat]
  omega

/-- The registers of the clock in the order of the struct. -/
def accesses (back : ℕ → Word) (clock : ℕ → Cmos) : List Access :=
  [⟨back 0, clock 0, 4⟩, ⟨back 1, clock 1, 2⟩, ⟨back 2, clock 2, 0⟩, ⟨back 3, clock 3, 7⟩,
    ⟨back 4, clock 4, 8⟩, ⟨back 5, clock 5, 9⟩]

def started (c : Cpu) : Cpu :=
  let c := c.push c.reg.rbp
  let c := setRbp c c.rsp
  setRdi c (c.reg.rdi - 4)

theorem getTimeRTC_eq (back : ℕ → Word) (clock : ℕ → Cmos) :
    getTimeRTC back back' clock c = ret (leave (getAll back' (started c) (accesses back clock))) :=
  rfl

theorem leave_spec {e : Cpu} (hrbp : e.reg.rbp = c.rsp - 8)
    (habove : ∀ x ∈ span (c.rsp - 8) 16, e.mem x = (c.push c.reg.rbp).mem x) :
    ret (leave e) = { e with
      reg := { e.reg with rbp := c.reg.rbp }, rsp := c.rsp + 8, rip := load c.mem 8 c.rsp } := by
  have hplace : c.rsp - 8 + 8 = c.rsp := by bv_omega
  have hold : load e.mem 8 (c.rsp - 8) = c.reg.rbp := by
    have hkept : load e.mem 8 (c.rsp - 8) = load (c.push c.reg.rbp).mem 8 (c.rsp - 8) := by
      rw [load_eq_iff]
      intro x hx
      have hx : (x - (c.rsp - 8)).toNat < 8 := hx
      refine habove x ?_
      change (x - (c.rsp - 8)).toNat < 16
      omega
    exact hkept.trans (load_store (by decide))
  have hback : load e.mem 8 c.rsp = load c.mem 8 c.rsp := by
    rw [load_eq_iff]
    intro x hx
    have hx : (x - c.rsp).toNat < 8 := hx
    have hmem : x ∈ span (c.rsp - 8) 16 ∧ x ∉ span (c.rsp - 8) 8 := by
      constructor
      · change (x - (c.rsp - 8)).toNat < 16
        bv_omega
      · change ¬ (x - (c.rsp - 8)).toNat < 8
        bv_omega
    exact (habove x hmem.1).trans (store_outside hmem.2)
  simp only [ret, leave, pop, setRbp, hrbp, hplace, hold, hback]

theorem getTimeRTC_spec (back : ℕ → Word) (back' : Word) (clock : ℕ → Cmos)
    (hapart : Disjoint (span c.reg.rdi 24) (span (c.rsp - 56) 64)) :
    let k := getTimeRTC back back' clock c
    (k.rsp = c.rsp + 8 ∧ k.rip = load c.mem 8 c.rsp ∧ others k.reg = others c.reg) ∧
      (∀ j p, (accesses back clock)[j]? = some p →
        load k.mem 4 (c.reg.rdi + BitVec.ofNat 64 (4 * j)) = p.value) ∧
      ∀ x ∉ span c.reg.rdi 24, x ∉ span (c.rsp - 56) 56 → k.mem x = c.mem x := by
  intro k
  let d := started c
  have hrdi : d.reg.rdi + 4 = c.reg.rdi := by
    change c.reg.rdi - 4 + 4 = c.reg.rdi
    bv_omega
  have hlow : d.rsp - 48 = c.rsp - 56 := by
    change c.rsp - 8 - 48 = c.rsp - 56
    bv_omega
  have hpart : ∀ x ∈ span (c.rsp - 56) 48, x ∈ span (c.rsp - 56) 64 := by
    intro x hx
    have hx : (x - (c.rsp - 56)).toNat < 48 := hx
    change (x - (c.rsp - 56)).toNat < 64
    omega
  have hlen : (accesses back clock).length = 6 := rfl
  have hdata : Disjoint (span (d.reg.rdi + 4) (4 * (accesses back clock).length))
      (span (d.rsp - 48) 48) := by
    rw [hrdi, hlow, hlen]
    exact hapart.mono_right hpart
  obtain ⟨hrsp, hothers, hload, hout⟩ : _ ∧ _ ∧ _ ∧ _ :=
    getAll_spec back' (by rw [hlen]; decide) hdata
  rw [hrdi] at hload
  rw [hrdi, hlow, hlen] at hout
  have hk : k = ret (leave (getAll back' d (accesses back clock))) := getTimeRTC_eq back clock
  generalize getAll back' d (accesses back clock) = e at hrsp hothers hload hout hk
  simp only [others, List.cons.injEq] at hothers
  obtain ⟨hrbx, hrbp, hrest⟩ := hothers
  have habove : ∀ x ∈ span (c.rsp - 8) 16, e.mem x = d.mem x := by
    intro x hx
    have hx : (x - (c.rsp - 8)).toNat < 16 := hx
    have hmem : (x - (c.rsp - 56)).toNat < 64 ∧ ¬ (x - (c.rsp - 56)).toNat < 48 := by
      constructor
      · bv_omega
      · bv_omega
    exact hout x (fun hx' ↦ Set.disjoint_left.mp hapart hx' hmem.1) hmem.2
  rw [leave_spec hrbp habove] at hk
  rw [hk]
  refine ⟨⟨rfl, rfl, ?_⟩, hload, fun x hx hx' ↦ ?_⟩
  · simp only [others, List.cons.injEq]
    exact ⟨hrbx, trivial, hrest⟩
  · have hx' : ¬ (x - (c.rsp - 56)).toNat < 56 := hx'
    have hlow : x ∉ span (c.rsp - 56) 48 := by
      change ¬ (x - (c.rsp - 56)).toNat < 48
      omega
    have hpushed : x ∉ span (c.rsp - 8) 8 := by
      change ¬ (x - (c.rsp - 8)).toNat < 8
      bv_omega
    exact (hout x hx hlow).trans (store_outside hpushed)

/-- The clock shows a time of day: each register has its number when it is read. -/
structure Shows (clock : ℕ → Cmos) (t : Time) : Prop where
  hour : clock 0 4 = bcd t.hour.toNat
  minutes : clock 1 2 = bcd t.minutes.toNat
  seconds : clock 2 0 = bcd t.seconds.toNat
  day : clock 3 7 = bcd t.day.toNat
  month : clock 4 8 = bcd t.month.toNat
  year : clock 5 9 = bcd t.year.toNat

def Time.members (t : Time) : List (BitVec 32) :=
  [t.hour, t.minutes, t.seconds, t.day, t.month, t.year]

/-- `getTimeRTC` leaves the time that the clock shows in the struct, and gives
back its caller's stack and registers. -/
theorem getTimeRTC_time {t : Time} {clock : ℕ → Cmos} (back : ℕ → Word) (hshows : Shows clock t)
    (ht : ∀ v ∈ t.members, v.toNat < 100)
    (hapart : Disjoint (span c.reg.rdi 24) (span (c.rsp - 56) 64)) :
    let k := getTimeRTC back back' clock c
    time k.mem c.reg.rdi = t ∧
      (k.rsp = c.rsp + 8 ∧ k.rip = load c.mem 8 c.rsp ∧ others k.reg = others c.reg) ∧
      ∀ x ∉ span c.reg.rdi 24, x ∉ span (c.rsp - 56) 56 → k.mem x = c.mem x := by
  intro k
  obtain ⟨hreturn, hload, hout⟩ : _ ∧ _ ∧ _ := getTimeRTC_spec back back' clock hapart
  refine ⟨?_, hreturn, hout⟩
  have hfield : ∀ (v : BitVec 32) (j : ℕ) (p : Access), v ∈ t.members →
      (accesses back clock)[j]? = some p → p.clock (p.register.setWidth 8) = bcd v.toNat →
      load k.mem 4 (c.reg.rdi + BitVec.ofNat 64 (4 * j)) = v := by
    intro v j p hv hp hclock
    rw [hload j p hp, Access.value, hclock, decimal_bcd (ht v hv), BitVec.ofNat_toNat,
      BitVec.setWidth_eq]
  have hhour := hfield t.hour 0 _ (by simp [Time.members]) rfl hshows.hour
  rw [Nat.mul_zero, BitVec.add_zero] at hhour
  have hminutes := hfield t.minutes 1 _ (by simp [Time.members]) rfl hshows.minutes
  have hseconds := hfield t.seconds 2 _ (by simp [Time.members]) rfl hshows.seconds
  have hday := hfield t.day 3 _ (by simp [Time.members]) rfl hshows.day
  have hmonth := hfield t.month 4 _ (by simp [Time.members]) rfl hshows.month
  have hyear := hfield t.year 5 _ (by simp [Time.members]) rfl hshows.year
  rw [time, hhour]
  exact congr (congr (congr (congr (congrArg (Time.mk t.hour) hminutes) hseconds) hday) hmonth) hyear

def asking : Cpu :=
  ⟨⟨0, 1, 0, 0, 2, 0x8000, 0, 0, 0, 0, 0, 0, 0, 0, 0⟩, 0x9000, 0x3000, 0x202, 8, 0, fun _ ↦ 0⟩

def halfPastTen : Time := ⟨10, 30, 59, 19, 11, 21⟩

theorem getTimeRTC_time_halfPastTen :
    let clock : Cmos := fun r ↦ if r = 4 then 0x10 else if r = 2 then 0x30 else if r = 0 then 0x59
      else if r = 7 then 0x19 else if r = 8 then 0x11 else 0x21
    time (getTimeRTC (fun _ ↦ 0x3000) 0x3100 (fun _ ↦ clock) asking).mem 0x8000 = halfPastTen := by
  intro clock
  have hshows : Shows (fun _ ↦ clock) halfPastTen := ⟨rfl, rfl, rfl, rfl, rfl, rfl⟩
  have happart : Disjoint (span asking.reg.rdi 24) (span (asking.rsp - 56) 64) := by
    rw [Set.disjoint_left]
    intro x hx hx'
    have hx : (x - 0x8000).toNat < 24 := hx
    have hx' : (x - (0x9000 - 56)).toNat < 64 := hx'
    bv_omega
  have hsmall : ∀ v ∈ halfPastTen.members, v.toNat < 100 := by simp [Time.members, halfPastTen]
  exact (getTimeRTC_time _ hshows hsmall happart).1

end Time

end ShellOS.Asm.Clock
