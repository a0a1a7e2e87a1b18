import Mathlib.Logic.Relation
import Mathlib.Algebra.Group.Int.Defs
import AiOsoc.Machine

/-!
# Assembly with labels

A routine is a list of lines. The assembler turns each jump to a label into its
distance, and the routine runs from wherever it is loaded. A routine that only
works on registers is described by the line it is at and the register values.
-/

namespace Rv32e.Asm

set_option autoImplicit false

open Relation ByteMemory

inductive Line (Label : Type) where
  | label (l : Label)
  | instr (i : Instr)
  | branch (cond : Cond) (rs1 rs2 : Reg) (l : Label)
  | jump (rd : Reg) (l : Label)
  deriving Repr, DecidableEq

section Assembler
variable {Label : Type} [DecidableEq Label]

/-- The number of instructions before a label. -/
def position (l : Label) : List (Line Label) → Nat
  | [] => 0
  | .label l' :: ls => if l' = l then 0 else position l ls
  | _ :: ls => position l ls + 1

/-- The distance from the instruction `k` to the instruction `n`. -/
def distance (k n : Nat) : Int := 4 * ((n : Int) - k)

/-- The instructions of the lines from the instruction `k` on. -/
def assembleFrom (target : Label → Nat) (k : Nat) : List (Line Label) → List Instr
  | [] => []
  | .label _ :: ls => assembleFrom target k ls
  | .instr i :: ls => i :: assembleFrom target (k + 1) ls
  | .branch cond rs1 rs2 l :: ls =>
    .branch cond rs1 rs2 (.ofInt 13 (distance k (target l))) :: assembleFrom target (k + 1) ls
  | .jump rd l :: ls =>
    .jal rd (.ofInt 21 (distance k (target l))) :: assembleFrom target (k + 1) ls

def assemble (ls : List (Line Label)) : List Instr := assembleFrom (position · ls) 0 ls

end Assembler

/-! ## Registers and pseudo-instructions -/

def ra : Reg := 1#5
def t0 : Reg := 5#5
def a0 : Reg := 10#5
def a1 : Reg := 11#5
def a2 : Reg := 12#5
def a3 : Reg := 13#5

def neg (rd rs : Reg) : Instr := .op .sub rd 0#5 rs
def jr (rs : Reg) : Instr := .jalr 0#5 rs 0#12
def ret : Instr := jr ra

namespace Line
variable {Label : Type} (rs rt : Reg) (l : Label)

def beqz : Line Label := .branch .eq rs 0#5 l
def bnez : Line Label := .branch .ne rs 0#5 l
def bltz : Line Label := .branch .lt rs 0#5 l
def bgez : Line Label := .branch .ge rs 0#5 l
def bgtz : Line Label := .branch .lt 0#5 rs l
def blez : Line Label := .branch .ge 0#5 rs l
def bltu : Line Label := .branch .ltu rs rt l
def bgeu : Line Label := .branch .geu rs rt l
def bgtu : Line Label := .branch .ltu rt rs l

/-- A call within reach of one `jal`, as the linker leaves it. -/
def call : Line Label := .jump ra l

def j : Line Label := .jump 0#5 l

end Line

/-! ## Runs of a routine -/

/-- A routine in memory, with its first instruction at `base`. -/
structure Image where
  base : BitVec 32
  code : List Instr
  aligned : base.toNat % 4 = 0

namespace Image
variable (im : Image)

def address (k : Nat) : BitVec 32 := im.base + BitVec.ofNat 32 (4 * k)

/-- One instruction of the routine, without an exception. -/
def Next (h h' : Hart) : Prop :=
  ∃ k i, h.pc = im.address k ∧ im.code[k]? = some i ∧ (h.effect i).trap = none ∧ h' = h.step i

def Leads : Hart → Hart → Prop := ReflTransGen im.Next

/-- The hart at line `k` with the register values `x`. -/
def point (h : Hart) (k : Nat) (x : Reg → BitVec 32) : Hart :=
  { h with x := x, pc := im.address k }

theorem address_succ (k : Nat) : im.address k + 4#32 = im.address (k + 1) := by
  rw [address, address, BitVec.add_assoc, ← BitVec.ofNat_add, Nat.mul_succ]

theorem address_aligned (k : Nat) : (im.address k).toNat % 4 = 0 := by
  have h := im.aligned
  simp only [address, BitVec.toNat_add, BitVec.toNat_ofNat]
  omega

theorem address_distance (k n : Nat) :
    im.address k + BitVec.ofInt 32 (distance k n) = im.address n := by
  have hint : ∀ m : Nat, BitVec.ofNat 32 (4 * m) = BitVec.ofInt 32 (4 * (m : Int)) := by
    intro m
    rw [← BitVec.ofInt_natCast]
    rfl
  have hsum : 4 * (k : Int) + distance k n = 4 * (n : Int) := by
    rw [distance]
    omega
  rw [address, address, BitVec.add_assoc, hint, hint, ← BitVec.ofInt_add, hsum]

end Image

/-- A distance that fits its field comes back from it. -/
theorem signExtend_ofInt {w : Nat} {d : Int} (hw : 0 < w) (hlo : -2 ^ (w - 1) ≤ d)
    (hhi : d < 2 ^ (w - 1)) : (BitVec.ofInt w d).signExtend 32 = BitVec.ofInt 32 d := by
  rw [BitVec.signExtend, BitVec.toInt_ofInt_eq_self hw hlo hhi]

/-- What an instruction without an exception and without a store does. -/
theorem step_complete {h : Hart} {i : Instr} {pc : BitVec 32} {rd : Reg} {v : BitVec 32}
    (he : h.effect i = .complete h.csrs pc (setReg rd v)) :
    h.step i = { h with x := if rd = 0#5 then h.x else Function.update h.x rd v, pc := pc } := by
  by_cases hrd : rd = 0#5
  · simp only [Hart.step, he, Effect.complete, setReg, if_pos hrd]
  · simp only [Hart.step, he, Effect.complete, setReg, if_neg hrd]

namespace Image
variable {im : Image} {h g : Hart} {k n : Nat} {x y : Reg → BitVec 32} {rd rs1 rs2 : Reg}
  {v pc : BitVec 32} {i : Instr}

theorem Leads.trans {h₁ h₂ h₃ : Hart} (h₁₂ : im.Leads h₁ h₂) (h₂₃ : im.Leads h₂ h₃) :
    im.Leads h₁ h₃ := ReflTransGen.trans h₁₂ h₂₃

theorem Leads.silent (hk : im.code[k]? = some i)
    (he : (im.point h k x).effect i = .complete h.csrs pc (setReg 0#5 v))
    (rest : im.Leads { h with x := x, pc := pc } g) : im.Leads (im.point h k x) g :=
  .head ⟨k, i, rfl, hk, by rw [he]; rfl, (step_complete he).symm⟩ rest

theorem Leads.write (hk : im.code[k]? = some i)
    (he : (im.point h k x).effect i = .complete h.csrs pc (setReg rd v)) (hrd : rd ≠ 0#5)
    (hy : Function.update x rd v = y) (rest : im.Leads { h with x := y, pc := pc } g) :
    im.Leads (im.point h k x) g := by
  refine .head ⟨k, i, rfl, hk, by rw [he]; rfl, ?_⟩ rest
  rw [step_complete he, if_neg hrd, ← hy]
  rfl

theorem Leads.alu (hk : im.code[k]? = some i)
    (he : exec x (im.address k) h.csrs ⟨false, h.mem⟩ i =
      .complete h.csrs (im.address k + 4#32) (setReg rd v))
    (hrd : rd ≠ 0#5) (hy : Function.update x rd v = y)
    (rest : im.Leads (im.point h (k + 1) y) g) : im.Leads (im.point h k x) g := by
  rw [im.address_succ] at he
  exact .write hk he hrd hy rest

section Lines
variable {f : Alu} {imm : BitVec 12} {shamt : BitVec 5} {cond : Cond}

theorem Leads.op (hk : im.code[k]? = some (.op f rd rs1 rs2)) (hrd : rd ≠ 0#5)
    (hv : f.eval (x rs1) (x rs2) = v) (hy : Function.update x rd v = y)
    (rest : im.Leads (im.point h (k + 1) y) g) : im.Leads (im.point h k x) g :=
  .alu hk (by rw [← hv]; rfl) hrd hy rest

theorem Leads.opImm (hk : im.code[k]? = some (.opImm f rd rs1 imm)) (hrd : rd ≠ 0#5)
    (hv : f.eval (x rs1) (imm.signExtend 32) = v) (hy : Function.update x rd v = y)
    (rest : im.Leads (im.point h (k + 1) y) g) : im.Leads (im.point h k x) g :=
  .alu hk (by rw [← hv]; rfl) hrd hy rest

theorem Leads.mv (hk : im.code[k]? = some (mv rd rs1)) (hrd : rd ≠ 0#5)
    (hy : Function.update x rd (x rs1) = y) (rest : im.Leads (im.point h (k + 1) y) g) :
    im.Leads (im.point h k x) g :=
  .opImm hk hrd (BitVec.add_zero (x rs1)) hy rest

theorem Leads.li (hk : im.code[k]? = some (li rd imm)) (hrd : rd ≠ 0#5) (hx : x 0#5 = 0#32)
    (hy : Function.update x rd (imm.signExtend 32) = y)
    (rest : im.Leads (im.point h (k + 1) y) g) : im.Leads (im.point h k x) g := by
  have hv : x 0#5 + imm.signExtend 32 = imm.signExtend 32 := by rw [hx, BitVec.zero_add]
  exact .opImm hk hrd hv hy rest

theorem Leads.neg (hk : im.code[k]? = some (neg rd rs1)) (hrd : rd ≠ 0#5) (hx : x 0#5 = 0#32)
    (hy : Function.update x rd (-x rs1) = y) (rest : im.Leads (im.point h (k + 1) y) g) :
    im.Leads (im.point h k x) g := by
  have hv : x 0#5 - x rs1 = -x rs1 := by rw [hx, BitVec.zero_sub]
  exact .op hk hrd hv hy rest

theorem Leads.shiftImm (hk : im.code[k]? = some (.shiftImm f rd rs1 shamt)) (hrd : rd ≠ 0#5)
    (hv : f.eval (x rs1) (shamt.setWidth 32) = v) (hy : Function.update x rd v = y)
    (rest : im.Leads (im.point h (k + 1) y) g) : im.Leads (im.point h k x) g :=
  .alu hk (by rw [← hv]; rfl) hrd hy rest

theorem Leads.taken (hk : im.code[k]? = some (.branch cond rs1 rs2 (.ofInt 13 (distance k n))))
    (hn : -2 ^ 12 ≤ distance k n ∧ distance k n < 2 ^ 12)
    (hc : cond.holds (x rs1) (x rs2) = true)
    (rest : im.Leads (im.point h n x) g) : im.Leads (im.point h k x) g := by
  have htarget : im.address k + (BitVec.ofInt 13 (distance k n)).signExtend 32 = im.address n := by
    rw [signExtend_ofInt (by decide) hn.1 hn.2, im.address_distance]
  refine .silent hk (v := 0#32) ?_ rest
  simp only [Hart.effect, exec, point, hc, if_true, htarget, goto, im.address_aligned, setReg]

theorem Leads.fallThrough {off : BitVec 13} (hk : im.code[k]? = some (.branch cond rs1 rs2 off))
    (hc : cond.holds (x rs1) (x rs2) = false)
    (rest : im.Leads (im.point h (k + 1) x) g) : im.Leads (im.point h k x) g := by
  refine .silent hk (v := 0#32) ?_ rest
  simp only [Hart.effect, exec, point, hc, im.address_succ, Bool.false_eq_true, if_false, setReg,
    if_true]

theorem jal_effect (hn : -2 ^ 20 ≤ distance k n ∧ distance k n < 2 ^ 20) :
    (im.point h k x).effect (.jal rd (.ofInt 21 (distance k n))) =
      .complete h.csrs (im.address n) (setReg rd (im.address (k + 1))) := by
  have htarget : im.address k + (BitVec.ofInt 21 (distance k n)).signExtend 32 = im.address n := by
    rw [signExtend_ofInt (by decide) hn.1 hn.2, im.address_distance]
  simp only [Hart.effect, exec, point, htarget, goto, im.address_aligned, im.address_succ, if_true]

theorem Leads.jump (hk : im.code[k]? = some (.jal 0#5 (.ofInt 21 (distance k n))))
    (hn : -2 ^ 20 ≤ distance k n ∧ distance k n < 2 ^ 20)
    (rest : im.Leads (im.point h n x) g) : im.Leads (im.point h k x) g :=
  .silent hk (jal_effect hn) rest

theorem Leads.call (hk : im.code[k]? = some (.jal rd (.ofInt 21 (distance k n))))
    (hn : -2 ^ 20 ≤ distance k n ∧ distance k n < 2 ^ 20) (hrd : rd ≠ 0#5)
    (hy : Function.update x rd (im.address (k + 1)) = y)
    (rest : im.Leads (im.point h n y) g) : im.Leads (im.point h k x) g :=
  .write hk (jal_effect hn) hrd hy rest

/-- The jump to an address in a register. -/
theorem Leads.jr (hk : im.code[k]? = some (jr rs1)) (ha : (x rs1).toNat % 4 = 0)
    (rest : im.Leads { h with x := x, pc := x rs1 } g) : im.Leads (im.point h k x) g := by
  have htarget : (x rs1 + (0#12).signExtend 32) &&& ~~~1#32 = x rs1 := by
    have h0 : x rs1 + (0#12).signExtend 32 = x rs1 := BitVec.add_zero _
    rw [h0, ← and_not_three ha, BitVec.and_assoc]
    rfl
  refine .silent hk (v := 0#32) ?_ rest
  simp only [Hart.effect, Asm.jr, exec, point, htarget, goto, ha, if_true, setReg]

end Lines

end Image

/-! ## A window of working registers -/

/-- The values of `a0` to `a3`, the registers a leaf routine computes in. -/
structure Window where
  a0 : BitVec 32
  a1 : BitVec 32
  a2 : BitVec 32
  a3 : BitVec 32

namespace Window
variable (w : Window) (x : Reg → BitVec 32) (v : BitVec 32)

/-- The register values with the window in place. -/
def fill : Reg → BitVec 32 := fun r =>
  if r = 10#5 then w.a0 else if r = 11#5 then w.a1 else if r = 12#5 then w.a2
  else if r = 13#5 then w.a3 else x r

theorem set_a0 : Function.update (w.fill x) Asm.a0 v = { w with a0 := v }.fill x := by
  funext r
  simp only [Function.update_apply, fill, Asm.a0]
  split <;> rfl

theorem set_a1 : Function.update (w.fill x) Asm.a1 v = { w with a1 := v }.fill x := by
  funext r
  simp only [Function.update_apply, fill, Asm.a1]
  grind

theorem set_a2 : Function.update (w.fill x) Asm.a2 v = { w with a2 := v }.fill x := by
  funext r
  simp only [Function.update_apply, fill, Asm.a2]
  grind

theorem set_a3 : Function.update (w.fill x) Asm.a3 v = { w with a3 := v }.fill x := by
  funext r
  simp only [Function.update_apply, fill, Asm.a3]
  grind

/-- A register outside the window. -/
theorem set_outside {r : Reg} (hr : r ≠ 10#5 ∧ r ≠ 11#5 ∧ r ≠ 12#5 ∧ r ≠ 13#5) :
    Function.update (w.fill x) r v = w.fill (Function.update x r v) := by
  funext q
  simp only [Function.update_apply, fill]
  grind

theorem fill_outside {r : Reg} (hr : r ≠ 10#5 ∧ r ≠ 11#5 ∧ r ≠ 12#5 ∧ r ≠ 13#5) :
    w.fill x r = x r := by
  rw [fill, if_neg hr.1, if_neg hr.2.1, if_neg hr.2.2.1, if_neg hr.2.2.2]

/-- Every set of register values has its window. -/
theorem fill_self : (Window.mk (x Asm.a0) (x Asm.a1) (x Asm.a2) (x Asm.a3)).fill x = x := by
  funext r
  simp only [fill, Asm.a0, Asm.a1, Asm.a2, Asm.a3]
  grind

end Window

/-- The hart at line `k` with a window of working registers. -/
def Image.inWindow (im : Image) (h : Hart) (x : Reg → BitVec 32) (k : Nat)
    (v0 v1 v2 v3 : BitVec 32) : Hart := im.point h k ((Window.mk v0 v1 v2 v3).fill x)

/-! ## A routine in the memory of a machine -/

/-- An instruction that works on the registers and the pc only. -/
def plain : Instr → Bool
  | .lui .. | .auipc .. | .jal .. | .jalr .. | .branch .. | .opImm .. | .shiftImm ..
  | .op .. => true
  | _ => false

/-- The routine is in memory, and a fetch of one of its words sees no other. -/
structure Image.Loaded (im : Image) (m : Machine) : Prop where
  fetch : ∀ k i, im.code[k]? = some i →
    ∀ w ∈ m.visible (numberOf (im.address k)), decode w = some i
  word : ∀ k i, im.code[k]? = some i → decode (wordAt m.mem (numberOf (im.address k))) = some i

section Plain
variable {x : Reg → BitVec 32} {pc : BitVec 32} {c : Csrs} {ans ans' : Answer} {i : Instr}

theorem goto_access (target : BitVec 32) (write : Option (Reg × BitVec 32)) :
    (goto pc c target write).access = none := by
  unfold goto
  split <;> rfl

theorem plain_access (hi : plain i = true) : (exec x pc c ans i).access = none := by
  cases i with
  | jal | jalr => exact goto_access _ _
  | branch =>
    rw [exec]
    split
    · exact goto_access _ _
    · rfl
  | lui | auipc | opImm | shiftImm | op => rfl
  | _ => cases hi

theorem plain_halts (hi : plain i = true) (ht : (exec x pc c ans i).trap = none) :
    (exec x pc c ans i).halts = false := by
  have hgoto : ∀ target write, (goto pc c target write).trap = none →
      (goto pc c target write).halts = false := by
    intro target write
    unfold goto
    split
    · exact fun _ => rfl
    · rintro ⟨⟩
  cases i with
  | jal | jalr => exact hgoto _ _ ht
  | branch =>
    rw [exec] at ht ⊢
    split at ht
    · rename_i hb
      rw [if_pos hb]
      exact hgoto _ _ ht
    · rename_i hb
      rw [if_neg hb]
      rfl
  | lui | auipc | opImm | shiftImm | op => rfl
  | _ => cases hi

end Plain

namespace Image
variable {p : Platform} {im : Image} {m m' : Machine} {f : Fetch} {h' : Hart}

/-- A machine in the routine does what the routine does. -/
theorem Loaded.step (hl : im.Loaded m) (hplain : ∀ i ∈ im.code, plain i = true)
    (hnext : im.Next m.toHart h') (hs : Machine.Steps p m f m') :
    m'.toHart = h' ∧ m'.halted = false ∧ im.Loaded m' := by
  obtain ⟨k, i, hpc, hk, htrap, rfl⟩ := hnext
  have hi := hplain i (List.mem_of_getElem? hk)
  have hfetch := hs.fetched
  rw [hpc] at hfetch
  have hdec := hl.fetch k i hk f.inst hfetch
  have heff : m.effect p f = m.toHart.effect i := by
    rw [Machine.effect, hdec]
    cases i with
    | lui | auipc | jal | jalr | branch | opImm | shiftImm | op => rfl
    | _ => cases hi
  have hacc : (m.toHart.effect i).access = none := plain_access hi
  have hmem : m.memAfter p f = m.mem := by
    rw [Machine.memAfter, heff, hacc]
    rfl
  have hfence : decode f.inst ≠ some .fenceI := by
    intro he
    rw [Option.some_inj.mp (hdec.symm.trans he)] at hi
    cases hi
  rw [hs.next]
  refine ⟨?_, ?_, ?_, ?_⟩
  · have hstep : m.toHart.step i = { m.toHart.step i with mem := m.mem } := by
      rw [Hart.step, hacc]
    rw [hstep, Machine.after, heff, hmem]
    exact rfl
  · simp only [Machine.after, heff]
    exact plain_halts hi htrap
  · intro j i' hj w hw
    simp only [Machine.after, hmem, if_neg hfence] at hw
    rcases Set.mem_insert_iff.mp hw with rfl | hw
    · exact hl.word j i' hj
    · exact hl.fetch j i' hj w hw
  · intro j i' hj
    simp only [Machine.after, hmem]
    exact hl.word j i' hj

/-- A stretch of a routine that is loaded. -/
theorem Loaded.part {im' : Image} {k : Nat} (hl : im.Loaded m) (hbase : im'.base = im.address k)
    (hcode : ∀ j i, im'.code[j]? = some i → im.code[k + j]? = some i) : im'.Loaded m := by
  have haddr : ∀ j, im'.address j = im.address (k + j) := by
    intro j
    rw [address, hbase, address, address, BitVec.add_assoc, ← BitVec.ofNat_add, Nat.mul_add]
  constructor
  · intro j i hj
    rw [haddr]
    exact hl.fetch (k + j) i (hcode j i hj)
  · intro j i hj
    rw [haddr]
    exact hl.word (k + j) i (hcode j i hj)

end Image

end Rv32e.Asm
