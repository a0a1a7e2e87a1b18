import AiOsoc.Isa
import AiOsoc.ByteMemory

/-!
# A hart with its memory

The instruction table run on registers, CSRs and a memory that answers every
access. Assembly is a list of instructions, executed from the first one on.
-/

namespace Rv32e

set_option autoImplicit false

open ByteMemory

structure Hart where
  x : Reg → BitVec 32
  pc : BitVec 32
  csrs : Csrs
  mem : Memory

def writeBytes (m : Memory) (bytes : List (BitVec 32 × BitVec 8)) : Memory :=
  bytes.foldl (fun m b => Function.update m b.1 b.2) m

namespace Hart

def effect (h : Hart) (i : Instr) : Effect := exec h.x h.pc h.csrs ⟨false, h.mem⟩ i

/-- One instruction, with its exception if it raises one. -/
def step (h : Hart) (i : Instr) : Hart where
  x := match (h.effect i).write with
    | some (rd, v) => Function.update h.x rd v
    | none => h.x
  pc := (h.effect i).nextPc
  csrs := (h.effect i).csrs
  mem := match (h.effect i).access with
    | some (.store _ _ bytes) => writeBytes h.mem bytes
    | _ => h.mem

/-- A straight line of instructions. It has no result if one of them raises an
exception. -/
def run (h : Hart) : List Instr → Option Hart
  | [] => some h
  | i :: is => if (h.effect i).trap = none then (h.step i).run is else none

end Hart

/-! ## Assembly -/

def sp : Reg := 2#5
def mcause : BitVec 12 := 0x342#12
def mstatus : BitVec 12 := 0x300#12
def mtvec : BitVec 12 := 0x305#12
def mepc : BitVec 12 := 0x341#12

def addi (rd rs1 : Reg) (imm : BitVec 12) : Instr := .opImm .add rd rs1 imm
def mv (rd rs1 : Reg) : Instr := addi rd rs1 0#12
def li (rd : Reg) (imm : BitVec 12) : Instr := addi rd 0#5 imm
def lw (rd : Reg) (imm : BitVec 12) (rs1 : Reg) : Instr := .load .word false rd rs1 imm
def sw (rs2 : Reg) (imm : BitVec 12) (rs1 : Reg) : Instr := .store .word rs1 rs2 imm
def csrr (rd : Reg) (csr : BitVec 12) : Instr := .csr .rs csr rd 0#5
def csrw (csr : BitVec 12) (rs1 : Reg) : Instr := .csr .rw csr 0#5 rs1

/-! ## What one line does -/

theorem shiftLeft_one (v : BitVec 32) : v <<< 1 = v + v := by
  apply BitVec.eq_of_toNat_eq
  rw [BitVec.toNat_shiftLeft, BitVec.toNat_add, Nat.shiftLeft_eq, Nat.pow_one, Nat.mul_two]

theorem writeBytes_storeBytes (m : Memory) (a v : BitVec 32) :
    writeBytes m (storeBytes .word a v) = storeWord m a v := by
  have hbytes : storeBytes .word a v = [(a + 0#32, v.extractLsb' 0 8),
      (a + 1#32, v.extractLsb' 8 8), (a + 2#32, v.extractLsb' 16 8),
      (a + 3#32, v.extractLsb' 24 8)] := rfl
  funext b
  obtain ⟨k, rfl⟩ : ∃ k, b = a + k := ⟨b - a, by rw [BitVec.add_comm, BitVec.sub_add_cancel]⟩
  have hk : a + k - a = k := by rw [BitVec.add_comm, BitVec.add_sub_cancel]
  rw [hbytes, writeBytes, storeWord, hk]
  simp only [List.foldl_cons, List.foldl_nil, Function.update_apply, BitVec.add_right_inj]
  by_cases h3 : k = 3#32
  · subst h3
    rfl
  by_cases h2 : k = 2#32
  · subst h2
    rfl
  by_cases h1 : k = 1#32
  · subst h1
    rfl
  by_cases h0 : k = 0#32
  · subst h0
    rfl
  rw [if_neg h3, if_neg h2, if_neg h1, if_neg h0, if_neg]
  bv_omega

namespace Hart

/-- `rd` gets a value and the next instruction follows. -/
def setX (h : Hart) (rd : Reg) (v : BitVec 32) : Hart :=
  { h with x := Function.update h.x rd v, pc := h.pc + 4#32 }

def store (h : Hart) (a v : BitVec 32) : Hart :=
  { h with mem := storeWord h.mem a v, pc := h.pc + 4#32 }

def setCsrs (h : Hart) (c : Csrs) : Hart := { h with csrs := c, pc := h.pc + 4#32 }

section Fields
variable (h : Hart) (rd : Reg) (a v : BitVec 32) (c : Csrs)

@[simp] theorem setX_self : (h.setX rd v).x rd = v := Function.update_self ..

theorem setX_of_ne {r : Reg} (hr : r ≠ rd) : (h.setX rd v).x r = h.x r :=
  Function.update_of_ne hr ..

@[simp] theorem setX_csrs : (h.setX rd v).csrs = h.csrs := rfl
@[simp] theorem setX_mem : (h.setX rd v).mem = h.mem := rfl
@[simp] theorem store_x : (h.store a v).x = h.x := rfl
@[simp] theorem store_csrs : (h.store a v).csrs = h.csrs := rfl
@[simp] theorem store_mem : (h.store a v).mem = storeWord h.mem a v := rfl
@[simp] theorem setCsrs_x : (h.setCsrs c).x = h.x := rfl
@[simp] theorem setCsrs_csrs : (h.setCsrs c).csrs = c := rfl
@[simp] theorem setCsrs_mem : (h.setCsrs c).mem = h.mem := rfl

end Fields

section Lines
variable (h : Hart) (is : List Instr) {rd : Reg} (rs1 rs2 : Reg) (imm : BitVec 12) {a : BitVec 32}

theorem step_addi (hrd : rd ≠ 0#5) :
    h.step (addi rd rs1 imm) = h.setX rd (h.x rs1 + imm.signExtend 32) := by
  simp only [step, effect, addi, exec, Effect.complete, setReg, if_neg hrd, Alu.eval, setX]

theorem run_addi (hrd : rd ≠ 0#5) :
    h.run (addi rd rs1 imm :: is) = (h.setX rd (h.x rs1 + imm.signExtend 32)).run is := by
  rw [run, step_addi h rs1 imm hrd]
  exact if_pos rfl

theorem run_mv (hrd : rd ≠ 0#5) : h.run (mv rd rs1 :: is) = (h.setX rd (h.x rs1)).run is := by
  have h0 : h.x rs1 + (0#12).signExtend 32 = h.x rs1 := BitVec.add_zero _
  rw [mv, run_addi h is rs1 0#12 hrd, h0]

theorem run_sw (haddr : h.x rs1 + imm.signExtend 32 = a) (ha : a.toNat % 4 = 0) :
    h.run (sw rs2 imm rs1 :: is) = (h.store a (h.x rs2)).run is := by
  subst haddr
  have hal : aligned .word (h.x rs1 + imm.signExtend 32) = true := decide_eq_true ha
  simp only [run, step, effect, sw, exec, memory, hal, if_pos, Effect.complete,
    writeBytes_storeBytes, Bool.false_eq_true, if_false, store]

theorem run_lw (hrd : rd ≠ 0#5) (haddr : h.x rs1 + imm.signExtend 32 = a) (ha : a.toNat % 4 = 0) :
    h.run (lw rd imm rs1 :: is) = (h.setX rd (loadWord h.mem a)).run is := by
  subst haddr
  have hal : aligned .word (h.x rs1 + imm.signExtend 32) = true := decide_eq_true ha
  simp only [run, step, effect, lw, exec, memory, hal, if_pos, Effect.complete, setReg,
    if_neg hrd, Bool.false_eq_true, if_false]
  rfl

theorem run_csrr (hrd : rd ≠ 0#5) (csr : BitVec 12) :
    h.run (csrr rd csr :: is) = (h.setX rd (h.csrs.read csr)).run is := by
  simp only [run, step, effect, csrr, exec, csrAccess, Effect.complete, setReg, if_neg hrd,
    if_pos, csrWrites]
  rfl

theorem run_csrw (csr : BitVec 12) :
    h.run (csrw csr rs1 :: is) = (h.setCsrs (h.csrs.write csr (h.x rs1))).run is := by
  simp only [run, step, effect, csrw, exec, csrAccess, Effect.complete, setReg, if_pos, csrWrites]
  rfl

theorem run_jalr (hrd : rd ≠ 0#5) (haddr : (h.x rs1 + imm.signExtend 32) &&& ~~~1#32 = a)
    (ha : a.toNat % 4 = 0) :
    h.run [.jalr rd rs1 imm] = some { h.setX rd (h.pc + 4#32) with pc := a } := by
  subst haddr
  simp only [run, step, effect, exec, goto, ha, if_pos, Effect.complete, setReg, if_neg hrd, setX]

theorem run_mret : h.run [.mret] = some { h with pc := h.csrs.mepc } := rfl

end Lines

end Hart

end Rv32e
