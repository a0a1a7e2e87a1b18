import AiOsoc.Npc.Commit
import AiOsoc.Npc.Legal

/-!
# The commit outputs of a data access

The `commit_mem_*` outputs of the core in the cycle in which a load or a store
retires without a trap, against the access the instruction asks for.
-/

namespace Rv32e

set_option autoImplicit false

/-- The access a load or a store asks for; a load carries no data. -/
structure DataAccess where
  write : Bool
  width : Width
  addr : BitVec 32
  data : BitVec 32
  deriving Repr, DecidableEq

def Instr.dataAccess (x : Reg → BitVec 32) : Instr → Option DataAccess
  | .load width _ _ rs1 imm => some ⟨false, width, x rs1 + imm.signExtend 32, 0#32⟩
  | .store width rs1 rs2 imm => some ⟨true, width, x rs1 + imm.signExtend 32, x rs2⟩
  | _ => none

section NoAccess
variable {inst : BitVec 32} {i : Instr} (x : Reg → BitVec 32)

theorem opImm_no_access : decodeOpImm inst = some i → i.dataAccess x = none := by
  unfold decodeOpImm
  repeat' apply ite_elim
  case hb => nofun
  all_goals
    rintro ⟨⟩
    rfl

theorem system_no_access : decodeSystem inst = some i → i.dataAccess x = none := by
  unfold decodeSystem
  refine ite_elim (ite_elim (ite_elim ?ecall <| ite_elim ?ebreak <| ite_elim ?mret <|
    ite_elim ?wfi nofun) nofun) ?csr
  case csr =>
    intro hd
    obtain ⟨op, -, hd⟩ := Option.bind_eq_some_iff.mp hd
    revert hd
    refine ite_elim (ite_elim ?_ ?_) nofun
    all_goals
      rintro ⟨⟩
      rfl
  all_goals
    rintro ⟨⟩
    rfl

end NoAccess

end Rv32e

namespace Npc.Core

set_option autoImplicit false

/-! ## The outputs -/

/-- The `commit_mem_*` outputs of the `NPC_DEBUG` build, with `commit_inst`. -/
structure CommitMem where
  wen : Bool
  ren : Bool
  addr : BitVec 32
  wdata : BitVec 32
  wmask : BitVec 4
  rdata : BitVec 32
  inst : BitVec 32
  deriving Repr, DecidableEq

def commitMem (s : State) (i : Input) : CommitMem where
  wen := wRetireReady s i && wLsuWen s
  ren := wRetireReady s i && wCompleteInstNow s i && s.xw.memRen
  addr := Lsu.alignedAddr s.xw.lsuAddr
  wdata := Lsu.storeWdata s.xw.lsuAddr s.xw.rs2Data
  wmask := Lsu.wmask s.xw.memSize s.xw.lsuAddr
  rdata := wLsuRdata s.xw (lsuRaw s i)
  inst := commitInst s

def memSizeOf : Rv32e.Width → MemSize
  | .byte => .byte
  | .half => .half
  | .word => .word

theorem widthOf_memSizeOf (width : Rv32e.Width) : widthOf (memSizeOf width) = width := by
  cases width <;> rfl

theorem memSizeOf_widthOf (size : MemSize) : memSizeOf (widthOf size) = size := by
  cases size <;> rfl

theorem not_misaligned {width : Rv32e.Width} {addr : BitVec 32}
    (ha : Rv32e.aligned width addr = true) : misaligned (memSizeOf width) addr = false := by
  rw [misaligned_eq, widthOf_memSizeOf, ha]
  rfl

/-- What the outputs show of an access: the word it lies in, and the lanes it writes. -/
structure ShowsAccess (c : CommitMem) (a : Rv32e.DataAccess) : Prop where
  wen : c.wen = a.write
  ren : a.write = false → c.ren = true
  addr : c.addr = Lsu.alignedAddr a.addr
  wdata : a.write = true → c.wdata = Lsu.storeWdata a.addr a.data
  wmask : c.wmask = Lsu.wmask (memSizeOf a.width) a.addr

/-! ## The words of loads and stores -/

section Forms
variable {inst : BitVec 32} {width : Rv32e.Width} {rs1 : Rv32e.Reg} {imm : BitVec 12}

/-- A load of the table, by the signals of the decoder. -/
theorem load_form {unsigned : Bool} {rd : Rv32e.Reg}
    (hd : Rv32e.decodeAny inst = some (.load width unsigned rd rs1 imm)) :
    Idu.opcode inst = 0b0000011#7 ∧ Idu.loadLegal inst = true ∧ Idu.memSize inst = memSizeOf width ∧
      Idu.memUnsigned inst = unsigned ∧ Idu.rd inst = rd ∧ Idu.rs1 inst = rs1 ∧
      Idu.immI inst = imm.signExtend 32 := by
  cases Rv32e.decoded_of_decodeAny hd with
  | load h hc =>
    have hlegal := loadLegal_of_decode h hc
    rw [load_decoded hlegal] at hc
    cases hc
    exact ⟨h, hlegal, (memSizeOf_widthOf _).symm, rfl, rfl, rfl, immI_eq inst⟩
  | opImm h hc => cases Rv32e.opImm_no_access (fun _ => 0#32) hc
  | system h hc => cases Rv32e.system_no_access (fun _ => 0#32) hc

theorem store_form {rs2 : Rv32e.Reg}
    (hd : Rv32e.decodeAny inst = some (.store width rs1 rs2 imm)) :
    Idu.opcode inst = 0b0100011#7 ∧ Idu.storeLegal inst = true ∧
      Idu.memSize inst = memSizeOf width ∧ Idu.rs1 inst = rs1 ∧ Idu.rs2 inst = rs2 ∧
      Idu.immS inst = imm.signExtend 32 := by
  cases Rv32e.decoded_of_decodeAny hd with
  | store h hc =>
    have hlegal := storeLegal_of_decode h hc
    rw [store_decoded hlegal] at hc
    cases hc
    exact ⟨h, hlegal, (memSizeOf_widthOf _).symm, rfl, rfl, immS_eq inst⟩
  | opImm h hc => cases Rv32e.opImm_no_access (fun _ => 0#32) hc
  | system h hc => cases Rv32e.system_no_access (fun _ => 0#32) hc

end Forms

/-! ## The cycle of the retirement -/

section Commit
variable {s : State} {i : Input} {pc inst : BitVec 32} (h : Retiring s i pc inst)
include h

/-- The outputs show the access of the effect. -/
theorem Retiring.commitMem_access {a : Access} (ha : (retireEffect s i).access = some a)
    (ht : (retireEffect s i).trap = none) :
    ShowsAccess (commitMem s i) ⟨a.write, widthOf a.size, a.addr, a.wdata⟩ := by
  simp only [retireEffect, effect] at ha ht
  split at ht
  · cases ht
  rename_i hnt
  split at ha
  · rename_i hacc
    obtain rfl := Option.some.inj ha
    have hacc' := hacc
    simp only [wMemAccess, Bool.and_eq_true, Bool.or_eq_true] at hacc'
    obtain ⟨hcan, hmem⟩ := hacc'
    have hfault : wMemAccessFault true s.xw s.csr.mtvec (lsuRaw s i) = false := by
      simp only [wTrapRequest, Bool.not_eq_true, Bool.or_eq_false_iff] at hnt
      exact hnt.2
    refine ⟨?_, ?_, rfl, ?_, ?_⟩
    · simp [commitMem, h.ready, wLsuWen, h.valid, hcan]
    · intro hw
      have hw' : s.xw.memWen = false := hw
      have hren : s.xw.memRen = true := by simpa [hw'] using hmem
      simp [commitMem, h.ready, wCompleteInstNow, wCompleteInst, h.valid, hcan, hfault, hren]
    · intro hw
      have hw' : s.xw.memWen = true := hw
      simp [commitMem, hw']
    · rw [memSizeOf_widthOf]
      rfl
  · cases ha

section Access
variable {width : Rv32e.Width} {rs1 : Rv32e.Reg} {imm : BitVec 12}
  (ha : Rv32e.aligned width (regsOf s.regs rs1 + imm.signExtend 32) = true)
  (he : (lsuRaw s i).error = false)
include ha he

/-- A load that retires without a trap shows its address and writes the data it shows. -/
theorem Retiring.load_shown {unsigned : Bool} {rd : Rv32e.Reg}
    (hd : Rv32e.decode inst = some (.load width unsigned rd rs1 imm)) :
    ShowsAccess (commitMem s i) ⟨false, width, regsOf s.regs rs1 + imm.signExtend 32, 0#32⟩ ∧
      (retireEffect s i).write = Rv32e.setReg rd (commitMem s i).rdata ∧
      (commitMem s i).rdata = Rv32e.loadValue width unsigned (laneByte (lsuRaw s i).rdata)
        (regsOf s.regs rs1 + imm.signExtend 32) := by
  have hl := decodeLegal_of_decode hd
  obtain ⟨ho, hk, hsize, hu, rfl, rfl, himm⟩ := load_form (Rv32e.decodeAny_of_decode hd)
  have hm := not_misaligned ha
  have hfd : (⟨pc, inst, false⟩ : FD).instError = false := rfl
  have hans := load_answered _ _ _ _ hfd hl ho hk h.operands_ready
  have heff := h.effect_eq
  rw [fdEffect_load _ _ _ _ hfd hl ho hk hans] at heff
  simp only [himm, hsize, hu, accessEffect, hm, he, Bool.false_eq_true, if_false] at heff
  have haccess := congrArg Effect.access heff
  have hshown := h.commitMem_access haccess (congrArg Effect.trap heff)
  rw [widthOf_memSizeOf] at hshown
  have haddr : s.xw.lsuAddr = regsOf s.regs (Idu.rs1 inst) + imm.signExtend 32 := by
    simp only [retireEffect, effect] at haccess
    split at haccess
    · exact congrArg Access.addr (Option.some.inj haccess)
    · cases haccess
  have hrdata : (commitMem s i).rdata = Lsu.rdata (memSizeOf width) unsigned
      (regsOf s.regs (Idu.rs1 inst) + imm.signExtend 32) true (lsuRaw s i).rdata := by
    have hready : (lsuRaw s i).ready = true := hans (by rw [himm, hsize]; exact hm)
    have hsize' : s.xw.memSize = memSizeOf width := (congrArg XW.memSize h.executed).trans hsize
    have hu' : s.xw.memUnsigned = unsigned := (congrArg XW.memUnsigned h.executed).trans hu
    change wLsuRdata s.xw (lsuRaw s i) = _
    rw [wLsuRdata, hsize', hu', haddr, hready]
  refine ⟨hshown, ?_, ?_⟩
  · rw [hrdata]
    exact congrArg Effect.write heff
  · rw [hrdata, rdata_eq unsigned _ hm, widthOf_memSizeOf]

theorem Retiring.store_shown {rs2 : Rv32e.Reg}
    (hd : Rv32e.decode inst = some (.store width rs1 rs2 imm)) :
    ShowsAccess (commitMem s i)
      ⟨true, width, regsOf s.regs rs1 + imm.signExtend 32, regsOf s.regs rs2⟩ ∧
      (retireEffect s i).write = none := by
  have hl := decodeLegal_of_decode hd
  obtain ⟨ho, hk, hsize, rfl, rfl, himm⟩ := store_form (Rv32e.decodeAny_of_decode hd)
  have hm := not_misaligned ha
  have hfd : (⟨pc, inst, false⟩ : FD).instError = false := rfl
  have hans := store_answered _ _ _ _ hfd hl ho hk h.operands_ready
  have heff := h.effect_eq
  rw [fdEffect_store _ _ _ _ hfd hl ho hk hans] at heff
  simp only [himm, hsize, accessEffect, hm, he, Bool.false_eq_true, if_false] at heff
  have hshown := h.commitMem_access (congrArg Effect.access heff) (congrArg Effect.trap heff)
  rw [widthOf_memSizeOf] at hshown
  exact ⟨hshown, congrArg Effect.write heff⟩

end Access

end Commit

end Npc.Core
