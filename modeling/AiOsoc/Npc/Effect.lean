import AiOsoc.Npc.Decode

/-!
# The effect of one instruction

What a retiring instruction does to the architectural state, read off the wires
of the W stage: in closed form for each instruction class, and independent of
the operands the instruction does not read.
-/

namespace Npc.Core

set_option autoImplicit false

/-- A data access as the LSU performs it; a load carries no data. -/
structure Access where
  write : Bool
  size : MemSize
  addr : BitVec 32
  wdata : BitVec 32
  deriving Repr, DecidableEq

structure Effect where
  write : Option (BitVec 5 × BitVec 32)
  access : Option Access
  trap : Option (BitVec 32)
  csr : Csr
  nextPc : BitVec 32
  halts : Bool
  deriving Repr, DecidableEq

/-- The inputs of `Csr` when the instruction in W retires and X is empty. -/
def wCsrPort (w : XW) (mtvec : BitVec 32) (lsu : BusResp) : Csr.Port where
  addr := w.csrAddr
  cmd := w.csrCmd
  rs1Data := w.rs1Data
  uimm := w.csrUimm
  commitEn := wCompleteInst true w mtvec lsu && w.csrCmd ≠ .none
  trapEn := wPreciseTrap true w mtvec lsu
  trapPc := w.pc
  trapCause := wExceptionCause true w mtvec lsu

/-- Where execution continues after the instruction in W: a redirect taken in X
stands unless W traps. -/
def wContinues (w : XW) (mtvec : BitVec 32) (lsu : BusResp) : BitVec 32 :=
  if wPreciseTrap true w mtvec lsu then mtvec
  else if wBadWithoutVector true w mtvec lsu then w.pc
  else if w.redirect then w.redirectPc else wPcPlus4 w

def effect (w : XW) (c : Csr) (lsu : BusResp) : Effect where
  write := if wWbWen true w c.mtvec lsu then some (w.rd, wWbMux w lsu) else none
  access := if wMemAccess true w c.mtvec then
    some ⟨w.memWen, w.memSize, w.lsuAddr, if w.memWen then w.rs2Data else 0#32⟩ else none
  trap :=
    if wTrapRequest true w c.mtvec lsu then some (wExceptionCause true w c.mtvec lsu) else none
  csr := c.next (wCsrPort w c.mtvec lsu)
  nextPc := wContinues w c.mtvec lsu
  halts := wBadWithoutVector true w c.mtvec lsu

/-- Trap entry: with a vector the core saves `pc` and the cause and continues
there, without one it stops at the instruction. -/
def raise (c : Csr) (pc : BitVec 32) (access : Option Access) (cause : BitVec 32) : Effect where
  write := none
  access := access
  trap := some cause
  csr := if c.mtvec = 0#32 then c else { c with mepc := Csr.mask2 pc, mcause := cause }
  nextPc := if c.mtvec = 0#32 then pc else c.mtvec
  halts := c.mtvec = 0#32

def writeReg (rd : BitVec 5) (v : BitVec 32) : Option (BitVec 5 × BitVec 32) :=
  if rd = 0#5 then none else some (rd, v)

section Retire
variable {w : XW} (c : Csr) (lsu : BusResp)

attribute [local simp] effect wCsrPort wContinues wWbWen wMemAccess wTrapRequest wBadWithoutVector
  wPreciseTrap wCompleteInst wMemAccessFault wCanCompleteNoMemFault wMemReady writeReg Csr.next

/-- An instruction that only writes a register and moves on. -/
def proceed (c : Csr) (pc : BitVec 32) (write : Option (BitVec 5 × BitVec 32)) : Effect where
  write := write
  access := none
  trap := none
  csr := c
  nextPc := pc
  halts := false

theorem effect_proceed (hb : wBaseTrapRequest w = false) (hr : w.memRen = false)
    (hw : w.memWen = false) (hc : w.csrCmd = .none) :
    effect w c lsu = proceed c (if w.redirect then w.redirectPc else w.pc + 4#32)
      (if w.writesRd && !w.isMret then writeReg w.rd (wWbMux w lsu) else none) := by
  have hb' := hb
  simp only [wBaseTrapRequest, Bool.or_eq_false_iff, Bool.not_eq_false'] at hb'
  obtain ⟨⟨⟨⟨⟨h1, h2⟩, h3⟩, h4⟩, h5⟩, h6⟩ := hb'
  cases hd : w.writesRd <;> cases hm : w.isMret <;>
    simp [proceed, hb, hr, hw, hc, h1, h2, h3, h4, h5, hd, hm, wPcPlus4]

/-- A trap known before the memory access. An `ebreak` without a vector counts
as complete, so it matters that it has nothing to write. -/
theorem effect_raise (hb : wBaseTrapRequest w = true)
    (he : w.isEbreak = true → w.writesRd = false ∧ w.csrCmd = .none ∧ w.memRen = false ∧
      w.memWen = false) :
    effect w c lsu = raise c w.pc none (wExceptionCause true w c.mtvec ⟨false, 0#32, false⟩) := by
  cases hcan : wCanCompleteNoMemFault true w c.mtvec with
  | false =>
    by_cases hv : c.mtvec = 0#32
    · rw [hv] at hcan
      simp [raise, hcan, hb, hv, wExceptionCause, -wCanCompleteNoMemFault]
    · simp [raise, hcan, hb, hv, wExceptionCause, -wCanCompleteNoMemFault]
  | true =>
    have hq : w.isEbreak = true := by
      have hcan' := hcan
      simp only [wCanCompleteNoMemFault, Bool.and_eq_true, Bool.not_eq_true'] at hcan'
      simp_all [wBaseTrapRequest]
    obtain ⟨h1, h2, h3, h4⟩ := he hq
    by_cases hv : c.mtvec = 0#32 <;>
      simp [raise, hcan, hb, hv, wExceptionCause, h1, h2, h3, h4, -wCanCompleteNoMemFault]

theorem effect_mem (hb : wBaseTrapRequest w = false) (hm : (w.memRen || w.memWen) = true)
    (hx : (w.memRen && w.memWen) = false) (hr : w.redirect = false) (hret : w.isMret = false)
    (hc : w.csrCmd = .none) (hlsu : lsu.ready = true) :
    effect w c lsu =
      if lsu.error then raise c w.pc
        (some ⟨w.memWen, w.memSize, w.lsuAddr, if w.memWen then w.rs2Data else 0#32⟩)
        (if w.memRen then Exc.loadAccessFault else Exc.storeAccessFault)
      else
        { proceed c (w.pc + 4#32)
            (if w.writesRd then writeReg w.rd (wWbMux w lsu) else none) with
          access :=
            some ⟨w.memWen, w.memSize, w.lsuAddr, if w.memWen then w.rs2Data else 0#32⟩ } := by
  have hb' := hb
  simp only [wBaseTrapRequest, Bool.or_eq_false_iff, Bool.not_eq_false'] at hb'
  obtain ⟨⟨⟨⟨⟨h1, h2⟩, h3⟩, h4⟩, h5⟩, h6⟩ := hb'
  have hacc : wMemAccess true w c.mtvec = true := by
    simp [hm, h1, h2, h3, h4, h5, hb]
  have hcan : wCanCompleteNoMemFault true w c.mtvec = true := by
    simp [h1, h2, h3, h4, h5, hb]
  cases he : lsu.error with
  | false =>
    cases hd : w.writesRd <;>
      simp [proceed, hacc, hcan, hb, hlsu, he, hr, hret, hc, hd, wPcPlus4, -wMemAccess,
        -wCanCompleteNoMemFault]
  | true =>
    have hf : wMemAccessFault true w c.mtvec lsu = true := by
      simp [hacc, hlsu, he, -wMemAccess]
    have hcause : wExceptionCause true w c.mtvec lsu =
        if w.memRen then Exc.loadAccessFault else Exc.storeAccessFault := by
      simp only [wExceptionCause, h1, h2, h3, h4, hf]
      cases hren : w.memRen <;> simp_all
    by_cases hv : c.mtvec = 0#32
    · rw [hv] at hf hacc hcause
      simp [raise, hcause, hacc, hv, hb, hf, -wMemAccess, -wMemAccessFault]
    · simp [raise, hcause, hacc, hv, hb, hf, -wMemAccess, -wMemAccessFault]

theorem effect_csr (hb : wBaseTrapRequest w = false) (hr : w.memRen = false)
    (hw : w.memWen = false) (hc : w.csrCmd ≠ .none) (hred : w.redirect = false)
    (hret : w.isMret = false) :
    effect w c lsu =
      { proceed c (w.pc + 4#32) (if w.writesRd then writeReg w.rd (wWbMux w lsu) else none) with
        csr := if Csr.csrWriteEn w.csrCmd w.rs1Data w.csrUimm then
            c.write w.csrAddr (Csr.csrNext (c.csrOld w.csrAddr) w.csrCmd
              (Csr.csrSrc w.csrCmd w.rs1Data w.csrUimm))
          else c } := by
  have hb' := hb
  simp only [wBaseTrapRequest, Bool.or_eq_false_iff, Bool.not_eq_false'] at hb'
  obtain ⟨⟨⟨⟨⟨h1, h2⟩, h3⟩, h4⟩, h5⟩, h6⟩ := hb'
  cases hd : w.writesRd <;>
    simp [proceed, hb, hr, hw, hc, h1, h2, h3, h4, h5, hd, hred, hret, wPcPlus4]

end Retire

/-- The effect of the fetched word `fd` with the operands `r1` and `r2`. -/
def fdEffect (fd : FD) (r1 r2 : BitVec 32) (c : Csr) (lsu : BusResp) : Effect :=
  effect (xStage (dStage fd r1 r2) c) c lsu

/-- The comparison behind a branch. -/
def branchTaken (op : BranchOp) (r1 r2 : BitVec 32) : Bool :=
  match op with
  | .beq => r1 == r2
  | .bne => !(r1 == r2)
  | .blt => r1.slt r2
  | .bge => !(r1.slt r2)
  | .bltu => r1.ult r2
  | .bgeu => !(r1.ult r2)
  | .none => false

theorem xBranchTaken_eq {x : DX} (hs : x.src1Pc = false) :
    xBranchTaken x = branchTaken x.branchOp x.rs1Data x.rs2Data := by
  unfold xBranchTaken branchTaken
  cases hop : x.branchOp <;>
    simp [xAluSrc1, xAluSrc2, hop, hs, Exu.equal, Exu.lessSigned, Exu.lessUnsigned]

theorem branchTaken_none (r1 r2 : BitVec 32) : branchTaken .none r1 r2 = false := rfl

theorem xBranchTaken_none {x : DX} (h : x.branchOp = .none) : xBranchTaken x = false := by
  simp [xBranchTaken, h]

/-- The data address of an access is misaligned for its size. -/
def misaligned (size : MemSize) (addr : BitVec 32) : Bool :=
  (size = .half && addr.getLsbD 0) || (size = .word && addr.extractLsb' 0 2 != 0b00#2)

theorem xMemMisaligned_eq (x : DX) : xMemMisaligned x =
    ((x.memRen || x.memWen) && misaligned x.memSize (adderResult x)) := by
  simp [xMemMisaligned, misaligned]

/-- A jump to `target`, or the trap it takes instead. -/
def jump (c : Csr) (pc target : BitVec 32) (write : Option (BitVec 5 × BitVec 32)) : Effect :=
  if target.extractLsb' 0 2 = 0b00#2 then proceed c target write
  else raise c pc none Exc.instAddrMisaligned

section Classes
variable {fd : FD} (r1 r2 : BitVec 32) (c : Csr) (lsu : BusResp)

theorem fdEffect_fetch_fault (he : fd.instError = true) :
    fdEffect fd r1 r2 c lsu = raise c fd.pc none Exc.instAccessFault := by
  rw [fdEffect, effect_raise c lsu (by simp [wBaseTrapRequest, xStage, dStage, he])
    (ebreak_quiet fd r1 r2)]
  simp [wExceptionCause, xStage, dStage, he]

theorem fdEffect_illegal (he : fd.instError = false) (hl : decodeLegal fd.inst = false) :
    fdEffect fd r1 r2 c lsu = raise c fd.pc none Exc.illegalInst := by
  rw [fdEffect, effect_raise c lsu (by simp [wBaseTrapRequest, xStage, dStage, hl])
    (ebreak_quiet fd r1 r2)]
  simp [wExceptionCause, xStage, dStage, he, hl]

variable (he : fd.instError = false) (hl : decodeLegal fd.inst = true)
include he hl

attribute [local simp] wBaseTrapRequest wWbMux wPcPlus4 xStage xTakes xRedirectPc xAluResult
  adderResult adderSrc1 adderSrc2 xAluSrc1 xAluSrc2 xBranchTaken_eq xBranchTaken_none
  branchTaken_none xPcException xMemMisaligned_eq xJalrTarget xImmJ xImmB dPlain

theorem fdEffect_lui (h : Idu.opcode fd.inst = 0b0110111#7) :
    fdEffect fd r1 r2 c lsu =
      proceed c (fd.pc + 4#32) (writeReg (Idu.rd fd.inst) (Idu.immU fd.inst)) := by
  rw [fdEffect, dStage_lui h, effect_proceed] <;> simp [he, hl, Exu.result]

theorem fdEffect_auipc (h : Idu.opcode fd.inst = 0b0010111#7) :
    fdEffect fd r1 r2 c lsu =
      proceed c (fd.pc + 4#32) (writeReg (Idu.rd fd.inst) (fd.pc + Idu.immU fd.inst)) := by
  rw [fdEffect, dStage_auipc h, effect_proceed] <;> simp [he, hl]

theorem fdEffect_jal (h : Idu.opcode fd.inst = 0b1101111#7) :
    fdEffect fd r1 r2 c lsu =
      jump c fd.pc (fd.pc + Idu.immJ fd.inst) (writeReg (Idu.rd fd.inst) (fd.pc + 4#32)) := by
  rw [fdEffect, dStage_jal h]
  unfold jump
  split
  · rename_i ha
    rw [effect_proceed] <;> simp [he, hl, ha]
  · rename_i ha
    rw [effect_raise] <;> simp [he, hl, ha, wExceptionCause]

theorem fdEffect_jalr (h : Idu.opcode fd.inst = 0b1100111#7) (h3 : Idu.funct3 fd.inst = 0b000#3) :
    fdEffect fd r1 r2 c lsu =
      jump c fd.pc ((r1 + Idu.immI fd.inst) &&& ~~~1#32)
        (writeReg (Idu.rd fd.inst) (fd.pc + 4#32)) := by
  rw [fdEffect, dStage_jalr h h3]
  unfold jump
  split
  · rename_i ha
    rw [effect_proceed] <;> simp [he, hl, ha, -BitVec.reduceNot]
  · rename_i ha
    rw [effect_raise] <;> simp [he, hl, ha, wExceptionCause, -BitVec.reduceNot]

theorem fdEffect_branch (h : Idu.opcode fd.inst = 0b1100011#7) :
    fdEffect fd r1 r2 c lsu =
      if branchTaken (Idu.branchOp fd.inst) r1 r2 then
        jump c fd.pc (fd.pc + Idu.immB fd.inst) none
      else proceed c (fd.pc + 4#32) none := by
  have hn := branchOp_ne_none h
  rw [fdEffect, dStage_branch h]
  cases hb : branchTaken (Idu.branchOp fd.inst) r1 r2 with
  | false => rw [effect_proceed] <;> simp [he, hl, hn, hb]
  | true =>
    simp only [if_true]
    unfold jump
    split
    · rename_i ha
      rw [effect_proceed] <;> simp [he, hl, ha, hn, hb]
    · rename_i ha
      rw [effect_raise] <;> simp [he, hl, ha, hn, hb, wExceptionCause]

/-- A load or a store by its access, or the trap it takes instead. -/
def accessEffect (c : Csr) (pc : BitVec 32) (a : Access) (misalignedCause faultCause : BitVec 32)
    (write : Option (BitVec 5 × BitVec 32)) (lsu : BusResp) : Effect :=
  if misaligned a.size a.addr then raise c pc none misalignedCause
  else if lsu.error then raise c pc (some a) faultCause
  else { proceed c (pc + 4#32) write with access := some a }

theorem fdEffect_load (h : Idu.opcode fd.inst = 0b0000011#7) (h' : Idu.loadLegal fd.inst = true)
    (hr : misaligned (Idu.memSize fd.inst) (r1 + Idu.immI fd.inst) = false → lsu.ready = true) :
    fdEffect fd r1 r2 c lsu =
      accessEffect c fd.pc ⟨false, Idu.memSize fd.inst, r1 + Idu.immI fd.inst, 0#32⟩
        Exc.loadAddrMisaligned Exc.loadAccessFault
        (writeReg (Idu.rd fd.inst) (Lsu.rdata (Idu.memSize fd.inst) (Idu.memUnsigned fd.inst)
          (r1 + Idu.immI fd.inst) true lsu.rdata)) lsu := by
  rw [fdEffect, dStage_load h h']
  unfold accessEffect
  cases hma : misaligned (Idu.memSize fd.inst) (r1 + Idu.immI fd.inst) with
  | true =>
    rw [effect_raise] <;> simp [he, hl, hma, wExceptionCause]
  | false =>
    rw [effect_mem] <;> simp [he, hl, hma, hr hma, wLsuRdata]

theorem fdEffect_store (h : Idu.opcode fd.inst = 0b0100011#7) (h' : Idu.storeLegal fd.inst = true)
    (hr : misaligned (Idu.memSize fd.inst) (r1 + Idu.immS fd.inst) = false → lsu.ready = true) :
    fdEffect fd r1 r2 c lsu =
      accessEffect c fd.pc ⟨true, Idu.memSize fd.inst, r1 + Idu.immS fd.inst, r2⟩
        Exc.storeAddrMisaligned Exc.storeAccessFault none lsu := by
  rw [fdEffect, dStage_store h h']
  unfold accessEffect
  cases hma : misaligned (Idu.memSize fd.inst) (r1 + Idu.immS fd.inst) with
  | true =>
    rw [effect_raise] <;> simp [he, hl, hma, wExceptionCause]
  | false =>
    rw [effect_mem] <;> simp [he, hl, hma, hr hma]

omit he hl in
theorem adder_result {op : AluOp} {a b : BitVec 32} :
    (if op = .add ∨ op = .sub then if op = .sub then a - b else a + b else Exu.result op a b) =
      Exu.result op a b := by
  cases op <;> simp [Exu.result]

theorem fdEffect_opImm (h : Idu.opcode fd.inst = 0b0010011#7) :
    fdEffect fd r1 r2 c lsu = proceed c (fd.pc + 4#32)
      (writeReg (Idu.rd fd.inst) (Exu.result (Idu.aluOp fd.inst) r1 (Idu.immI fd.inst))) := by
  rw [fdEffect, dStage_opImm h, effect_proceed] <;> simp [he, hl, adder_result]

theorem fdEffect_op (h : Idu.opcode fd.inst = 0b0110011#7) :
    fdEffect fd r1 r2 c lsu = proceed c (fd.pc + 4#32)
      (writeReg (Idu.rd fd.inst) (Exu.result (Idu.aluOp fd.inst) r1 r2)) := by
  rw [fdEffect, dStage_op h, effect_proceed] <;> simp [he, hl, adder_result]

/-- The CSRs after a CSR instruction. -/
def csrEffect (c : Csr) (addr : BitVec 12) (cmd : CsrCmd) (r1 : BitVec 32) (uimm : BitVec 5) :
    Csr :=
  if Csr.csrWriteEn cmd r1 uimm then
    c.write addr (Csr.csrNext (c.csrOld addr) cmd (Csr.csrSrc cmd r1 uimm)) else c

theorem fdEffect_csr (h : Idu.opcode fd.inst = 0b1110011#7) (h3 : Idu.funct3 fd.inst ≠ 0b000#3) :
    fdEffect fd r1 r2 c lsu =
      { proceed c (fd.pc + 4#32) (writeReg (Idu.rd fd.inst) (c.csrOld (Idu.csrAddr fd.inst))) with
        csr :=
          csrEffect c (Idu.csrAddr fd.inst) (Idu.csrCmd fd.inst) r1 (Idu.csrUimm fd.inst) } := by
  have hn := csrCmd_ne_none h h3
  rw [fdEffect, dStage_csr h h3, effect_csr] <;> simp [he, hl, hn, csrEffect]

theorem fdEffect_fence (h : Idu.opcode fd.inst = 0b0001111#7) :
    fdEffect fd r1 r2 c lsu = proceed c (fd.pc + 4#32) none := by
  rw [fdEffect, dStage_fence h, effect_proceed] <;> simp [he, hl]

theorem fdEffect_ecall (h : fd.inst = 0x00000073#32) :
    fdEffect fd r1 r2 c lsu = raise c fd.pc none Exc.ecallM := by
  have hs : Idu.sysCmd fd.inst = .ecall := by rw [h]; decide
  rw [fdEffect, dStage_sys (by rw [h]; decide) (by rw [h]; decide), effect_raise] <;>
    simp [he, hl, hs, wExceptionCause]

theorem fdEffect_ebreak (h : fd.inst = 0x00100073#32) :
    fdEffect fd r1 r2 c lsu = raise c fd.pc none Exc.breakpoint := by
  have hs : Idu.sysCmd fd.inst = .ebreak := by rw [h]; decide
  rw [fdEffect, dStage_sys (by rw [h]; decide) (by rw [h]; decide), effect_raise] <;>
    simp [he, hl, hs, wExceptionCause]

theorem fdEffect_mret (h : fd.inst = 0x30200073#32) :
    fdEffect fd r1 r2 c lsu = proceed c c.mepc none := by
  have hs : Idu.sysCmd fd.inst = .mret := by rw [h]; decide
  rw [fdEffect, dStage_sys (by rw [h]; decide) (by rw [h]; decide), effect_proceed] <;>
    simp [he, hl, hs]

theorem fdEffect_wfi (h : fd.inst = 0x10500073#32) :
    fdEffect fd r1 r2 c lsu = proceed c (fd.pc + 4#32) none := by
  have hs : Idu.sysCmd fd.inst = .wfi := by rw [h]; decide
  rw [fdEffect, dStage_sys (by rw [h]; decide) (by rw [h]; decide), effect_proceed] <;>
    simp [he, hl, hs]

theorem load_answered (h : Idu.opcode fd.inst = 0b0000011#7) (h' : Idu.loadLegal fd.inst = true)
    (hr : wMemReady true (xStage (dStage fd r1 r2) c) c.mtvec lsu = true)
    (hm : misaligned (Idu.memSize fd.inst) (r1 + Idu.immI fd.inst) = false) :
    lsu.ready = true := by
  rw [dStage_load h h'] at hr
  simpa [wMemReady, wMemAccess, wCanCompleteNoMemFault, he, hl, hm] using hr

theorem store_answered (h : Idu.opcode fd.inst = 0b0100011#7) (h' : Idu.storeLegal fd.inst = true)
    (hr : wMemReady true (xStage (dStage fd r1 r2) c) c.mtvec lsu = true)
    (hm : misaligned (Idu.memSize fd.inst) (r1 + Idu.immS fd.inst) = false) :
    lsu.ready = true := by
  rw [dStage_store h h'] at hr
  simpa [wMemReady, wMemAccess, wCanCompleteNoMemFault, he, hl, hm] using hr

omit he hl in
/-- The immediate forms of the CSR instructions do not look at the operand. -/
theorem csrEffect_congr {inst r1 r1' : BitVec 32} {c : Csr} {addr : BitVec 12} {uimm : BitVec 5}
    (h : Idu.opcode inst = 0b1110011#7) (hk : Idu.csrLegal inst = true)
    (h1 : Idu.readsRs1 inst = true → r1 = r1') :
    csrEffect c addr (Idu.csrCmd inst) r1 uimm = csrEffect c addr (Idu.csrCmd inst) r1' uimm := by
  rcases csrLegal_funct3 hk with hf | hf | hf | hf | hf | hf
  · rw [h1 (by simp [Idu.readsRs1, Idu.isCsr, Idu.isSystem, h, hf])]
  · rw [h1 (by simp [Idu.readsRs1, Idu.isCsr, Idu.isSystem, h, hf])]
  · rw [h1 (by simp [Idu.readsRs1, Idu.isCsr, Idu.isSystem, h, hf])]
  all_goals
    simp [csrEffect, Idu.csrCmd, Idu.isCsr, Idu.isSystem, h, hf, Csr.csrWriteEn, Csr.csrSrc]

omit he hl in
/-- An operand the instruction does not read has no influence on what it does. -/
theorem fdEffect_congr {r1' r2' : BitVec 32}
    (hr : wMemReady true (xStage (dStage fd r1 r2) c) c.mtvec lsu = true)
    (h1 : decodeLegal fd.inst = true → Idu.readsRs1 fd.inst = true → r1 = r1')
    (h2 : decodeLegal fd.inst = true → Idu.readsRs2 fd.inst = true → r2 = r2') :
    fdEffect fd r1 r2 c lsu = fdEffect fd r1' r2' c lsu := by
  cases he : fd.instError with
  | true => rw [fdEffect_fetch_fault _ _ _ _ he, fdEffect_fetch_fault _ _ _ _ he]
  | false =>
  cases hl : decodeLegal fd.inst with
  | false => rw [fdEffect_illegal _ _ _ _ he hl, fdEffect_illegal _ _ _ _ he hl]
  | true =>
  rcases isLegal_cases (decodeLegal_isLegal hl) with h | h | h | ⟨h, h3⟩ | ⟨h, hk⟩ | ⟨h, hk⟩ |
    ⟨h, -⟩ | ⟨h, -⟩ | ⟨h, -⟩ | ⟨h, h3, hk⟩ | h | ⟨h, -⟩
  · rw [fdEffect_lui _ _ _ _ he hl h, fdEffect_lui _ _ _ _ he hl h]
  · rw [fdEffect_auipc _ _ _ _ he hl h, fdEffect_auipc _ _ _ _ he hl h]
  · rw [fdEffect_jal _ _ _ _ he hl h, fdEffect_jal _ _ _ _ he hl h]
  · obtain rfl := h1 hl (by simp [Idu.readsRs1, Idu.isJalr, h, h3])
    rw [fdEffect_jalr _ _ _ _ he hl h h3, fdEffect_jalr _ _ _ _ he hl h h3]
  · obtain rfl := h1 hl (by simp [Idu.readsRs1, Idu.isLoad, h])
    have hm := load_answered _ _ _ _ he hl h hk hr
    rw [fdEffect_load _ _ _ _ he hl h hk hm, fdEffect_load _ _ _ _ he hl h hk hm]
  · obtain rfl := h1 hl (by simp [Idu.readsRs1, Idu.isStore, h])
    obtain rfl := h2 hl (by simp [Idu.readsRs2, Idu.isStore, h])
    rfl
  · obtain rfl := h1 hl (by simp [Idu.readsRs1, Idu.isBranch, h])
    obtain rfl := h2 hl (by simp [Idu.readsRs2, Idu.isBranch, h])
    rfl
  · obtain rfl := h1 hl (by simp [Idu.readsRs1, Idu.isOpImm, h])
    rw [fdEffect_opImm _ _ _ _ he hl h, fdEffect_opImm _ _ _ _ he hl h]
  · obtain rfl := h1 hl (by simp [Idu.readsRs1, Idu.isOp, h])
    obtain rfl := h2 hl (by simp [Idu.readsRs2, Idu.isOp, h])
    rfl
  · rw [fdEffect_csr _ _ _ _ he hl h h3, fdEffect_csr _ _ _ _ he hl h h3]
    rw [csrEffect_congr h hk (h1 hl)]
  · rcases h with h | h | h | h
    · rw [fdEffect_ecall _ _ _ _ he hl h, fdEffect_ecall _ _ _ _ he hl h]
    · rw [fdEffect_ebreak _ _ _ _ he hl h, fdEffect_ebreak _ _ _ _ he hl h]
    · rw [fdEffect_mret _ _ _ _ he hl h, fdEffect_mret _ _ _ _ he hl h]
    · rw [fdEffect_wfi _ _ _ _ he hl h, fdEffect_wfi _ _ _ _ he hl h]
  · rw [fdEffect_fence _ _ _ _ he hl h, fdEffect_fence _ _ _ _ he hl h]

end Classes

end Npc.Core
