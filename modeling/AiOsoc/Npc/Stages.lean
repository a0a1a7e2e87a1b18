import AiOsoc.Npc.Ifu

/-!
# Pipeline stages

The datapath of `rtl/core/Core.v` stage by stage, as functions of the boundary
registers: D turns a fetched word and two operands into the D/X registers, X
turns these into the X/W registers, and W decides writeback, traps and the next
pc from the X/W registers, `mtvec` and the answer of the LSU port. The clocked
core and the one-instruction-at-a-time machine are both built from them.
-/

namespace Npc.Core

set_option autoImplicit false

/-- F/D boundary registers. -/
structure FD where
  pc : BitVec 32
  inst : BitVec 32
  instError : Bool
  deriving Repr, DecidableEq

/-- D/X boundary registers. -/
structure DX where
  pc : BitVec 32
  inst : BitVec 32
  instError : Bool
  rd : BitVec 5
  writesRd : Bool
  wbSel : WbSel
  memRen : Bool
  memWen : Bool
  memSize : MemSize
  memUnsigned : Bool
  csrCmd : CsrCmd
  csrAddr : BitVec 12
  csrUimm : BitVec 5
  rs1Data : BitVec 32
  rs2Data : BitVec 32
  imm : BitVec 32
  aluOp : AluOp
  branchOp : BranchOp
  src1Pc : Bool
  src2Imm : Bool
  isJal : Bool
  isJalr : Bool
  isMret : Bool
  isFenceI : Bool
  decodeLegal : Bool
  isEcall : Bool
  isEbreak : Bool
  deriving Repr, DecidableEq

/-- X/W boundary registers, with the three of the `NPC_DEBUG` build. -/
structure XW where
  pc : BitVec 32
  inst : BitVec 32
  redirect : Bool
  redirectPc : BitVec 32
  instError : Bool
  rd : BitVec 5
  writesRd : Bool
  wbSel : WbSel
  memRen : Bool
  memWen : Bool
  memSize : MemSize
  memUnsigned : Bool
  csrCmd : CsrCmd
  csrAddr : BitVec 12
  csrUimm : BitVec 5
  csrRdata : BitVec 32
  rs1Data : BitVec 32
  rs2Data : BitVec 32
  aluResult : BitVec 32
  lsuAddr : BitVec 32
  isMret : Bool
  isFenceI : Bool
  decodeLegal : Bool
  pcException : Bool
  memMisaligned : Bool
  isEcall : Bool
  isEbreak : Bool
  deriving Repr, DecidableEq

/-! ## D stage -/

def rdValid (inst : BitVec 32) : Bool := !Idu.writesRd inst || (Idu.rd inst).getLsbD 4 == false
def rs1Valid (inst : BitVec 32) : Bool := !Idu.readsRs1 inst || (Idu.rs1 inst).getLsbD 4 == false
def rs2Valid (inst : BitVec 32) : Bool := !Idu.readsRs2 inst || (Idu.rs2 inst).getLsbD 4 == false

/-- The D-stage legality signal. -/
def decodeLegal (inst : BitVec 32) : Bool :=
  Idu.isLegal inst && rdValid inst && rs1Valid inst && rs2Valid inst

def immData (inst : BitVec 32) : BitVec 32 :=
  match Idu.immSel inst with
  | .s => Idu.immS inst
  | .b => Idu.immB inst
  | .u => Idu.immU inst
  | .j => Idu.immJ inst
  | .i => Idu.immI inst

/-- The D/X registers loaded for the instruction in F/D and its operands. -/
def dStage (fd : FD) (rs1Data rs2Data : BitVec 32) : DX where
  pc := fd.pc
  inst := fd.inst
  instError := fd.instError
  rd := Idu.rd fd.inst
  writesRd := Idu.writesRd fd.inst
  wbSel := Idu.wbSel fd.inst
  memRen := Idu.memRen fd.inst
  memWen := Idu.memWen fd.inst
  memSize := Idu.memSize fd.inst
  memUnsigned := Idu.memUnsigned fd.inst
  csrCmd := Idu.csrCmd fd.inst
  csrAddr := Idu.csrAddr fd.inst
  csrUimm := Idu.csrUimm fd.inst
  rs1Data := rs1Data
  rs2Data := rs2Data
  imm := immData fd.inst
  aluOp := Idu.aluOp fd.inst
  branchOp := Idu.branchOp fd.inst
  src1Pc := Idu.src1Pc fd.inst
  src2Imm := Idu.src2Imm fd.inst
  isJal := Idu.isJal fd.inst
  isJalr := Idu.isJalr fd.inst
  isMret := Idu.sysCmd fd.inst = .mret
  isFenceI := Idu.sysCmd fd.inst = .fenceI
  decodeLegal := Core.decodeLegal fd.inst
  isEcall := Idu.sysCmd fd.inst = .ecall
  isEbreak := Idu.sysCmd fd.inst = .ebreak

/-! ## X stage -/

section X
variable (x : DX)

/-- The branch and jump immediates are sliced again from `dx_inst`. -/
def xImmB : BitVec 32 := Idu.immB x.inst
def xImmJ : BitVec 32 := Idu.immJ x.inst

def xAluSrc1 : BitVec 32 := if x.src1Pc then x.pc else x.rs1Data
def xAluSrc2 : BitVec 32 :=
  if x.branchOp ≠ .none then x.rs2Data else if x.src2Imm then x.imm else x.rs2Data

/-- The operands of the one adder behind ALU, addresses and targets. -/
def adderSrc1 : BitVec 32 :=
  if x.branchOp ≠ .none then x.pc
  else if x.isJal then x.pc
  else if x.isJalr then x.rs1Data
  else if x.memRen || x.memWen then x.rs1Data else xAluSrc1 x
def adderSrc2 : BitVec 32 :=
  if x.branchOp ≠ .none then xImmB x
  else if x.isJal then xImmJ x
  else if x.isJalr then x.imm
  else if x.memRen || x.memWen then x.imm else xAluSrc2 x
def adderResult : BitVec 32 :=
  if x.aluOp = .sub then adderSrc1 x - adderSrc2 x else adderSrc1 x + adderSrc2 x

def xAluResult : BitVec 32 :=
  if x.aluOp = .add ∨ x.aluOp = .sub then adderResult x
  else Exu.result x.aluOp (xAluSrc1 x) (xAluSrc2 x)

def xJalrTarget : BitVec 32 := adderResult x &&& ~~~1#32

def xBranchTaken : Bool :=
  match x.branchOp with
  | .beq => Exu.equal (xAluSrc1 x) (xAluSrc2 x)
  | .bne => !Exu.equal (xAluSrc1 x) (xAluSrc2 x)
  | .blt => Exu.lessSigned (xAluSrc1 x) (xAluSrc2 x)
  | .bge => !Exu.lessSigned (xAluSrc1 x) (xAluSrc2 x)
  | .bltu => Exu.lessUnsigned (xAluSrc1 x) (xAluSrc2 x)
  | .bgeu => !Exu.lessUnsigned (xAluSrc1 x) (xAluSrc2 x)
  | .none => false

/-- `x_redirect` of a valid X stage. -/
def xTakes : Bool := x.isMret || x.isJalr || x.isJal || xBranchTaken x

def xRedirectPc (mepc : BitVec 32) : BitVec 32 :=
  if x.isMret then mepc else if x.isJalr then xJalrTarget x else adderResult x

def xMemMisaligned : Bool :=
  (x.memRen || x.memWen) &&
    ((x.memSize = .half && (adderResult x).getLsbD 0 != false) ||
      (x.memSize = .word && (adderResult x).extractLsb' 0 2 != 0b00#2))

def xPcException : Bool :=
  x.decodeLegal &&
    ((xBranchTaken x && (adderResult x).extractLsb' 0 2 != 0b00#2) ||
      (x.isJal && (adderResult x).extractLsb' 0 2 != 0b00#2) ||
      (x.isJalr && (xJalrTarget x).extractLsb' 0 2 != 0b00#2))

/-- The X/W registers loaded for the instruction in D/X, given the CSRs. -/
def xStage (c : Csr) : XW where
  pc := x.pc
  inst := x.inst
  redirect := xTakes x
  redirectPc := xRedirectPc x c.mepc
  instError := x.instError
  rd := x.rd
  writesRd := x.writesRd
  wbSel := x.wbSel
  memRen := x.memRen
  memWen := x.memWen
  memSize := x.memSize
  memUnsigned := x.memUnsigned
  csrCmd := x.csrCmd
  csrAddr := x.csrAddr
  csrUimm := x.csrUimm
  csrRdata := c.csrOld x.csrAddr
  rs1Data := x.rs1Data
  rs2Data := x.rs2Data
  aluResult := xAluResult x
  lsuAddr := adderResult x
  isMret := x.isMret
  isFenceI := x.isFenceI
  decodeLegal := x.decodeLegal
  pcException := xPcException x
  memMisaligned := xMemMisaligned x
  isEcall := x.isEcall
  isEbreak := x.isEbreak

end X

/-! ## W stage -/

section W
variable (valid : Bool) (w : XW) (mtvec : BitVec 32)

def wBaseTrapRequest : Bool :=
  w.instError || !w.decodeLegal || w.pcException || w.memMisaligned || w.isEcall || w.isEbreak

def wCanCompleteNoMemFault : Bool :=
  valid && !w.instError && w.decodeLegal && !w.memMisaligned && !w.pcException && !w.isEcall &&
    !(wBaseTrapRequest w && mtvec != 0#32)

def wMemAccess : Bool := wCanCompleteNoMemFault valid w mtvec && (w.memRen || w.memWen)

def wPcPlus4 : BitVec 32 := w.pc + 4#32

variable (lsu : BusResp)

def wMemAccessFault : Bool := wMemAccess valid w mtvec && lsu.ready && lsu.error
def wTrapRequest : Bool := wBaseTrapRequest w || wMemAccessFault valid w mtvec lsu
def wPreciseTrap : Bool := wTrapRequest valid w mtvec lsu && mtvec != 0#32
def wBadWithoutVector : Bool := wTrapRequest valid w mtvec lsu && mtvec == 0#32
def wCompleteInst : Bool :=
  wCanCompleteNoMemFault valid w mtvec && !wMemAccessFault valid w mtvec lsu
def wMemReady : Bool := !wMemAccess valid w mtvec || lsu.ready
def wWbWen : Bool :=
  wCompleteInst valid w mtvec lsu && wMemReady valid w mtvec lsu && w.writesRd && w.rd != 0#5 &&
    !w.isMret

def wExceptionCause : BitVec 32 :=
  if w.instError then Exc.instAccessFault
  else if !w.decodeLegal then Exc.illegalInst
  else if w.pcException then Exc.instAddrMisaligned
  else if w.memRen && w.memMisaligned then Exc.loadAddrMisaligned
  else if w.memWen && w.memMisaligned then Exc.storeAddrMisaligned
  else if w.memRen && wMemAccessFault valid w mtvec lsu then Exc.loadAccessFault
  else if w.memWen && wMemAccessFault valid w mtvec lsu then Exc.storeAccessFault
  else if w.isEcall then Exc.ecallM
  else if w.isEbreak then Exc.breakpoint else 0#32

def wNextPc : BitVec 32 :=
  if wPreciseTrap valid w mtvec lsu then mtvec
  else if wBadWithoutVector valid w mtvec lsu then w.pc else wPcPlus4 w

def wLsuRdata : BitVec 32 :=
  Lsu.rdata w.memSize w.memUnsigned w.lsuAddr lsu.ready lsu.rdata

/-- `w_wb_mux`, which is both `wb_data` and `w_forward_data`. -/
def wWbMux : BitVec 32 :=
  match w.wbSel with
  | .mem => wLsuRdata w lsu
  | .pc4 => wPcPlus4 w
  | .csr => w.csrRdata
  | .alu => w.aluResult

/-- What makes a retiring instruction redirect the fetch from W. -/
def wTakes : Bool :=
  wPreciseTrap valid w mtvec lsu || wBadWithoutVector valid w mtvec lsu ||
    (wCompleteInst valid w mtvec lsu && w.isFenceI)

end W

end Npc.Core
