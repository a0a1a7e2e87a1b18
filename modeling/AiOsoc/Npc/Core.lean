import AiOsoc.Npc.Stages

/-!
# The core

The registers of `rtl/core/Core.v` with those of its submodules, the control
wires of the pipeline, and one clock edge. A wire is a function of the registers
and of the inputs of the cycle.
-/

namespace Npc.Core

set_option autoImplicit false

structure State where
  halted : Bool
  trapStatus : TrapStatus
  fPc : BitVec 32
  ifuPending : Bool
  dropFetchResponse : Bool
  fdValid : Bool
  fd : FD
  dxValid : Bool
  dx : DX
  xwValid : Bool
  xw : XW
  ifu : Ifu.State
  regs : RegFile
  csr : Csr
  mtime : BitVec 64
  axi : AxiMaster.State

structure Input where
  reset : Bool
  resetPc : BitVec 32
  axi : AxiIn
  deriving Repr, DecidableEq

def resetVector (resetPc : BitVec 32) : BitVec 32 :=
  if resetPc = 0#32 then resetPcDefault else resetPc

section Wires
variable (s : State) (i : Input)

/-! ## LSU, CLINT and arbiter wiring -/

def wLsuWen : Bool := wCanCompleteNoMemFault s.xwValid s.xw s.csr.mtvec && s.xw.memWen
def lsuRen : Bool :=
  !i.reset && !s.halted && wCanCompleteNoMemFault s.xwValid s.xw s.csr.mtvec && s.xw.memRen
def lsuWen : Bool := !i.reset && !s.halted && wLsuWen s

def lsuRawValid : Bool := lsuRen s i || lsuWen s i
def lsuRawAddr : BitVec 32 := Lsu.busAddr s.xw.lsuAddr
def lsuIsClint : Bool := lsuRawValid s i && (lsuRawAddr s).extractLsb' 16 16 == 0x0200#16
def lsuArbValid : Bool := lsuRawValid s i && !lsuIsClint s i

/-- The LSU side of the arbiter. -/
def lsuReq : BusReq where
  valid := lsuArbValid s i
  write := lsuWen s i
  addr := lsuRawAddr s
  len := 0#8
  wdata := Lsu.storeWdata s.xw.lsuAddr s.xw.rs2Data
  wmask := Lsu.wmask s.xw.memSize s.xw.lsuAddr

def ifuReq : BusReq := Ifu.busReq s.ifu
def axiReq : BusReq := AxiArbiter.bus (ifuReq s) (lsuReq s i)
def axiResp : BusResp := AxiMaster.resp s.axi i.axi
def lsuArbResp : BusResp := AxiArbiter.lsuResp (lsuReq s i) (axiResp s i)
def ifuBusResp : BusResp := AxiArbiter.ifuResp (ifuReq s) (lsuReq s i) (axiResp s i)

/-- `lsu_raw_ready`, `lsu_raw_rdata` and `lsu_raw_error`. -/
def lsuRaw : BusResp :=
  if lsuIsClint s i then ⟨lsuIsClint s i, Clint.rdata s.mtime (lsuRawAddr s), false⟩
  else lsuArbResp s i

/-! ## W stage -/

def wMemReadyNow : Bool := wMemReady s.xwValid s.xw s.csr.mtvec (lsuRaw s i)
def wRetireReady : Bool := !i.reset && !s.halted && s.xwValid && wMemReadyNow s i
def wWbWenNow : Bool := wWbWen s.xwValid s.xw s.csr.mtvec (lsuRaw s i)
def wbData : BitVec 32 := wWbMux s.xw (lsuRaw s i)
def wNextPcNow : BitVec 32 := wNextPc s.xwValid s.xw s.csr.mtvec (lsuRaw s i)
def wPreciseTrapNow : Bool := wPreciseTrap s.xwValid s.xw s.csr.mtvec (lsuRaw s i)
def wBadWithoutVectorNow : Bool := wBadWithoutVector s.xwValid s.xw s.csr.mtvec (lsuRaw s i)
def wCompleteInstNow : Bool := wCompleteInst s.xwValid s.xw s.csr.mtvec (lsuRaw s i)

def wCanForward : Bool := s.xwValid && wWbWenNow s i
def wRs1Match : Bool := Idu.readsRs1 s.fd.inst && s.xw.rd == Idu.rs1 s.fd.inst
def wRs2Match : Bool := Idu.readsRs2 s.fd.inst && s.xw.rd == Idu.rs2 s.fd.inst

/-! ## D-stage operands -/

def rfRs1Data : BitVec 32 := RegFile.rdata s.regs ((Idu.rs1 s.fd.inst).extractLsb' 0 4)
def rfRs2Data : BitVec 32 := RegFile.rdata s.regs ((Idu.rs2 s.fd.inst).extractLsb' 0 4)
def dRs1Data : BitVec 32 := if wCanForward s i && wRs1Match s then wbData s i else rfRs1Data s
def dRs2Data : BitVec 32 := if wCanForward s i && wRs2Match s then wbData s i else rfRs2Data s

/-! ## Stall, advance and redirect -/

def wLoadWaiting : Bool := s.xwValid && s.xw.memRen && !wMemReadyNow s i
def loadUseStall : Bool := wLoadWaiting s i && s.xw.writesRd && (wRs1Match s || wRs2Match s)
def wStageStall : Bool := s.xwValid && !wMemReadyNow s i
def xCanAdvance : Bool := s.dxValid && !wStageStall s i && (!s.xwValid || wRetireReady s i)
def dCanAdvance : Bool :=
  s.fdValid && !wStageStall s i && !loadUseStall s i && (!s.dxValid || xCanAdvance s i)
def fdCanAccept : Bool := !s.fdValid || dCanAdvance s i
def xRedirect : Bool := s.dxValid && xTakes s.dx
def wRedirect : Bool := wRetireReady s i && wTakes s.xwValid s.xw s.csr.mtvec (lsuRaw s i)
def redirect : Bool := xRedirect s || wRedirect s i

/-! ## IFU interface -/

def ifuFetchValid : Bool :=
  !s.halted && !i.reset && !s.fdValid && !s.dropFetchResponse && !redirect s i
def ifuInvalidate : Bool := wRetireReady s i && wCompleteInstNow s i && s.xw.isFenceI

def ifuPort : Ifu.Port where
  invalidate := ifuInvalidate s i
  fetchValid := ifuFetchValid s i
  pc := s.fPc
  bus := ifuBusResp s i

def ifuInstReady : Bool := Ifu.instReady s.ifu (ifuPort s i)
def ifuInst : BitVec 32 := Ifu.inst s.ifu (ifuPort s i)
def ifuInstError : Bool := Ifu.instError s.ifu (ifuPort s i)

/-- The address and command inputs of `Csr` follow X when X is occupied. -/
def csrPort : Csr.Port where
  addr := if s.dxValid then s.dx.csrAddr else s.xw.csrAddr
  cmd := if s.dxValid then s.dx.csrCmd else s.xw.csrCmd
  rs1Data := if s.dxValid then s.dx.rs1Data else s.xw.rs1Data
  uimm := if s.dxValid then s.dx.csrUimm else s.xw.csrUimm
  commitEn := wRetireReady s i && wCompleteInstNow s i && s.xw.csrCmd ≠ .none
  trapEn := wRetireReady s i && wPreciseTrapNow s i
  trapPc := s.xw.pc
  trapCause := wExceptionCause s.xwValid s.xw s.csr.mtvec (lsuRaw s i)

/-- `csr_rdata`, read through the shared port. -/
def csrRdata : BitVec 32 := s.csr.csrOld (csrPort s i).addr

/-! ## Commit outputs of the `NPC_DEBUG` build -/

def debugPc : BitVec 32 :=
  if s.xwValid then s.xw.pc
  else if s.dxValid then s.dx.pc
  else if s.fdValid then s.fd.pc else s.fPc
def commitPc : BitVec 32 := s.xw.pc
def commitInst : BitVec 32 := s.xw.inst
def commitNextPc : BitVec 32 := if s.xw.redirect then s.xw.redirectPc else wNextPcNow s i
def commitWen : Bool := wWbWenNow s i
def commitRd : BitVec 5 := s.xw.rd
def commitWdata : BitVec 32 := wbData s i
def commitException : Bool :=
  wBadWithoutVectorNow s i || s.xw.instError ||
    wMemAccessFault s.xwValid s.xw s.csr.mtvec (lsuRaw s i)
def commitCause : BitVec 32 := wExceptionCause s.xwValid s.xw s.csr.mtvec (lsuRaw s i)

end Wires

section Clock
variable (s : State) (i : Input)

/-! ## One clock edge

The blocks of the `always` block in source order. Right-hand sides read the
registers `s` before the edge; `n` collects the assignments, so that the last
assignment to a register wins. -/

def updPending (n : State) : State :=
  if ifuInstReady s i then { n with ifuPending := false }
  else if ifuFetchValid s i then { n with ifuPending := true } else n

def updFetch (n : State) : State :=
  if wRedirect s i then
    { n with
      fPc := wNextPcNow s i
      fdValid := false
      dxValid := false
      xwValid := false
      dropFetchResponse := s.ifuPending && !ifuInstReady s i }
  else if xRedirect s then
    { n with
      fPc := xRedirectPc s.dx s.csr.mepc
      fdValid := false
      dxValid := false
      dropFetchResponse := s.ifuPending && !ifuInstReady s i }
  else if ifuInstReady s i && s.dropFetchResponse then { n with dropFetchResponse := false }
  else if ifuInstReady s i && fdCanAccept s i then
    { n with
      fdValid := true
      fd := ⟨s.fPc, ifuInst s i, ifuInstError s i⟩
      fPc := s.fPc + 4#32 }
  else if dCanAdvance s i then { n with fdValid := false } else n

def updHalt (n : State) : State :=
  if !s.halted && wRetireReady s i && wBadWithoutVectorNow s i then
    { n with halted := true, trapStatus := .bad } else n

def updDX (n : State) : State :=
  if wRedirect s i || xRedirect s then { n with dxValid := false }
  else if wStageStall s i || loadUseStall s i then { n with dxValid := s.dxValid }
  else if dCanAdvance s i then
    { n with dxValid := true, dx := dStage s.fd (dRs1Data s i) (dRs2Data s i) }
  else if xCanAdvance s i then { n with dxValid := false } else n

def updXW (n : State) : State :=
  if wRedirect s i then { n with xwValid := false }
  else if wStageStall s i then { n with xwValid := s.xwValid }
  else if xCanAdvance s i then
    { n with xwValid := true, xw := { xStage s.dx s.csr with csrRdata := csrRdata s i } }
  else if wRetireReady s i then { n with xwValid := false } else n

/-- The submodules see the same edge. -/
def updUnits (n : State) : State :=
  { n with
    ifu := Ifu.next s.ifu (ifuPort s i)
    regs := RegFile.next s.regs (!i.reset && !s.halted && wWbWenNow s i)
      (s.xw.rd.extractLsb' 0 4) (wbData s i)
    csr := Csr.next s.csr (csrPort s i)
    mtime := Clint.next s.mtime
    axi := AxiMaster.next s.axi (axiReq s i) i.axi }

def clock : State :=
  updUnits s i (updXW s i (updDX s i (updHalt s i (updFetch s i (updPending s i s)))))

/-- An edge under reset; the boundary registers without a valid bit keep their
old contents. -/
def resetEdge : State :=
  { s with
    halted := false
    trapStatus := .running
    fPc := resetVector i.resetPc
    ifuPending := false
    dropFetchResponse := false
    fdValid := false
    dxValid := false
    xwValid := false
    ifu := Ifu.reset
    regs := RegFile.reset
    csr := Csr.reset
    mtime := 0#64
    axi := AxiMaster.reset }

def step : State := if i.reset then resetEdge s i else clock s i

end Clock

end Npc.Core
