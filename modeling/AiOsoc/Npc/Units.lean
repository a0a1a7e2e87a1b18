import AiOsoc.Npc.Idu

/-!
# Execution units

The combinational `Exu.v` and `Lsu.v`, and the register units `RegFile.v`,
`Csr.v` and `Clint.v`. A unit with registers is a state and the value its
registers take at the next clock edge outside reset; `reset` is the value they
take under reset.
-/

namespace Npc

set_option autoImplicit false

namespace Exu

def equal (src1 src2 : BitVec 32) : Bool := src1 == src2
def lessSigned (src1 src2 : BitVec 32) : Bool := src1.slt src2
def lessUnsigned (src1 src2 : BitVec 32) : Bool := src1.ult src2

def result (aluOp : AluOp) (src1 src2 : BitVec 32) : BitVec 32 :=
  let shamt := src2.extractLsb' 0 5
  match aluOp with
  | .add => src1 + src2
  | .sub => src1 - src2
  | .sll => src1 <<< shamt
  | .slt => if lessSigned src1 src2 then 1#32 else 0#32
  | .sltu => if lessUnsigned src1 src2 then 1#32 else 0#32
  | .xor => src1 ^^^ src2
  | .srl => src1 >>> shamt
  | .sra => src1.sshiftRight shamt.toNat
  | .or => src1 ||| src2
  | .and => src1 &&& src2
  | .copyB => src2

end Exu

namespace Lsu

def alignedAddr (addr : BitVec 32) : BitVec 32 := addr.extractLsb' 2 30 ++ 0#2
def isUartMmio (addr : BitVec 32) : Bool := addr.extractLsb' 16 16 == 0x1000#16
def byteShift (addr : BitVec 32) : BitVec 5 := addr.extractLsb' 0 2 ++ 0#3
def storeWdata (addr wdata : BitVec 32) : BitVec 32 := wdata <<< byteShift addr
def byteMask (addr : BitVec 32) : BitVec 4 := 0b0001#4 <<< addr.extractLsb' 0 2
def halfMask (addr : BitVec 32) : BitVec 4 := 0b0011#4 <<< (addr.extractLsb' 1 1 ++ 0#1)

def busAddr (addr : BitVec 32) : BitVec 32 := if isUartMmio addr then addr else alignedAddr addr

def wmask (size : MemSize) (addr : BitVec 32) : BitVec 4 :=
  if size = .byte then byteMask addr else if size = .half then halfMask addr else 0b1111#4

def rdata (size : MemSize) (loadUnsigned : Bool) (addr : BitVec 32)
    (busReady : Bool) (busRdata : BitVec 32) : BitVec 32 :=
  let rawRdata := if busReady then busRdata else 0#32
  let shiftedRdata := rawRdata >>> byteShift addr
  let loadByte := shiftedRdata.extractLsb' 0 8
  let loadHalf := shiftedRdata.extractLsb' 0 16
  if size = .byte then
    if loadUnsigned then 0#24 ++ loadByte
    else (if loadByte.getLsbD 7 then BitVec.allOnes 24 else 0#24) ++ loadByte
  else if size = .half then
    if loadUnsigned then 0#16 ++ loadHalf
    else (if loadHalf.getLsbD 15 then BitVec.allOnes 16 else 0#16) ++ loadHalf
  else rawRdata

end Lsu

/-- The sixteen registers. Register 0 is a flop like the others; it is never
written after reset and never read. -/
abbrev RegFile := BitVec 4 → BitVec 32

namespace RegFile

def reset : RegFile := fun _ => 0#32

def rdata (regs : RegFile) (raddr : BitVec 4) : BitVec 32 :=
  if raddr = 0#4 then 0#32 else regs raddr

def next (regs : RegFile) (wen : Bool) (waddr : BitVec 4) (wdata : BitVec 32) : RegFile :=
  if wen && waddr != 0#4 then fun a => if a = waddr then wdata else regs a else regs

end RegFile

/-- The CSR registers; `mstatus` is a constant. -/
structure Csr where
  mtvec : BitVec 32
  mepc : BitVec 32
  mcause : BitVec 32
  deriving Repr, DecidableEq

namespace Csr

def reset : Csr := ⟨0#32, 0#32, 0#32⟩

def mstatusValue : BitVec 32 := 0x00001800#32

/-- `csr_old`, which is also the read port `rdata`. -/
def csrOld (c : Csr) (addr : BitVec 12) : BitVec 32 :=
  if addr == 0xf11#12 then 0#32
  else if addr == 0xf12#12 then 0#32
  else if addr == 0x300#12 then mstatusValue
  else if addr == 0x305#12 then c.mtvec
  else if addr == 0x341#12 then c.mepc
  else if addr == 0x342#12 then c.mcause else 0#32

def csrSrc (cmd : CsrCmd) (rs1Data : BitVec 32) (uimm : BitVec 5) : BitVec 32 :=
  if cmd = .rwi ∨ cmd = .rsi ∨ cmd = .rci then 0#27 ++ uimm else rs1Data

def csrWriteEn (cmd : CsrCmd) (rs1Data : BitVec 32) (uimm : BitVec 5) : Bool :=
  cmd = .rw || cmd = .rwi || ((cmd = .rs || cmd = .rc) && rs1Data != 0#32) ||
    ((cmd = .rsi || cmd = .rci) && uimm != 0#5)

def csrNext (old : BitVec 32) (cmd : CsrCmd) (src : BitVec 32) : BitVec 32 :=
  match cmd with
  | .rw | .rwi => src
  | .rs | .rsi => old ||| src
  | .rc | .rci => old &&& ~~~src
  | .none => old

/-- `{v[31:2], 2'b00}`. -/
def mask2 (v : BitVec 32) : BitVec 32 := v.extractLsb' 2 30 ++ 0#2

def write (c : Csr) (addr : BitVec 12) (v : BitVec 32) : Csr :=
  if addr = 0x305#12 then { c with mtvec := mask2 v }
  else if addr = 0x341#12 then { c with mepc := mask2 v }
  else if addr = 0x342#12 then { c with mcause := v } else c

/-- The inputs of the unit. `addr`, `cmd`, `rs1Data` and `uimm` are shared by
the X-stage read and the W-stage commit. -/
structure Port where
  addr : BitVec 12
  cmd : CsrCmd
  rs1Data : BitVec 32
  uimm : BitVec 5
  commitEn : Bool
  trapEn : Bool
  trapPc : BitVec 32
  trapCause : BitVec 32

def next (c : Csr) (p : Port) : Csr :=
  if p.trapEn then { c with mepc := mask2 p.trapPc, mcause := p.trapCause }
  else if p.commitEn && csrWriteEn p.cmd p.rs1Data p.uimm then
    c.write p.addr (csrNext (c.csrOld p.addr) p.cmd (csrSrc p.cmd p.rs1Data p.uimm))
  else c

end Csr

namespace Clint

def mtimeAddr : BitVec 32 := 0x0200bff8#32
def mtimehAddr : BitVec 32 := 0x0200bffc#32

def rdata (mtime : BitVec 64) (addr : BitVec 32) : BitVec 32 :=
  if addr == mtimeAddr then mtime.extractLsb' 0 32
  else if addr == mtimehAddr then mtime.extractLsb' 32 32 else 0#32

def next (mtime : BitVec 64) : BitVec 64 := mtime + 1#64

end Clint

end Npc
