import Mathlib.Logic.Function.Basic

/-!
# Instruction decoder

`rtl/core/Idu.v` and the encodings of `rtl/include/npc_defines.vh`. Every wire
of the decoder is a function of the instruction word; a Verilog slice
`inst[hi:lo]` is `inst.extractLsb' lo (hi - lo + 1)`.
-/

namespace Npc

set_option autoImplicit false

def resetPcDefault : BitVec 32 := 0x20000000#32

inductive TrapStatus where
  | running | good | bad | limit
  deriving Repr, DecidableEq

inductive AluOp where
  | add | sub | sll | slt | sltu | xor | srl | sra | or | and | copyB
  deriving Repr, DecidableEq

inductive ImmSel where
  | i | s | b | u | j
  deriving Repr, DecidableEq

inductive WbSel where
  | alu | mem | pc4 | csr
  deriving Repr, DecidableEq

inductive BranchOp where
  | none | beq | bne | blt | bge | bltu | bgeu
  deriving Repr, DecidableEq

inductive MemSize where
  | byte | half | word
  deriving Repr, DecidableEq

inductive SysCmd where
  | none | ecall | ebreak | mret | wfi | fence | fenceI
  deriving Repr, DecidableEq

inductive CsrCmd where
  | none | rw | rs | rc | rwi | rsi | rci
  deriving Repr, DecidableEq

namespace Exc

def instAddrMisaligned : BitVec 32 := 0#32
def instAccessFault : BitVec 32 := 1#32
def illegalInst : BitVec 32 := 2#32
def breakpoint : BitVec 32 := 3#32
def loadAddrMisaligned : BitVec 32 := 4#32
def loadAccessFault : BitVec 32 := 5#32
def storeAddrMisaligned : BitVec 32 := 6#32
def storeAccessFault : BitVec 32 := 7#32
def ecallM : BitVec 32 := 11#32

end Exc

namespace Idu

def opcode (inst : BitVec 32) : BitVec 7 := inst.extractLsb' 0 7
def rd (inst : BitVec 32) : BitVec 5 := inst.extractLsb' 7 5
def funct3 (inst : BitVec 32) : BitVec 3 := inst.extractLsb' 12 3
def rs1 (inst : BitVec 32) : BitVec 5 := inst.extractLsb' 15 5
def rs2 (inst : BitVec 32) : BitVec 5 := inst.extractLsb' 20 5
def funct7 (inst : BitVec 32) : BitVec 7 := inst.extractLsb' 25 7

/-- `{n{inst[31]}}`, the sign bit repeated in front of an immediate. -/
def signs (n : Nat) (inst : BitVec 32) : BitVec n :=
  if inst.getLsbD 31 then BitVec.allOnes n else 0#n

def immI (inst : BitVec 32) : BitVec 32 := signs 20 inst ++ inst.extractLsb' 20 12
def immS (inst : BitVec 32) : BitVec 32 :=
  signs 20 inst ++ inst.extractLsb' 25 7 ++ inst.extractLsb' 7 5
def immB (inst : BitVec 32) : BitVec 32 :=
  signs 20 inst ++ inst.extractLsb' 7 1 ++ inst.extractLsb' 25 6 ++ inst.extractLsb' 8 4 ++ 0#1
def immU (inst : BitVec 32) : BitVec 32 := inst.extractLsb' 12 20 ++ 0#12
def immJ (inst : BitVec 32) : BitVec 32 :=
  signs 12 inst ++ inst.extractLsb' 12 8 ++ inst.extractLsb' 20 1 ++ inst.extractLsb' 21 10 ++ 0#1

def csrAddr (inst : BitVec 32) : BitVec 12 := inst.extractLsb' 20 12
def csrUimm (inst : BitVec 32) : BitVec 5 := inst.extractLsb' 15 5

def isLui (inst : BitVec 32) : Bool := opcode inst == 0b0110111#7
def isAuipc (inst : BitVec 32) : Bool := opcode inst == 0b0010111#7
def isJal (inst : BitVec 32) : Bool := opcode inst == 0b1101111#7
def isJalr (inst : BitVec 32) : Bool := opcode inst == 0b1100111#7 && funct3 inst == 0b000#3
def isLoad (inst : BitVec 32) : Bool := opcode inst == 0b0000011#7
def isStore (inst : BitVec 32) : Bool := opcode inst == 0b0100011#7
def isBranch (inst : BitVec 32) : Bool := opcode inst == 0b1100011#7
def isOpImm (inst : BitVec 32) : Bool := opcode inst == 0b0010011#7
def isOp (inst : BitVec 32) : Bool := opcode inst == 0b0110011#7
def isFenceOp (inst : BitVec 32) : Bool := opcode inst == 0b0001111#7
def isSystem (inst : BitVec 32) : Bool := opcode inst == 0b1110011#7
def isCsr (inst : BitVec 32) : Bool := isSystem inst && funct3 inst != 0b000#3
def isEcall (inst : BitVec 32) : Bool := inst == 0x00000073#32
def isEbreak (inst : BitVec 32) : Bool := inst == 0x00100073#32
def isMret (inst : BitVec 32) : Bool := inst == 0x30200073#32
def isWfi (inst : BitVec 32) : Bool := inst == 0x10500073#32
def isFence (inst : BitVec 32) : Bool := isFenceOp inst && funct3 inst == 0b000#3
def isFenceI (inst : BitVec 32) : Bool := isFenceOp inst && funct3 inst == 0b001#3

def shamtHighValid : Bool := true

def opImmLegal (inst : BitVec 32) : Bool :=
  isOpImm inst && (
    funct3 inst == 0b000#3 ||
    funct3 inst == 0b010#3 ||
    funct3 inst == 0b011#3 ||
    funct3 inst == 0b100#3 ||
    funct3 inst == 0b110#3 ||
    funct3 inst == 0b111#3 ||
    (funct3 inst == 0b001#3 && funct7 inst == 0b0000000#7 && shamtHighValid) ||
    (funct3 inst == 0b101#3 && (funct7 inst == 0b0000000#7 || funct7 inst == 0b0100000#7) &&
      shamtHighValid))

def opLegal (inst : BitVec 32) : Bool :=
  isOp inst && (
    (funct7 inst ++ funct3 inst == 0b0000000#7 ++ 0b000#3) ||
    (funct7 inst ++ funct3 inst == 0b0100000#7 ++ 0b000#3) ||
    (funct7 inst ++ funct3 inst == 0b0000000#7 ++ 0b001#3) ||
    (funct7 inst ++ funct3 inst == 0b0000000#7 ++ 0b010#3) ||
    (funct7 inst ++ funct3 inst == 0b0000000#7 ++ 0b011#3) ||
    (funct7 inst ++ funct3 inst == 0b0000000#7 ++ 0b100#3) ||
    (funct7 inst ++ funct3 inst == 0b0000000#7 ++ 0b101#3) ||
    (funct7 inst ++ funct3 inst == 0b0100000#7 ++ 0b101#3) ||
    (funct7 inst ++ funct3 inst == 0b0000000#7 ++ 0b110#3) ||
    (funct7 inst ++ funct3 inst == 0b0000000#7 ++ 0b111#3))

def isBranchLegal (inst : BitVec 32) : Bool :=
  isBranch inst && (funct3 inst == 0b000#3 || funct3 inst == 0b001#3 ||
    funct3 inst == 0b100#3 || funct3 inst == 0b101#3 ||
    funct3 inst == 0b110#3 || funct3 inst == 0b111#3)

def loadLegal (inst : BitVec 32) : Bool :=
  isLoad inst && (funct3 inst == 0b000#3 || funct3 inst == 0b001#3 || funct3 inst == 0b010#3 ||
    funct3 inst == 0b100#3 || funct3 inst == 0b101#3)

def storeLegal (inst : BitVec 32) : Bool :=
  isStore inst && (funct3 inst == 0b000#3 || funct3 inst == 0b001#3 || funct3 inst == 0b010#3)

def csrKnown (inst : BitVec 32) : Bool :=
  csrAddr inst == 0xf11#12 || csrAddr inst == 0xf12#12 || csrAddr inst == 0x300#12 ||
    csrAddr inst == 0x305#12 || csrAddr inst == 0x341#12 || csrAddr inst == 0x342#12

def csrReadOnly (inst : BitVec 32) : Bool := csrAddr inst == 0xf11#12 || csrAddr inst == 0xf12#12

def csrWrites (inst : BitVec 32) : Bool :=
  (funct3 inst == 0b001#3 || funct3 inst == 0b101#3) ||
    ((funct3 inst == 0b010#3 || funct3 inst == 0b011#3) && rs1 inst != 0#5) ||
    ((funct3 inst == 0b110#3 || funct3 inst == 0b111#3) && csrUimm inst != 0#5)

def csrLegal (inst : BitVec 32) : Bool :=
  isCsr inst && csrKnown inst && !(csrReadOnly inst && csrWrites inst) &&
    (funct3 inst == 0b001#3 || funct3 inst == 0b010#3 || funct3 inst == 0b011#3 ||
      funct3 inst == 0b101#3 || funct3 inst == 0b110#3 || funct3 inst == 0b111#3)

def systemLegal (inst : BitVec 32) : Bool :=
  isEcall inst || isEbreak inst || isMret inst || isWfi inst || csrLegal inst

def isLegal (inst : BitVec 32) : Bool :=
  isLui inst || isAuipc inst || isJal inst || isJalr inst || loadLegal inst || storeLegal inst ||
    isBranchLegal inst || opImmLegal inst || opLegal inst || systemLegal inst ||
    isFence inst || isFenceI inst

def readsRs1 (inst : BitVec 32) : Bool :=
  isJalr inst || isLoad inst || isStore inst || isBranch inst || isOpImm inst || isOp inst ||
    (isCsr inst && (funct3 inst == 0b001#3 || funct3 inst == 0b010#3 || funct3 inst == 0b011#3))

def readsRs2 (inst : BitVec 32) : Bool := isStore inst || isBranch inst || isOp inst

def writesRd (inst : BitVec 32) : Bool :=
  isLui inst || isAuipc inst || isJal inst || isJalr inst || isLoad inst || isOpImm inst ||
    isOp inst || isCsr inst

def memRen (inst : BitVec 32) : Bool := loadLegal inst
def memWen (inst : BitVec 32) : Bool := storeLegal inst

def memSize (inst : BitVec 32) : MemSize :=
  if (funct3 inst).extractLsb' 0 2 == 0b00#2 then .byte
  else if (funct3 inst).extractLsb' 0 2 == 0b01#2 then .half else .word

def memUnsigned (inst : BitVec 32) : Bool := (funct3 inst).getLsbD 2

def csrCmd (inst : BitVec 32) : CsrCmd :=
  if !isCsr inst then .none
  else if funct3 inst == 0b001#3 then .rw
  else if funct3 inst == 0b010#3 then .rs
  else if funct3 inst == 0b011#3 then .rc
  else if funct3 inst == 0b101#3 then .rwi
  else if funct3 inst == 0b110#3 then .rsi else .rci

def sysCmd (inst : BitVec 32) : SysCmd :=
  if isEcall inst then .ecall
  else if isEbreak inst then .ebreak
  else if isMret inst then .mret
  else if isWfi inst then .wfi
  else if isFence inst then .fence
  else if isFenceI inst then .fenceI else .none

def branchOp (inst : BitVec 32) : BranchOp :=
  if !isBranch inst then .none
  else if funct3 inst == 0b000#3 then .beq
  else if funct3 inst == 0b001#3 then .bne
  else if funct3 inst == 0b100#3 then .blt
  else if funct3 inst == 0b101#3 then .bge
  else if funct3 inst == 0b110#3 then .bltu else .bgeu

def src1Pc (inst : BitVec 32) : Bool := isAuipc inst
def src2Imm (inst : BitVec 32) : Bool := !isOp inst

def wbSel (inst : BitVec 32) : WbSel :=
  if isLoad inst then .mem
  else if isCsr inst then .csr
  else if isJal inst || isJalr inst then .pc4 else .alu

def immSel (inst : BitVec 32) : ImmSel :=
  if isStore inst then .s
  else if isLui inst || isAuipc inst then .u
  else if isJal inst then .j else .i

def aluOp (inst : BitVec 32) : AluOp :=
  if isLui inst then .copyB
  else if !(isOp inst || isOpImm inst) then .add
  else if isOp inst && funct3 inst == 0b000#3 && funct7 inst == 0b0100000#7 then .sub
  else if funct3 inst == 0b001#3 then .sll
  else if funct3 inst == 0b010#3 then .slt
  else if funct3 inst == 0b011#3 then .sltu
  else if funct3 inst == 0b100#3 then .xor
  else if funct3 inst == 0b101#3 && funct7 inst == 0b0100000#7 then .sra
  else if funct3 inst == 0b101#3 then .srl
  else if funct3 inst == 0b110#3 then .or
  else if funct3 inst == 0b111#3 then .and else .add

end Idu

end Npc
