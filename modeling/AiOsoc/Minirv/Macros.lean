import AiOsoc.StraightLine

/-!
# The macros of minirv

`tools/minirv/inst-replace.h`: every instruction of RV32E as a sequence of `add`,
`addi`, `lui`, `lw`, `lbu`, `sw`, `sb` and `jalr`. The macros keep intermediate
values in `gp` and `tp`, which the compiler does not use, in seven words below
`sp`, and in an array of 256 bytes; the rest they look up in tables.
-/

namespace Minirv

set_option autoImplicit false

open Rv32e

def x0 : Reg := 0#5
def gp : Reg := 3#5
def tp : Reg := 4#5
def s0 : Reg := 8#5
def s1 : Reg := 9#5

/-- The addresses of the tables and of the array. -/
structure Symbols where
  sameResultTable : BitVec 32
  check8bit0Table : BitVec 32
  slt1Table : BitVec 32
  sltu1Table : BitVec 32
  or1Table : BitVec 32
  logicShiftTable : BitVec 32
  checkSameArray : BitVec 32
  deriving Repr, DecidableEq

namespace Symbols
variable (sym : Symbols)

def and8Table : BitVec 32 := sym.logicShiftTable
def or8Table : BitVec 32 := sym.and8Table + 0x10000#32
def xor8Table : BitVec 32 := sym.or8Table + 0x10000#32
def sll8Table : BitVec 32 := sym.xor8Table + 0x10000#32
def srl8Table : BitVec 32 := sym.sll8Table + 0x8000#32
def sra8Table : BitVec 32 := sym.srl8Table + 0x8000#32

end Symbols

/-! ## The words below the stack pointer -/

def spVarByte (n boffset : Nat) : BitVec 12 := BitVec.ofInt 12 (-(n : Int) * 4 + boffset)
def spVar (n : Nat) : BitVec 12 := spVarByte n 0

def varA : Nat := 4
def varB : Nat := 5
def varC : Nat := 6
def varD : Nat := 7

def push (r : Reg) (n : Nat) : Instr := sw r (spVar n) sp
def pop (r : Reg) (n : Nat) : Instr := lw r (spVar n) sp

/-! ## Instructions -/

def hi (addr : BitVec 32) : BitVec 20 := (addr + 0x800#32).extractLsb' 12 20
def lo (addr : BitVec 32) : BitVec 12 := addr.extractLsb' 0 12

def la (r : Reg) (addr : BitVec 32) : List Instr := [.lui r (hi addr), addi r r (lo addr)]

def getbyte (rd rs1 : Reg) (byte : Nat) : List Instr :=
  [sw rs1 (spVar varC) sp, lbu rd (spVarByte varC byte) sp]

/-- The doublings of `slli`. -/
def doublings (rd rs1 : Reg) (imm : Nat) : List Instr :=
  add rd rs1 rs1 :: List.replicate (imm - 1) (add rd rd rd)

/-- `slli rd, rd, imm` for the amount that is left after a move by bytes. -/
def slliRest (rd : Reg) (imm : Nat) : List Instr := if imm = 0 then [] else doublings rd rd imm

def sh (rs rs1 : Reg) (imm : BitVec 12) : List Instr :=
  [sb rs imm rs1] ++ getbyte tp rs 1 ++ [sb tp (imm + 1#12) rs1]

def slli (rd rs1 : Reg) (imm : Nat) : List Instr :=
  if imm = 0 then if rd ≠ rs1 then [mv rd rs1] else []
  else if imm ≥ 24 then
    [sw x0 (spVar varA) sp, sb rs1 (spVarByte varA 3) sp, lw rd (spVar varA) sp] ++
      slliRest rd (imm - 24)
  else if imm ≥ 16 then
    [sw x0 (spVar varA) sp] ++ sh rs1 sp (spVarByte varA 2) ++ [lw rd (spVar varA) sp] ++
      slliRest rd (imm - 16)
  else doublings rd rs1 imm

def msb (rd rs1 : Reg) : List Instr := getbyte rd rs1 3 ++ slli rd rd 1 ++ getbyte rd rd 1

/-- One byte of `not`. -/
def notByte (boffset : Nat) : List Instr :=
  [lbu gp (spVarByte varC boffset) sp, add gp gp tp, lbu gp 0#12 gp,
    sb gp (spVarByte varD boffset) sp]

section Tables
variable (sym : Symbols)

def not (rd rs1 : Reg) : List Instr :=
  [push gp 3, sw rs1 (spVar varC) sp] ++ la tp (sym.xor8Table + 0xff00#32) ++
    notByte 3 ++ notByte 2 ++ notByte 1 ++ notByte 0 ++ [pop gp 3, lw rd (spVar varD) sp]

def sub (rd rs1 rs2 : Reg) : List Instr :=
  not sym tp rs2 ++ [add rd rs1 tp, addi rd rd 1#12]

def sltTemplate (lut : BitVec 32) (rd rs1 rs2 : Reg) : List Instr :=
  [push s0 1, push s1 2, sw rs2 (spVar varA) sp, mv s0 rs1, lw s1 (spVar varA) sp] ++
    msb gp s0 ++ slli gp gp 1 ++
    msb tp s1 ++ [add gp gp tp] ++ slli gp gp 1 ++
    sub sym tp s0 s1 ++ msb tp tp ++ [add gp gp tp] ++
    la tp lut ++ [add tp tp gp, pop s1 2, pop s0 1, lbu rd 0#12 tp]

def slt (rd rs1 rs2 : Reg) : List Instr := sltTemplate sym sym.slt1Table rd rs1 rs2
def sltu (rd rs1 rs2 : Reg) : List Instr := sltTemplate sym sym.sltu1Table rd rs1 rs2

end Tables

def logic8ByteInternal (lutReg : Reg) (boffset : Nat) : List Instr :=
  [lbu tp (spVarByte varA boffset) sp, sb tp (spVarByte varD 1) sp,
    lbu tp (spVarByte varB boffset) sp, sb tp (spVarByte varD 0) sp,
    lw tp (spVar varD) sp, add tp lutReg tp, lbu tp 0#12 tp, sb tp (spVarByte varC boffset) sp]

/-- The assembler stops at an operand that the macro cannot take. -/
def logic (lut : BitVec 32) (rd rs1 rs2 : Reg) : Option (List Instr) :=
  if rd = x0 then some []
  else if rd = sp ∨ rs1 = sp ∨ rs2 = sp then none
  else if rd = gp ∨ rs1 = gp ∨ rs2 = gp then none
  else if rd = tp ∨ rs1 = tp then none
  else some ([sw rs1 (spVar varA) sp, sw rs2 (spVar varB) sp] ++ la rd lut ++
    [sw x0 (spVar varD) sp] ++ logic8ByteInternal rd 3 ++ logic8ByteInternal rd 2 ++
    logic8ByteInternal rd 1 ++ logic8ByteInternal rd 0 ++ [lw rd (spVar varC) sp])

def check8bitSame (table rd : Reg) (boffset : Nat) : List Instr :=
  [lbu rd (spVarByte varA boffset) sp, add tp table rd, addi rd x0 1#12, sb rd 0#12 tp,
    lbu rd (spVarByte varB boffset) sp, add rd table rd, sb x0 0#12 rd, lbu rd 0#12 tp]

section Compare
variable (sym : Symbols)

def seq (rd rs1 rs2 : Reg) : List Instr :=
  [sw rs1 (spVar varA) sp, sw rs2 (spVar varB) sp, push s0 1, push s1 2] ++
    la s0 sym.checkSameArray ++ check8bitSame s0 gp 0 ++
    check8bitSame s0 s1 1 ++ [add gp gp s1] ++
    check8bitSame s0 s1 2 ++ [add gp gp s1] ++
    check8bitSame s0 s1 3 ++ [add gp gp s1] ++
    la tp sym.sameResultTable ++ [add tp tp gp, lbu rd 0#12 tp, pop s1 2, pop s0 1]

def check8bit0 (table rd : Reg) (boffset : Nat) : List Instr :=
  [lbu rd (spVarByte varA boffset) sp, add rd table rd, lbu rd 0#12 rd]

def seqz (rd rs1 : Reg) : List Instr :=
  [sw rs1 (spVar varA) sp, push s0 1] ++ la s0 sym.check8bit0Table ++
    check8bit0 s0 gp 0 ++ check8bit0 s0 tp 1 ++ [add gp gp tp] ++
    check8bit0 s0 tp 2 ++ [add gp gp tp] ++ check8bit0 s0 tp 3 ++ [add gp gp tp] ++
    la tp sym.sameResultTable ++ [add tp tp gp, lbu rd 0#12 tp, pop s0 1]

/-! ## Branches -/

/-- `tp` selects one of two addresses; `high` says which one is the target. -/
def branchResolve (target next : BitVec 32) (high : Bool) : List Instr :=
  slli tp tp 2 ++ [add tp sp tp] ++
    (if high then la gp target ++ [sw gp (spVar varA) sp] ++ la gp next ++ [sw gp (spVar varB) sp]
    else la gp next ++ [sw gp (spVar varA) sp] ++ la gp target ++ [sw gp (spVar varB) sp]) ++
    [lw tp (BitVec.ofInt 12 (-(varB : Int) * 4)) tp, .jalr x0 tp 0#12]

/-- `tp` is 1 if `rs2 <= 0`. -/
def notPositive (rs2 : Reg) : List Instr :=
  msb gp rs2 ++ [addi tp rs2 (-1#12)] ++ msb tp tp ++ [add gp gp tp] ++ la tp sym.or1Table ++
    [add tp gp tp, lbu tp 0#12 tp]

def equal (rs1 rs2 : Reg) : List Instr :=
  if rs2 = x0 then seqz sym tp rs1 else if rs1 = x0 then seqz sym tp rs2 else seq sym tp rs1 rs2

/-- The value in `tp` that a branch tests, and the value for which it is taken. -/
def condition (cond : Cond) (rs1 rs2 : Reg) : List Instr × Bool :=
  match cond with
  | .eq => (equal sym rs1 rs2, true)
  | .ne => (equal sym rs1 rs2, false)
  | .lt =>
    if rs2 = x0 then (msb tp rs1, true)
    else if rs1 = x0 then (notPositive sym rs2, false)
    else (slt sym tp rs1 rs2, true)
  | .ltu => (sltu sym tp rs1 rs2, true)
  | .ge => if rs1 = x0 then (notPositive sym rs2, true) else (slt sym tp rs1 rs2, false)
  | .geu => (sltu sym tp rs1 rs2, false)

def branch (cond : Cond) (rs1 rs2 : Reg) (target next : BitVec 32) : List Instr :=
  (condition sym cond rs1 rs2).1 ++ branchResolve target next (condition sym cond rs1 rs2).2

/-! ## Shifts -/

def getshamt (rd rs1 : Reg) : List Instr :=
  [sb rs1 (spVarByte varB 0) sp, lbu rd (spVarByte varB 0) sp] ++
    la tp (sym.and8Table + 0x1f00#32) ++ [add rd rd tp, lbu rd 0#12 rd]

def getShiftByteInTp (base : Reg) (boffset : Nat) : List Instr :=
  [lbu tp (spVarByte varA boffset) sp] ++ slli tp tp 2 ++ [add tp base tp, lw tp 0#12 tp]

/-- `s0` gets the row of the table for the amount in `rs2`. -/
def shiftRow (table : BitVec 32) (rs2 : Reg) : List Instr :=
  getshamt sym s0 rs2 ++
    [sw x0 (spVar varB) sp, sb s0 (spVarByte varB 1) sp, lw s0 (spVar varB) sp] ++
    slli s0 s0 2 ++ la tp table ++ [add s0 s0 tp]

def sll (rd rs1 rs2 : Reg) : List Instr :=
  [push s0 1, sw rs1 (spVar varA) sp] ++ shiftRow sym sym.sll8Table rs2 ++
    [sw x0 (spVar varB) sp] ++ getShiftByteInTp s0 3 ++
    [sb tp (spVarByte varB 3) sp, lw gp (spVar varB) sp] ++
    getShiftByteInTp s0 2 ++ sh tp sp (spVarByte varB 2) ++ [lw tp (spVar varB) sp, add gp gp tp] ++
    getShiftByteInTp s0 1 ++ slli tp tp 8 ++ [add gp gp tp] ++
    getShiftByteInTp s0 0 ++ [pop s0 1, add rd gp tp]

/-- The amount of a shift to the right: a register, or a constant. -/
inductive Amount where
  | reg (rs2 : Reg)
  | imm (shamt : Nat)
  deriving Repr, DecidableEq

def shiftRightBase (amount : Amount) : List Instr :=
  match amount with
  | .reg rs2 => shiftRow sym sym.srl8Table rs2
  | .imm shamt => la s0 (sym.srl8Table + BitVec.ofNat 32 (shamt <<< 10))

/-- The three lower bytes of the operand, each shifted to its place. -/
def shiftRightLow : List Instr :=
  getShiftByteInTp s0 2 ++ [sw tp (spVar varB) sp] ++
    getShiftByteInTp s0 1 ++ [sw tp (spVar varC) sp] ++
    getShiftByteInTp s0 0 ++ [sw tp (spVar varD) sp] ++
    [lbu gp (spVarByte varB 1) sp, lbu tp (spVarByte varC 2) sp, add gp gp tp,
      lbu tp (spVarByte varD 3) sp, add gp gp tp, sw gp (spVar varD) sp,
      lbu gp (spVarByte varB 2) sp, lbu tp (spVarByte varC 3) sp, add gp gp tp,
      sb gp (spVarByte varD 1) sp,
      lbu gp (spVarByte varB 3) sp, sb gp (spVarByte varD 2) sp,
      lw gp (spVar varD) sp]

def shiftRightTemplate (rd rs1 : Reg) (amount : Amount) (arith : Bool) : List Instr :=
  if amount = .imm 24 then
    if arith then
      [sw rs1 (spVar varA) sp] ++ la tp (sym.sra8Table + BitVec.ofNat 32 (24 <<< 10)) ++
        [lbu rd (spVarByte varA 3) sp] ++ slli rd rd 2 ++ [add tp tp rd, lw rd 0#12 tp]
    else getbyte rd rs1 3
  else
    [push s0 1, sw rs1 (spVar varA) sp] ++ shiftRightBase sym amount ++ shiftRightLow ++
      (if arith then la tp (sym.sra8Table - sym.srl8Table) ++ [add s0 s0 tp] else []) ++
      getShiftByteInTp s0 3 ++ [pop s0 1, add rd gp tp]

def srl (rd rs1 rs2 : Reg) : List Instr := shiftRightTemplate sym rd rs1 (.reg rs2) false
def sra (rd rs1 rs2 : Reg) : List Instr := shiftRightTemplate sym rd rs1 (.reg rs2) true
def srli (rd rs1 : Reg) (imm : Nat) : List Instr := shiftRightTemplate sym rd rs1 (.imm imm) false
def srai (rd rs1 : Reg) (imm : Nat) : List Instr := shiftRightTemplate sym rd rs1 (.imm imm) true

/-! ## Loads -/

def lb (rd rs1 : Reg) (imm : BitVec 12) : List Instr :=
  [sw x0 (spVar varA) sp, lbu rd imm rs1, sb rd (spVarByte varA 3) sp, lw rd (spVar varA) sp] ++
    srai sym rd rd 24

def lhu (rd rs1 : Reg) (imm : BitVec 12) : List Instr :=
  [sw x0 (spVar varA) sp, lbu tp (imm + 1#12) rs1, sb tp (spVarByte varA 1) sp,
    lw tp (spVar varA) sp, lbu rd imm rs1, add rd rd tp]

def lh (rd rs1 : Reg) (imm : BitVec 12) : List Instr :=
  [sw x0 (spVar varA) sp, lbu gp (imm + 1#12) rs1, sb gp (spVarByte varA 3) sp,
    lw gp (spVar varA) sp] ++ srai sym gp gp 16 ++ [lbu rd imm rs1, add rd rd gp]

/-! ## Jumps -/

def callTemplate (r : Reg) (addr : BitVec 32) : List Instr := la r addr ++ [.jalr r r 0#12]

def j (addr : BitVec 32) : List Instr := la tp addr ++ [.jalr x0 tp 0#12]

def jal (rd : Reg) (addr : BitVec 32) : List Instr :=
  if rd = x0 then j addr else callTemplate rd addr

def tail (addr : BitVec 32) : List Instr :=
  la tp addr ++ [.jalr x0 tp 0#12] ++ callTemplate 1#5 addr

end Compare

end Minirv
