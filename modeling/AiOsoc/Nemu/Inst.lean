import AiOsoc.Nemu.Memory

/-!
# Instructions of the reference emulator

`nemu/src/isa/riscv32/inst.c`: the pattern table, the operands and the body of
each pattern, and one call of `isa_exec_once`. A word is executed by the first
pattern that matches it.
-/

namespace Nemu

set_option autoImplicit false

/-- The CPU state of a build without `CONFIG_RVE`. -/
structure Cpu where
  gpr : BitVec 5 → BitVec 32
  pc : BitVec 32
  mstatus : BitVec 32
  mtvec : BitVec 32
  mepc : BitVec 32
  mcause : BitVec 32

inductive RunState where
  | running | stop | ended | abort | quit | limit
  deriving Repr, DecidableEq

def RunState.code : RunState → BitVec 32
  | .running => 0#32
  | .stop => 1#32
  | .ended => 2#32
  | .abort => 3#32
  | .quit => 4#32
  | .limit => 5#32

/-- The CPU, the memory and `nemu_state`. -/
structure Machine where
  cpu : Cpu
  mem : Memory
  state : RunState
  haltPc : BitVec 32
  haltRet : BitVec 32

structure Decode where
  pc : BitVec 32
  snpc : BitVec 32
  dnpc : BitVec 32
  exception : Bool
  exceptionCause : BitVec 32
  inst : BitVec 32
  deriving Repr, DecidableEq

def setNemuState (m : Machine) (state : RunState) (pc haltRet : BitVec 32) : Machine :=
  { m with state := state, haltPc := pc, haltRet := haltRet }

/-- `INV`: the two words at the instruction are fetched for the message. -/
def invalidInst (cfg : Config) (m : Machine) (thispc : BitVec 32) : Except Abort Machine := do
  let (_, mem) ← vaddrIfetch cfg m.mem thispc 4
  let (_, mem) ← vaddrIfetch cfg mem (thispc + 4#32) 4
  return setNemuState { m with mem := mem } .abort thispc (-1#32)

def csrRead (cfg : Config) (m : Machine) (addr : BitVec 32) : Except Abort (BitVec 32 × Machine) :=
  if addr = 0xf11#32 then .ok (0#32, m)
  else if addr = 0xf12#32 then .ok (0#32, m)
  else if addr = 0x300#32 then .ok (0x00001800#32, m)
  else if addr = 0x305#32 then .ok (m.cpu.mtvec, m)
  else if addr = 0x341#32 then .ok (m.cpu.mepc, m)
  else if addr = 0x342#32 then .ok (m.cpu.mcause, m)
  else (invalidInst cfg m m.cpu.pc).map fun m => (0#32, m)

def csrWrite (cfg : Config) (m : Machine) (addr val : BitVec 32) : Except Abort Machine :=
  if addr = 0x300#32 then .ok { m with cpu.mstatus := 0x00001800#32 }
  else if addr = 0x305#32 then .ok { m with cpu.mtvec := val &&& ~~~0x3#32 }
  else if addr = 0x341#32 then .ok { m with cpu.mepc := val &&& ~~~0x3#32 }
  else if addr = 0x342#32 then .ok { m with cpu.mcause := val }
  else invalidInst cfg m m.cpu.pc

/-- `isa_raise_intr`, with the vector it returns. -/
def isaRaiseIntr (m : Machine) (no epc : BitVec 32) : BitVec 32 × Machine :=
  (m.cpu.mtvec, { m with cpu.mepc := epc, cpu.mcause := no })

/-! ## Operands -/

/-- `BITS(x, hi, lo)`, a value of 64 bits. -/
def BITS (x : BitVec 32) (hi lo : Nat) : BitVec 64 :=
  (x >>> lo).setWidth 64 &&& ((1#64 <<< (hi - lo + 1)) - 1#64)

/-- `SEXT(x, len)`, through a bit-field of `len` bits. -/
def SEXT (x : BitVec 64) (len : Nat) : BitVec 64 := (x.setWidth len).signExtend 64

inductive InstType where
  | I | U | S | J | B | R | N
  deriving Repr, DecidableEq

structure Operands where
  rd : BitVec 5
  src1 : BitVec 32
  src2 : BitVec 32
  imm : BitVec 32
  deriving Repr, DecidableEq

section Operands
variable (i : BitVec 32)

def immI : BitVec 32 := (SEXT (BITS i 31 20) 12).setWidth 32
def immU : BitVec 32 := (SEXT (BITS i 31 12) 20 <<< 12).setWidth 32
def immS : BitVec 32 := ((SEXT (BITS i 31 25) 7 <<< 5) ||| BITS i 11 7).setWidth 32
def immJ : BitVec 32 :=
  (SEXT ((BITS i 31 31 <<< 20) ||| (BITS i 19 12 <<< 12) ||| (BITS i 20 20 <<< 11) |||
    (BITS i 30 21 <<< 1)) 21).setWidth 32
def immB : BitVec 32 :=
  (SEXT ((BITS i 31 31 <<< 12) ||| (BITS i 7 7 <<< 11) ||| (BITS i 30 25 <<< 5) |||
    (BITS i 11 8 <<< 1)) 13).setWidth 32

def rs1 : BitVec 5 := (BITS i 19 15).setWidth 5
def rs2 : BitVec 5 := (BITS i 24 20).setWidth 5
def rd : BitVec 5 := (BITS i 11 7).setWidth 5

def decodeOperand (gpr : BitVec 5 → BitVec 32) (type : InstType) : Operands :=
  match type with
  | .I => ⟨rd i, gpr (rs1 i), 0#32, immI i⟩
  | .U => ⟨rd i, 0#32, 0#32, immU i⟩
  | .S => ⟨rd i, gpr (rs1 i), gpr (rs2 i), immS i⟩
  | .J => ⟨rd i, 0#32, 0#32, immJ i⟩
  | .B => ⟨rd i, gpr (rs1 i), gpr (rs2 i), immB i⟩
  | .R => ⟨rd i, gpr (rs1 i), gpr (rs2 i), 0#32⟩
  | .N => ⟨rd i, 0#32, 0#32, 0#32⟩

end Operands

/-! ## Patterns -/

/-- `pattern_decode`: key, mask and shift of a pattern string. -/
def patternDecode (str : String) : BitVec 64 × BitVec 64 × Nat :=
  let (key, mask, shift) := str.toList.foldl (fun (key, mask, shift) c =>
    if c = ' ' then (key, mask, shift)
    else (key <<< 1 ||| if c = '1' then 1#64 else 0#64,
      mask <<< 1 ||| if c = '?' then 0#64 else 1#64,
      if c = '?' then shift + 1 else 0)) (0#64, 0#64, 0)
  (key >>> shift, mask >>> shift, shift)

/-- The test of `INSTPAT`. -/
def instpat (pattern : String) (inst : BitVec 32) : Bool :=
  let (key, mask, shift) := patternDecode pattern
  (inst.setWidth 64 >>> shift) &&& mask == key

inductive Name where
  | lui | auipc | addi | slti | sltiu | xori | ori | andi | slli | srli | srai
  | lb | lh | lw | lbu | lhu | sb | sh | sw
  | add | sub | mul | mulh | mulhsu | mulhu | div | divu | rem | remu
  | sll | srl | sra | slt | sltu | xor | or | and
  | beq | bne | blt | bge | bltu | bgeu | jal | jalr
  | csrrw | csrrs | csrrc | csrrwi | csrrsi | csrrci | ecall | mret | ebreak | inv
  deriving Repr, DecidableEq

def instpats : List (String × Name × InstType) := [
  ("??????? ????? ????? ??? ????? 01101 11", .lui, .U),
  ("??????? ????? ????? ??? ????? 00101 11", .auipc, .U),
  ("??????? ????? ????? 000 ????? 00100 11", .addi, .I),
  ("??????? ????? ????? 010 ????? 00100 11", .slti, .I),
  ("??????? ????? ????? 011 ????? 00100 11", .sltiu, .I),
  ("??????? ????? ????? 100 ????? 00100 11", .xori, .I),
  ("??????? ????? ????? 110 ????? 00100 11", .ori, .I),
  ("??????? ????? ????? 111 ????? 00100 11", .andi, .I),
  ("0000000 ????? ????? 001 ????? 00100 11", .slli, .I),
  ("0000000 ????? ????? 101 ????? 00100 11", .srli, .I),
  ("0100000 ????? ????? 101 ????? 00100 11", .srai, .I),
  ("??????? ????? ????? 000 ????? 00000 11", .lb, .I),
  ("??????? ????? ????? 001 ????? 00000 11", .lh, .I),
  ("??????? ????? ????? 010 ????? 00000 11", .lw, .I),
  ("??????? ????? ????? 100 ????? 00000 11", .lbu, .I),
  ("??????? ????? ????? 101 ????? 00000 11", .lhu, .I),
  ("??????? ????? ????? 000 ????? 01000 11", .sb, .S),
  ("??????? ????? ????? 001 ????? 01000 11", .sh, .S),
  ("??????? ????? ????? 010 ????? 01000 11", .sw, .S),
  ("0000000 ????? ????? 000 ????? 01100 11", .add, .R),
  ("0100000 ????? ????? 000 ????? 01100 11", .sub, .R),
  ("0000001 ????? ????? 000 ????? 01100 11", .mul, .R),
  ("0000001 ????? ????? 001 ????? 01100 11", .mulh, .R),
  ("0000001 ????? ????? 010 ????? 01100 11", .mulhsu, .R),
  ("0000001 ????? ????? 011 ????? 01100 11", .mulhu, .R),
  ("0000001 ????? ????? 100 ????? 01100 11", .div, .R),
  ("0000001 ????? ????? 101 ????? 01100 11", .divu, .R),
  ("0000001 ????? ????? 110 ????? 01100 11", .rem, .R),
  ("0000001 ????? ????? 111 ????? 01100 11", .remu, .R),
  ("0000000 ????? ????? 001 ????? 01100 11", .sll, .R),
  ("0000000 ????? ????? 101 ????? 01100 11", .srl, .R),
  ("0100000 ????? ????? 101 ????? 01100 11", .sra, .R),
  ("0000000 ????? ????? 010 ????? 01100 11", .slt, .R),
  ("0000000 ????? ????? 011 ????? 01100 11", .sltu, .R),
  ("0000000 ????? ????? 100 ????? 01100 11", .xor, .R),
  ("0000000 ????? ????? 110 ????? 01100 11", .or, .R),
  ("0000000 ????? ????? 111 ????? 01100 11", .and, .R),
  ("??????? ????? ????? 000 ????? 11000 11", .beq, .B),
  ("??????? ????? ????? 001 ????? 11000 11", .bne, .B),
  ("??????? ????? ????? 100 ????? 11000 11", .blt, .B),
  ("??????? ????? ????? 101 ????? 11000 11", .bge, .B),
  ("??????? ????? ????? 110 ????? 11000 11", .bltu, .B),
  ("??????? ????? ????? 111 ????? 11000 11", .bgeu, .B),
  ("??????? ????? ????? ????? ????? 11011 11", .jal, .J),
  ("??????? ????? ????? 000 ????? 11001 11", .jalr, .I),
  ("??????? ????? ????? 001 ????? 11100 11", .csrrw, .I),
  ("??????? ????? ????? 010 ????? 11100 11", .csrrs, .I),
  ("??????? ????? ????? 011 ????? 11100 11", .csrrc, .I),
  ("??????? ????? ????? 101 ????? 11100 11", .csrrwi, .I),
  ("??????? ????? ????? 110 ????? 11100 11", .csrrsi, .I),
  ("??????? ????? ????? 111 ????? 11100 11", .csrrci, .I),
  ("0000000 00000 00000 000 00000 11100 11", .ecall, .N),
  ("0011000 00010 00000 000 00000 11100 11", .mret, .N),
  ("0000000 00001 00000 000 00000 11100 11", .ebreak, .N),
  ("??????? ????? ????? ??? ????? ????? ??", .inv, .N)]

def matchInst (inst : BitVec 32) : Option (Name × InstType) :=
  (instpats.find? fun p => instpat p.1 inst).map (·.2)

/-! ## Bodies -/

/-- The machine and the decode record an instruction works on. -/
structure Exec where
  m : Machine
  s : Decode

namespace Exec

/-- `R(rd) = v`. -/
def setR (e : Exec) (rd : BitVec 5) (v : BitVec 32) : Exec :=
  { e with m.cpu.gpr := Function.update e.m.cpu.gpr rd v }

/-- `s->dnpc = pc`. -/
def jump (e : Exec) (pc : BitVec 32) : Exec := { e with s.dnpc := pc }

def raiseSyncException (e : Exec) (cause : BitVec 32) : Exec :=
  let (vector, m) := isaRaiseIntr e.m cause e.s.pc
  ⟨m, { e.s with exception := true, exceptionCause := cause, dnpc := vector }⟩

/-- A load of `len` bytes whose value is extended by `ext`. -/
def load (e : Exec) (cfg : Config) (o : Operands) (len : Nat) (ext : BitVec 32 → BitVec 32) :
    Except Abort Exec :=
  let addr := o.src1 + o.imm
  if vaddrAccessOk cfg addr len then do
    let (v, mem) ← vaddrRead cfg e.m.mem addr len
    return { e with m.mem := mem }.setR o.rd (ext v)
  else .ok (e.raiseSyncException 5#32)

def store (e : Exec) (cfg : Config) (o : Operands) (len : Nat) : Except Abort Exec :=
  let addr := o.src1 + o.imm
  if vaddrAccessOk cfg addr len then do
    let mem ← vaddrWrite cfg e.m.mem addr len o.src2
    return { e with m.mem := mem }
  else .ok (e.raiseSyncException 7#32)

/-- A CSR instruction: read, write `next old` if `writes`, then set `rd`. -/
def csr (e : Exec) (cfg : Config) (o : Operands) (writes : Bool)
    (next : BitVec 32 → BitVec 32) : Except Abort Exec := do
  let addr := (BITS e.s.inst 31 20).setWidth 32
  let (t, m) ← csrRead cfg e.m addr
  let m ← if writes then csrWrite cfg m addr (next t) else .ok m
  return { e with m := m }.setR o.rd t

end Exec

def bool (b : Bool) : BitVec 32 := if b then 1#32 else 0#32

def sextByte (v : BitVec 32) : BitVec 32 := (SEXT (v.setWidth 64) 8).setWidth 32
def sextHalf (v : BitVec 32) : BitVec 32 := (SEXT (v.setWidth 64) 16).setWidth 32

/-- The body of a pattern. -/
def execBody (cfg : Config) (name : Name) (o : Operands) (e : Exec) : Except Abort Exec :=
  let shamt (v : BitVec 32) : Nat := (BITS v 4 0).toNat
  let zimm : BitVec 32 := (BITS e.s.inst 19 15).setWidth 32
  let set (v : BitVec 32) : Except Abort Exec := .ok (e.setR o.rd v)
  let branch (taken : Bool) : Except Abort Exec :=
    .ok (if taken then e.jump (e.s.pc + o.imm) else e)
  match name with
  | .lui => set o.imm
  | .auipc => set (e.s.pc + o.imm)
  | .addi => set (o.src1 + o.imm)
  | .slti => set (bool (o.src1.slt o.imm))
  | .sltiu => set (bool (o.src1.ult o.imm))
  | .xori => set (o.src1 ^^^ o.imm)
  | .ori => set (o.src1 ||| o.imm)
  | .andi => set (o.src1 &&& o.imm)
  | .slli => set (o.src1 <<< shamt o.imm)
  | .srli => set (o.src1 >>> shamt o.imm)
  | .srai => set (o.src1.sshiftRight (shamt o.imm))
  | .lb => e.load cfg o 1 sextByte
  | .lh => e.load cfg o 2 sextHalf
  | .lw => e.load cfg o 4 id
  | .lbu => e.load cfg o 1 id
  | .lhu => e.load cfg o 2 id
  | .sb => e.store cfg o 1
  | .sh => e.store cfg o 2
  | .sw => e.store cfg o 4
  | .add => set (o.src1 + o.src2)
  | .sub => set (o.src1 - o.src2)
  | .mul => set (o.src1 * o.src2)
  | .mulh => set (((o.src1.signExtend 64 * o.src2.signExtend 64).sshiftRight 32).setWidth 32)
  | .mulhsu => set (((o.src1.signExtend 64 * o.src2.setWidth 64) >>> 32).setWidth 32)
  | .mulhu => set (((o.src1.setWidth 64 * o.src2.setWidth 64) >>> 32).setWidth 32)
  | .div => set (if o.src2 = 0#32 then -1#32
      else if o.src1 = 0x80000000#32 ∧ o.src2 = -1#32 then o.src1 else o.src1.sdiv o.src2)
  | .divu => set (if o.src2 = 0#32 then -1#32 else o.src1 / o.src2)
  | .rem => set (if o.src2 = 0#32 then o.src1
      else if o.src1 = 0x80000000#32 ∧ o.src2 = -1#32 then 0#32 else o.src1.srem o.src2)
  | .remu => set (if o.src2 = 0#32 then o.src1 else o.src1 % o.src2)
  | .sll => set (o.src1 <<< shamt o.src2)
  | .srl => set (o.src1 >>> shamt o.src2)
  | .sra => set (o.src1.sshiftRight (shamt o.src2))
  | .slt => set (bool (o.src1.slt o.src2))
  | .sltu => set (bool (o.src1.ult o.src2))
  | .xor => set (o.src1 ^^^ o.src2)
  | .or => set (o.src1 ||| o.src2)
  | .and => set (o.src1 &&& o.src2)
  | .beq => branch (o.src1 == o.src2)
  | .bne => branch (o.src1 != o.src2)
  | .blt => branch (o.src1.slt o.src2)
  | .bge => branch (o.src2.sle o.src1)
  | .bltu => branch (o.src1.ult o.src2)
  | .bgeu => branch (o.src2.ule o.src1)
  | .jal => .ok ((e.setR o.rd e.s.snpc).jump (e.s.pc + o.imm))
  | .jalr => .ok ((e.setR o.rd e.s.snpc).jump ((o.src1 + o.imm) &&& ~~~1#32))
  | .csrrw => e.csr cfg o true fun _ => o.src1
  | .csrrs => e.csr cfg o (BITS e.s.inst 19 15 != 0#64) fun t => t ||| o.src1
  | .csrrc => e.csr cfg o (BITS e.s.inst 19 15 != 0#64) fun t => t &&& ~~~o.src1
  | .csrrwi => e.csr cfg o true fun _ => zimm
  | .csrrsi => e.csr cfg o (BITS e.s.inst 19 15 != 0#64) fun t => t ||| zimm
  | .csrrci => e.csr cfg o (BITS e.s.inst 19 15 != 0#64) fun t => t &&& ~~~zimm
  | .ecall =>
    let (vector, m) := isaRaiseIntr e.m 11#32 e.s.pc
    .ok ({ e with m := m }.jump vector)
  | .mret => .ok (e.jump e.m.cpu.mepc)
  | .ebreak => .ok { e with m := setNemuState e.m .ended e.s.pc (e.m.cpu.gpr 10#5) }
  | .inv => do
    let m ← invalidInst cfg e.m e.s.pc
    return { e with m := m }

/-- `decode_exec`. -/
def decodeExec (cfg : Config) (e : Exec) : Except Abort Exec :=
  let e := e.jump e.s.snpc
  match matchInst e.s.inst with
  | none => .ok (e.setR 0#5 0#32)
  | some (name, type) => do
    let e ← execBody cfg name (decodeOperand e.s.inst e.m.cpu.gpr type) e
    return e.setR 0#5 0#32

def isaExecOnce (cfg : Config) (e : Exec) : Except Abort Exec :=
  if !vaddrAccessOk cfg e.s.snpc 4 then
    let snpc := e.s.snpc + 4#32
    .ok (Exec.raiseSyncException { e with s.inst := 0#32, s.snpc := snpc, s.dnpc := snpc } 1#32)
  else do
    let (inst, mem) ← vaddrIfetch cfg e.m.mem e.s.snpc 4
    decodeExec cfg { e with m.mem := mem, s.inst := inst, s.snpc := e.s.snpc + 4#32 }

/-- `exec_once` of the instruction at `cpu.pc`. -/
def execOnce (cfg : Config) (m : Machine) : Except Abort Exec := do
  let e ← isaExecOnce cfg ⟨m, ⟨m.cpu.pc, m.cpu.pc, 0#32, false, 0#32, 0#32⟩⟩
  return { e with m.cpu.pc := e.s.dnpc }

end Nemu
