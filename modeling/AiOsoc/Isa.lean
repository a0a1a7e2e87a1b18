import Mathlib.Logic.Function.Basic

/-!
# RV32E_Zicsr

The instruction table of `notes/npc-datapath-and-isa-plan.md`: the encodings and
what each instruction does, on values and without any reference to how a core
computes them. Both implementations are compared with it.
-/

namespace Rv32e

set_option autoImplicit false

abbrev Reg := BitVec 5

inductive Alu where
  | add | sub | sll | slt | sltu | xor | srl | sra | or | and
  deriving Repr, DecidableEq

inductive Cond where
  | eq | ne | lt | ge | ltu | geu
  deriving Repr, DecidableEq

inductive Width where
  | byte | half | word
  deriving Repr, DecidableEq

inductive CsrOp where
  | rw | rs | rc
  deriving Repr, DecidableEq

inductive Instr where
  | lui (rd : Reg) (imm : BitVec 20)
  | auipc (rd : Reg) (imm : BitVec 20)
  | jal (rd : Reg) (imm : BitVec 21)
  | jalr (rd rs1 : Reg) (imm : BitVec 12)
  | branch (cond : Cond) (rs1 rs2 : Reg) (imm : BitVec 13)
  | load (width : Width) (unsigned : Bool) (rd rs1 : Reg) (imm : BitVec 12)
  | store (width : Width) (rs1 rs2 : Reg) (imm : BitVec 12)
  | opImm (op : Alu) (rd rs1 : Reg) (imm : BitVec 12)
  | shiftImm (op : Alu) (rd rs1 : Reg) (shamt : BitVec 5)
  | op (op : Alu) (rd rs1 rs2 : Reg)
  | csr (op : CsrOp) (csr : BitVec 12) (rd rs1 : Reg)
  | csrImm (op : CsrOp) (csr : BitVec 12) (rd : Reg) (uimm : BitVec 5)
  | fence
  | fenceI
  | ecall
  | ebreak
  | mret
  | wfi
  deriving Repr, DecidableEq

/-! ## Encoding -/

section Decode
variable (inst : BitVec 32)

def opcode : BitVec 7 := inst.extractLsb' 0 7
def rd : Reg := inst.extractLsb' 7 5
def funct3 : BitVec 3 := inst.extractLsb' 12 3
def rs1 : Reg := inst.extractLsb' 15 5
def rs2 : Reg := inst.extractLsb' 20 5
def funct7 : BitVec 7 := inst.extractLsb' 25 7
def funct12 : BitVec 12 := inst.extractLsb' 20 12

def immS : BitVec 12 := inst.extractLsb' 25 7 ++ inst.extractLsb' 7 5
def immB : BitVec 13 :=
  inst.extractLsb' 31 1 ++ inst.extractLsb' 7 1 ++ inst.extractLsb' 25 6 ++
    inst.extractLsb' 8 4 ++ 0#1
def immU : BitVec 20 := inst.extractLsb' 12 20
def immJ : BitVec 21 :=
  inst.extractLsb' 31 1 ++ inst.extractLsb' 12 8 ++ inst.extractLsb' 20 1 ++
    inst.extractLsb' 21 10 ++ 0#1

def decodeBranch : Option Cond :=
  if funct3 inst = 0b000#3 then some .eq
  else if funct3 inst = 0b001#3 then some .ne
  else if funct3 inst = 0b100#3 then some .lt
  else if funct3 inst = 0b101#3 then some .ge
  else if funct3 inst = 0b110#3 then some .ltu
  else if funct3 inst = 0b111#3 then some .geu else none

def decodeLoad : Option (Width × Bool) :=
  if funct3 inst = 0b000#3 then some (.byte, false)
  else if funct3 inst = 0b001#3 then some (.half, false)
  else if funct3 inst = 0b010#3 then some (.word, false)
  else if funct3 inst = 0b100#3 then some (.byte, true)
  else if funct3 inst = 0b101#3 then some (.half, true) else none

def decodeStore : Option Width :=
  if funct3 inst = 0b000#3 then some .byte
  else if funct3 inst = 0b001#3 then some .half
  else if funct3 inst = 0b010#3 then some .word else none

def decodeOpImm : Option Instr :=
  let imm op := some (Instr.opImm op (rd inst) (rs1 inst) (funct12 inst))
  let shift op := some (Instr.shiftImm op (rd inst) (rs1 inst) (rs2 inst))
  if funct3 inst = 0b000#3 then imm .add
  else if funct3 inst = 0b010#3 then imm .slt
  else if funct3 inst = 0b011#3 then imm .sltu
  else if funct3 inst = 0b100#3 then imm .xor
  else if funct3 inst = 0b110#3 then imm .or
  else if funct3 inst = 0b111#3 then imm .and
  else if funct3 inst = 0b001#3 ∧ funct7 inst = 0b0000000#7 then shift .sll
  else if funct3 inst = 0b101#3 ∧ funct7 inst = 0b0000000#7 then shift .srl
  else if funct3 inst = 0b101#3 ∧ funct7 inst = 0b0100000#7 then shift .sra else none

def decodeOp : Option Alu :=
  if funct7 inst = 0b0000000#7 then
    if funct3 inst = 0b000#3 then some .add
    else if funct3 inst = 0b001#3 then some .sll
    else if funct3 inst = 0b010#3 then some .slt
    else if funct3 inst = 0b011#3 then some .sltu
    else if funct3 inst = 0b100#3 then some .xor
    else if funct3 inst = 0b101#3 then some .srl
    else if funct3 inst = 0b110#3 then some .or else some .and
  else if funct7 inst = 0b0100000#7 then
    if funct3 inst = 0b000#3 then some .sub
    else if funct3 inst = 0b101#3 then some .sra else none
  else none

def csrKnown (csr : BitVec 12) : Bool :=
  csr = 0xf11#12 || csr = 0xf12#12 || csr = 0x300#12 || csr = 0x305#12 || csr = 0x341#12 ||
    csr = 0x342#12

def csrReadOnly (csr : BitVec 12) : Bool := csr = 0xf11#12 || csr = 0xf12#12

/-- A set or clear with the source `x0` (or `uimm = 0`) does not write. -/
def csrWrites (op : CsrOp) (src : BitVec 5) : Bool := op = .rw || src ≠ 0#5

def decodeCsrOp : Option CsrOp :=
  if (funct3 inst).extractLsb' 0 2 = 0b01#2 then some .rw
  else if (funct3 inst).extractLsb' 0 2 = 0b10#2 then some .rs
  else if (funct3 inst).extractLsb' 0 2 = 0b11#2 then some .rc else none

def decodeSystem : Option Instr :=
  if funct3 inst = 0b000#3 then
    if rd inst = 0#5 ∧ rs1 inst = 0#5 then
      if funct12 inst = 0b000000000000#12 then some .ecall
      else if funct12 inst = 0b000000000001#12 then some .ebreak
      else if funct12 inst = 0b001100000010#12 then some .mret
      else if funct12 inst = 0b000100000101#12 then some .wfi else none
    else none
  else do
    let op ← decodeCsrOp inst
    if csrKnown (funct12 inst) && !(csrReadOnly (funct12 inst) && csrWrites op (rs1 inst)) then
      if (funct3 inst).getLsbD 2 then some (.csrImm op (funct12 inst) (rd inst) (rs1 inst))
      else some (.csr op (funct12 inst) (rd inst) (rs1 inst))
    else none

/-- The instruction a word encodes, with the register numbers of RV32I. -/
def decodeAny : Option Instr :=
  if opcode inst = 0b0110111#7 then some (.lui (rd inst) (immU inst))
  else if opcode inst = 0b0010111#7 then some (.auipc (rd inst) (immU inst))
  else if opcode inst = 0b1101111#7 then some (.jal (rd inst) (immJ inst))
  else if opcode inst = 0b1100111#7 then
    if funct3 inst = 0b000#3 then some (.jalr (rd inst) (rs1 inst) (funct12 inst)) else none
  else if opcode inst = 0b1100011#7 then
    (decodeBranch inst).map fun cond => .branch cond (rs1 inst) (rs2 inst) (immB inst)
  else if opcode inst = 0b0000011#7 then
    (decodeLoad inst).map fun (width, unsigned) =>
      .load width unsigned (rd inst) (rs1 inst) (funct12 inst)
  else if opcode inst = 0b0100011#7 then
    (decodeStore inst).map fun width => .store width (rs1 inst) (rs2 inst) (immS inst)
  else if opcode inst = 0b0010011#7 then decodeOpImm inst
  else if opcode inst = 0b0110011#7 then
    (decodeOp inst).map fun op => .op op (rd inst) (rs1 inst) (rs2 inst)
  else if opcode inst = 0b0001111#7 then
    if funct3 inst = 0b000#3 then some .fence
    else if funct3 inst = 0b001#3 then some .fenceI else none
  else if opcode inst = 0b1110011#7 then decodeSystem inst
  else none

end Decode

/-- One row of a decoding table. -/
theorem ite_cases {p P : Prop} [Decidable p] {a b : Option Instr} {i : Instr}
    (ha : p → a = some i → P) (hb : b = some i → P) : (if p then a else b) = some i → P := by
  intro hd
  by_cases h : p
  · rw [if_pos h] at hd
    exact ha h hd
  · rw [if_neg h] at hd
    exact hb hd

theorem ite_elim {p P : Prop} [Decidable p] {a b : Option Instr} {i : Instr}
    (ha : a = some i → P) (hb : b = some i → P) : (if p then a else b) = some i → P :=
  ite_cases (fun _ => ha) hb

/-- What is known of a word and of the instruction it encodes, by opcode. -/
inductive Decoded (inst : BitVec 32) : Instr → Prop where
  | lui (h : opcode inst = 0b0110111#7) : Decoded inst (.lui (rd inst) (immU inst))
  | auipc (h : opcode inst = 0b0010111#7) : Decoded inst (.auipc (rd inst) (immU inst))
  | jal (h : opcode inst = 0b1101111#7) : Decoded inst (.jal (rd inst) (immJ inst))
  | jalr (h : opcode inst = 0b1100111#7) (h3 : funct3 inst = 0b000#3) :
    Decoded inst (.jalr (rd inst) (rs1 inst) (funct12 inst))
  | branch {cond : Cond} (h : opcode inst = 0b1100011#7) (hc : decodeBranch inst = some cond) :
    Decoded inst (.branch cond (rs1 inst) (rs2 inst) (immB inst))
  | load {width : Width} {unsigned : Bool} (h : opcode inst = 0b0000011#7)
    (hc : decodeLoad inst = some (width, unsigned)) :
    Decoded inst (.load width unsigned (rd inst) (rs1 inst) (funct12 inst))
  | store {width : Width} (h : opcode inst = 0b0100011#7) (hc : decodeStore inst = some width) :
    Decoded inst (.store width (rs1 inst) (rs2 inst) (immS inst))
  | opImm {i : Instr} (h : opcode inst = 0b0010011#7) (hc : decodeOpImm inst = some i) :
    Decoded inst i
  | op {op : Alu} (h : opcode inst = 0b0110011#7) (hc : decodeOp inst = some op) :
    Decoded inst (.op op (rd inst) (rs1 inst) (rs2 inst))
  | fence (h : opcode inst = 0b0001111#7) (h3 : funct3 inst = 0b000#3) : Decoded inst .fence
  | fenceI (h : opcode inst = 0b0001111#7) (h3 : funct3 inst = 0b001#3) : Decoded inst .fenceI
  | system {i : Instr} (h : opcode inst = 0b1110011#7) (hc : decodeSystem inst = some i) :
    Decoded inst i

theorem decoded_of_decodeAny {inst : BitVec 32} {i : Instr} :
    decodeAny inst = some i → Decoded inst i := by
  unfold decodeAny
  refine ite_cases ?lui <| ite_cases ?auipc <| ite_cases ?jal <| ite_cases ?jalr <|
    ite_cases ?branch <| ite_cases ?load <| ite_cases ?store <| ite_cases .opImm <|
    ite_cases ?op <| ite_cases ?fence <| ite_cases .system (by rintro ⟨⟩)
  case lui =>
    rintro h ⟨⟩
    exact .lui h
  case auipc =>
    rintro h ⟨⟩
    exact .auipc h
  case jal =>
    rintro h ⟨⟩
    exact .jal h
  case jalr =>
    intro h
    refine ite_cases ?_ (by rintro ⟨⟩)
    rintro h3 ⟨⟩
    exact .jalr h h3
  case fence =>
    intro h
    refine ite_cases ?fence <| ite_cases ?fenceI (by rintro ⟨⟩)
    · rintro h3 ⟨⟩
      exact .fence h h3
    · rintro h3 ⟨⟩
      exact .fenceI h h3
  case branch =>
    intro h hd
    obtain ⟨cond, hc, rfl⟩ := Option.map_eq_some_iff.mp hd
    exact .branch h hc
  case load =>
    intro h hd
    obtain ⟨⟨width, unsigned⟩, hc, rfl⟩ := Option.map_eq_some_iff.mp hd
    exact .load h hc
  case store =>
    intro h hd
    obtain ⟨width, hc, rfl⟩ := Option.map_eq_some_iff.mp hd
    exact .store h hc
  case op =>
    intro h hd
    obtain ⟨op, hc, rfl⟩ := Option.map_eq_some_iff.mp hd
    exact .op h hc

/-- The immediate of a shift holds the amount in its low five bits. -/
theorem funct12_shamt (inst : BitVec 32) :
    ((funct12 inst).signExtend 32).toNat % 32 = ((rs2 inst).setWidth 32).toNat % 32 := by
  have hlow : ∀ v : BitVec 32, v.toNat % 32 = (v.extractLsb' 0 5).toNat := by
    intro v
    simp [BitVec.extractLsb'_toNat]
  rw [hlow, hlow]
  congr 1
  apply BitVec.eq_of_getLsbD_eq
  intro i hi
  simp only [funct12, rs2, BitVec.getLsbD_extractLsb', BitVec.getLsbD_signExtend,
    BitVec.getLsbD_setWidth]
  grind

/-- The registers an instruction names. -/
def Instr.regs : Instr → List Reg
  | .lui rd _ | .auipc rd _ | .jal rd _ | .csrImm _ _ rd _ => [rd]
  | .jalr rd rs1 _ | .load _ _ rd rs1 _ | .opImm _ rd rs1 _ | .shiftImm _ rd rs1 _
  | .csr _ _ rd rs1 => [rd, rs1]
  | .branch _ rs1 rs2 _ | .store _ rs1 rs2 _ => [rs1, rs2]
  | .op _ rd rs1 rs2 => [rd, rs1, rs2]
  | .fence | .fenceI | .ecall | .ebreak | .mret | .wfi => []

/-- RV32E has `x0` to `x15`; a word that names another register is illegal. -/
def decode (inst : BitVec 32) : Option Instr :=
  (decodeAny inst).filter fun i => i.regs.all fun r => r < 16#5

theorem decode_regs {inst : BitVec 32} {i : Instr} (h : decode inst = some i) {r : Reg}
    (hr : r ∈ i.regs) : r < 16#5 := by
  obtain ⟨-, hall⟩ := Option.filter_eq_some_iff.mp h
  exact of_decide_eq_true (List.all_eq_true.mp hall r hr)

theorem decodeAny_of_decode {inst : BitVec 32} {i : Instr} (h : decode inst = some i) :
    decodeAny inst = some i := (Option.filter_eq_some_iff.mp h).1

/-! ## Behaviour -/

def Alu.eval (op : Alu) (a b : BitVec 32) : BitVec 32 :=
  match op with
  | .add => a + b
  | .sub => a - b
  | .sll => a <<< (b.toNat % 32)
  | .slt => if a.toInt < b.toInt then 1#32 else 0#32
  | .sltu => if a.toNat < b.toNat then 1#32 else 0#32
  | .xor => a ^^^ b
  | .srl => a >>> (b.toNat % 32)
  | .sra => a.sshiftRight (b.toNat % 32)
  | .or => a ||| b
  | .and => a &&& b

def Cond.holds (cond : Cond) (a b : BitVec 32) : Bool :=
  match cond with
  | .eq => a = b
  | .ne => a ≠ b
  | .lt => a.toInt < b.toInt
  | .ge => b.toInt ≤ a.toInt
  | .ltu => a.toNat < b.toNat
  | .geu => b.toNat ≤ a.toNat

def Width.bytes : Width → Nat
  | .byte => 1
  | .half => 2
  | .word => 4

def aligned (width : Width) (addr : BitVec 32) : Bool := addr.toNat % width.bytes = 0

structure Csrs where
  mtvec : BitVec 32
  mepc : BitVec 32
  mcause : BitVec 32
  deriving Repr, DecidableEq

namespace Csrs

def read (c : Csrs) (csr : BitVec 12) : BitVec 32 :=
  if csr = 0x300#12 then 0x00001800#32
  else if csr = 0x305#12 then c.mtvec
  else if csr = 0x341#12 then c.mepc
  else if csr = 0x342#12 then c.mcause else 0#32

/-- `mtvec` and `mepc` are kept 4-byte aligned, `mstatus` does not change. -/
def write (c : Csrs) (csr : BitVec 12) (v : BitVec 32) : Csrs :=
  if csr = 0x305#12 then { c with mtvec := v &&& ~~~3#32 }
  else if csr = 0x341#12 then { c with mepc := v &&& ~~~3#32 }
  else if csr = 0x342#12 then { c with mcause := v } else c

end Csrs

def CsrOp.eval (op : CsrOp) (old src : BitVec 32) : BitVec 32 :=
  match op with
  | .rw => src
  | .rs => old ||| src
  | .rc => old &&& ~~~src

/-- A memory access; a store with the bytes it writes. -/
inductive Access where
  | load (width : Width) (addr : BitVec 32)
  | store (width : Width) (addr : BitVec 32) (bytes : List (BitVec 32 × BitVec 8))
  deriving Repr, DecidableEq

/-- How memory answers an access: a fault, or the byte at each address. -/
structure Answer where
  fault : Bool
  byte : BitVec 32 → BitVec 8

structure Effect where
  write : Option (Reg × BitVec 32)
  access : Option Access
  trap : Option (BitVec 32)
  csrs : Csrs
  nextPc : BitVec 32
  halts : Bool
  deriving Repr, DecidableEq

namespace Effect

/-- An exception: without a trap vector the core halts. -/
def raise (c : Csrs) (pc : BitVec 32) (access : Option Access) (cause : BitVec 32) : Effect where
  write := none
  access := access
  trap := some cause
  csrs := if c.mtvec = 0#32 then c else { c with mepc := pc, mcause := cause }
  nextPc := if c.mtvec = 0#32 then pc else c.mtvec
  halts := c.mtvec = 0#32

def complete (c : Csrs) (nextPc : BitVec 32) (write : Option (Reg × BitVec 32)) : Effect where
  write := write
  access := none
  trap := none
  csrs := c
  nextPc := nextPc
  halts := false

end Effect

def setReg (rd : Reg) (v : BitVec 32) : Option (Reg × BitVec 32) :=
  if rd = 0#5 then none else some (rd, v)

def loadValue (width : Width) (unsigned : Bool) (byte : BitVec 32 → BitVec 8)
    (addr : BitVec 32) : BitVec 32 :=
  match width with
  | .byte => if unsigned then (byte addr).setWidth 32 else (byte addr).signExtend 32
  | .half =>
    let v := byte (addr + 1#32) ++ byte addr
    if unsigned then v.setWidth 32 else v.signExtend 32
  | .word => byte (addr + 3#32) ++ byte (addr + 2#32) ++ byte (addr + 1#32) ++ byte addr

def storeBytes (width : Width) (addr data : BitVec 32) : List (BitVec 32 × BitVec 8) :=
  (List.range width.bytes).map fun k =>
    (addr + BitVec.ofNat 32 k, data.extractLsb' (8 * k) 8)

section Exec
variable (x : Reg → BitVec 32) (pc : BitVec 32) (c : Csrs) (ans : Answer)

/-- A taken branch or a jump. -/
def goto (target : BitVec 32) (write : Option (Reg × BitVec 32)) : Effect :=
  if target.toNat % 4 = 0 then .complete c target write else .raise c pc none 0#32

/-- A memory access with the causes of its two exceptions. -/
def memory (width : Width) (addr : BitVec 32) (access : Access) (misaligned fault : BitVec 32)
    (write : Option (Reg × BitVec 32)) : Effect :=
  if aligned width addr then
    if ans.fault then .raise c pc (some access) fault
    else { Effect.complete c (pc + 4#32) write with access := some access }
  else .raise c pc none misaligned

/-- What the access and the written value are only matters when it is aligned. -/
theorem memory_congr {width : Width} {addr : BitVec 32} {a a' : Access}
    {write write' : Option (Reg × BitVec 32)} (misaligned fault : BitVec 32)
    (h : aligned width addr = true → a = a' ∧ write = write') :
    memory pc c ans width addr a misaligned fault write =
      memory pc c ans width addr a' misaligned fault write' := by
  unfold memory
  split
  · rename_i ha
    obtain ⟨rfl, rfl⟩ := h ha
    rfl
  · rfl

/-- A CSR instruction with the source number `src` and the source value `v`. -/
def csrAccess (op : CsrOp) (csr : BitVec 12) (rd : Reg) (src : BitVec 5) (v : BitVec 32) : Effect :=
  { Effect.complete c (pc + 4#32) (setReg rd (c.read csr)) with
    csrs := if csrWrites op src then c.write csr (op.eval (c.read csr) v) else c }

/-- The effect of an instruction at `pc` with the register values `x`. -/
def exec : Instr → Effect
  | .lui rd imm => .complete c (pc + 4#32) (setReg rd (imm ++ 0#12))
  | .auipc rd imm => .complete c (pc + 4#32) (setReg rd (pc + (imm ++ 0#12)))
  | .jal rd imm => goto pc c (pc + imm.signExtend 32) (setReg rd (pc + 4#32))
  | .jalr rd rs1 imm =>
    goto pc c ((x rs1 + imm.signExtend 32) &&& ~~~1#32) (setReg rd (pc + 4#32))
  | .branch cond rs1 rs2 imm =>
    if cond.holds (x rs1) (x rs2) then goto pc c (pc + imm.signExtend 32) none
    else .complete c (pc + 4#32) none
  | .load width unsigned rd rs1 imm =>
    let addr := x rs1 + imm.signExtend 32
    memory pc c ans width addr (.load width addr) 4#32 5#32
      (setReg rd (loadValue width unsigned ans.byte addr))
  | .store width rs1 rs2 imm =>
    let addr := x rs1 + imm.signExtend 32
    memory pc c ans width addr (.store width addr (storeBytes width addr (x rs2))) 6#32 7#32 none
  | .opImm op rd rs1 imm =>
    .complete c (pc + 4#32) (setReg rd (op.eval (x rs1) (imm.signExtend 32)))
  | .shiftImm op rd rs1 shamt =>
    .complete c (pc + 4#32) (setReg rd (op.eval (x rs1) (shamt.setWidth 32)))
  | .op op rd rs1 rs2 => .complete c (pc + 4#32) (setReg rd (op.eval (x rs1) (x rs2)))
  | .csr op csr rd rs1 => csrAccess pc c op csr rd rs1 (x rs1)
  | .csrImm op csr rd uimm => csrAccess pc c op csr rd uimm (uimm.setWidth 32)
  | .fence | .fenceI | .wfi => .complete c (pc + 4#32) none
  | .ecall => .raise c pc none 11#32
  | .ebreak => .raise c pc none 3#32
  | .mret => .complete c c.mepc none

end Exec

/-! ## What an instruction depends on -/

/-- The register an instruction writes, `x0` if there is none. -/
def Instr.dest : Instr → Reg
  | .lui rd _ | .auipc rd _ | .jal rd _ | .jalr rd _ _ | .load _ _ rd _ _ | .opImm _ rd _ _
  | .shiftImm _ rd _ _ | .op _ rd _ _ | .csr _ _ rd _ | .csrImm _ _ rd _ => rd
  | .branch _ _ _ _ | .store _ _ _ _ | .fence | .fenceI | .ecall | .ebreak | .mret | .wfi => 0#5

/-- The target and the data address of an instruction are aligned. -/
def TargetsAligned (x : Reg → BitVec 32) (pc : BitVec 32) : Instr → Prop
  | .jal _ imm => (pc + imm.signExtend 32).toNat % 4 = 0
  | .jalr _ rs1 imm => ((x rs1 + imm.signExtend 32) &&& ~~~1#32).toNat % 4 = 0
  | .branch cond rs1 rs2 imm =>
    cond.holds (x rs1) (x rs2) = true → (pc + imm.signExtend 32).toNat % 4 = 0
  | .load width _ _ rs1 imm => aligned width (x rs1 + imm.signExtend 32) = true
  | .store width rs1 _ imm => aligned width (x rs1 + imm.signExtend 32) = true
  | _ => True

/-- The instructions that both implementations execute as the table says. -/
def Common (i : Instr) : Prop := i ≠ .fence ∧ i ≠ .fenceI ∧ i ≠ .wfi ∧ i ≠ .ebreak

section Facts
variable {x y : Reg → BitVec 32} {pc : BitVec 32} {c : Csrs} {ans : Answer} {i : Instr}

theorem exec_congr (h : ∀ r ∈ i.regs, x r = y r) : exec x pc c ans i = exec y pc c ans i := by
  cases i <;> simp_all [Instr.regs, exec]

theorem dest_mem_regs (h : i.dest ≠ 0#5) : i.dest ∈ i.regs := by
  cases i <;> simp_all [Instr.dest, Instr.regs]

/-- An effect either writes `dest` and does not trap, or traps and writes nothing.
When `ok` holds the trap is that of an access, or there is no `dest`. -/
def Outcome (ef : Effect) (dest : Reg) (ok : Prop) : Prop :=
  (ef.trap = none ∧ ∃ v, ef.write = setReg dest v) ∨
    ∃ cause, ef.trap = some cause ∧ ef.write = none ∧
      (ok → cause ≠ 0#32 ∧ (ef.access = none → dest = 0#5))

theorem Outcome.write_dest {ef : Effect} {dest rd : Reg} {ok : Prop} {v : BitVec 32}
    (h : Outcome ef dest ok) (hw : ef.write = some (rd, v)) : rd = dest ∧ rd ≠ 0#5 := by
  rcases h with ⟨-, v', h⟩ | ⟨cause, -, h, -⟩
  · rw [h, setReg] at hw
    split at hw
    · cases hw
    · rename_i hz
      cases hw
      exact ⟨rfl, hz⟩
  · rw [h] at hw
    cases hw

theorem goto_outcome (target : BitVec 32) (rd : Reg) (v : BitVec 32) :
    Outcome (goto pc c target (setReg rd v)) rd (target.toNat % 4 = 0) := by
  unfold goto
  split
  · exact .inl ⟨rfl, v, rfl⟩
  · rename_i h
    exact .inr ⟨0#32, rfl, rfl, fun hok => absurd hok h⟩

theorem memory_outcome (width : Width) (addr : BitVec 32) (a : Access) (misaligned : BitVec 32)
    {fault : BitVec 32} (hf : fault ≠ 0#32) (rd : Reg) (v : BitVec 32) :
    Outcome (memory pc c ans width addr a misaligned fault (setReg rd v)) rd
      (aligned width addr = true) := by
  unfold memory
  split
  · split
    · exact .inr ⟨fault, rfl, rfl, fun _ => ⟨hf, fun ha => absurd ha (by simp [Effect.raise])⟩⟩
    · exact .inl ⟨rfl, v, rfl⟩
  · rename_i h
    exact .inr ⟨misaligned, rfl, rfl, fun hok => absurd hok h⟩

theorem exec_outcome (hi : i ≠ .ebreak) :
    Outcome (exec x pc c ans i) i.dest (TargetsAligned x pc i) := by
  cases i with
  | lui | auipc | opImm | shiftImm | op | csr | csrImm => exact .inl ⟨rfl, _, rfl⟩
  | fence | fenceI | wfi | mret => exact .inl ⟨rfl, 0#32, rfl⟩
  | ecall => exact .inr ⟨11#32, rfl, rfl, fun _ => ⟨by decide, fun _ => rfl⟩⟩
  | ebreak => exact absurd rfl hi
  | jal rd imm => exact goto_outcome _ rd _
  | jalr rd rs1 imm => exact goto_outcome _ rd _
  | branch cond rs1 rs2 imm =>
    rw [exec]
    split
    · rename_i hb
      rcases goto_outcome (pc + imm.signExtend 32) 0#5 0#32 with h | ⟨cause, h1, h2, h3⟩
      · exact .inl h
      · exact .inr ⟨cause, h1, h2, fun ht => h3 (ht hb)⟩
    · exact .inl ⟨rfl, 0#32, rfl⟩
  | load width unsigned rd rs1 imm => exact memory_outcome _ _ _ _ (by decide) rd _
  | store width rs1 rs2 imm => exact memory_outcome _ _ _ _ (by decide) 0#5 0#32

end Facts

end Rv32e
