import AiOsoc.Isa
import AiOsoc.Nemu.Inst
import Mathlib.Tactic.SplitIfs

/-!
# Decoding in the reference emulator

The pattern table finds the instruction that the encoding of the instruction
set gives, and the operand macros extract its fields.
-/

namespace Nemu

set_option autoImplicit false

/-! ## Fields -/

section Fields
variable (inst : BitVec 32)

theorem ones_getLsbD (n : Nat) (hn : n < 64) :
    ∀ i < 64, ((1#64 <<< n) - 1#64).getLsbD i = decide (i < n) := by
  have h : ∀ n < 64, ∀ i < 64, ((1#64 <<< n) - 1#64).getLsbD i = decide (i < n) := by
    decide +kernel
  exact h n hn

theorem BITS_getLsbD (hi lo i : Nat) (h : hi - lo < 63) (hx : i < 64) :
    (BITS inst hi lo).getLsbD i = (decide (i < hi - lo + 1) && inst.getLsbD (lo + i)) := by
  rw [BITS, BitVec.getLsbD_and, ones_getLsbD _ (by omega) i hx, BitVec.getLsbD_setWidth,
    BitVec.getLsbD_ushiftRight]
  grind

/-- A field cut to its width, and one extended to a word. -/
theorem BITS_setWidth {hi lo : Nat} (w : Nat) (h : hi - lo + 1 = w) (hw : w ≤ 32) :
    (BITS inst hi lo).setWidth w = inst.extractLsb' lo w := by
  apply BitVec.eq_of_getLsbD_eq
  intro i hx
  rw [BitVec.getLsbD_setWidth, BITS_getLsbD _ _ _ _ (by omega) (by omega),
    BitVec.getLsbD_extractLsb']
  grind

theorem BITS_word {hi lo : Nat} (w : Nat) (h : hi - lo + 1 = w) (hw : w ≤ 32) :
    (BITS inst hi lo).setWidth 32 = (inst.extractLsb' lo w).setWidth 32 := by
  apply BitVec.eq_of_getLsbD_eq
  intro i hx
  rw [BitVec.getLsbD_setWidth, BITS_getLsbD _ _ _ _ (by omega) (by omega),
    BitVec.getLsbD_setWidth, BitVec.getLsbD_extractLsb']
  grind

theorem rs1_eq : rs1 inst = Rv32e.rs1 inst := BITS_setWidth inst 5 rfl (by omega)
theorem rs2_eq : rs2 inst = Rv32e.rs2 inst := BITS_setWidth inst 5 rfl (by omega)
theorem rd_eq : rd inst = Rv32e.rd inst := BITS_setWidth inst 5 rfl (by omega)

/-- A sign extension to 64 bits cut to 32 is one to 32 bits. -/
theorem SEXT_setWidth (x : BitVec 64) (len : Nat) :
    (SEXT x len).setWidth 32 = (x.setWidth len).signExtend 32 := by
  apply BitVec.eq_of_getLsbD_eq
  intro i hi
  simp only [SEXT, BitVec.getLsbD_setWidth, BitVec.getLsbD_signExtend]
  grind

theorem immI_eq : immI inst = (Rv32e.funct12 inst).signExtend 32 := by
  have h : (BITS inst 31 20).setWidth 12 = Rv32e.funct12 inst :=
    BITS_setWidth inst 12 rfl (by omega)
  rw [immI, SEXT_setWidth, h]

theorem immJ_eq : immJ inst = (Rv32e.immJ inst).signExtend 32 := by
  have h : ((BITS inst 31 31 <<< 20) ||| (BITS inst 19 12 <<< 12) ||| (BITS inst 20 20 <<< 11) |||
      (BITS inst 30 21 <<< 1)).setWidth 21 = Rv32e.immJ inst := by
    apply BitVec.eq_of_getLsbD_eq
    intro i hi
    simp only [Rv32e.immJ, BitVec.getLsbD_setWidth, BitVec.getLsbD_or, BitVec.getLsbD_shiftLeft,
      BitVec.getLsbD_append, BitVec.getLsbD_extractLsb', BitVec.getLsbD_zero]
    simp (disch := omega) only [BITS_getLsbD]
    grind
  rw [immJ, SEXT_setWidth, h]

theorem immB_eq : immB inst = (Rv32e.immB inst).signExtend 32 := by
  have h : ((BITS inst 31 31 <<< 12) ||| (BITS inst 7 7 <<< 11) ||| (BITS inst 30 25 <<< 5) |||
      (BITS inst 11 8 <<< 1)).setWidth 13 = Rv32e.immB inst := by
    apply BitVec.eq_of_getLsbD_eq
    intro i hi
    simp only [Rv32e.immB, BitVec.getLsbD_setWidth, BitVec.getLsbD_or, BitVec.getLsbD_shiftLeft,
      BitVec.getLsbD_append, BitVec.getLsbD_extractLsb', BitVec.getLsbD_zero]
    simp (disch := omega) only [BITS_getLsbD]
    grind
  rw [immB, SEXT_setWidth, h]

theorem immU_eq : immU inst = Rv32e.immU inst ++ 0#12 := by
  apply BitVec.eq_of_getLsbD_eq
  intro i hi
  simp only [immU, SEXT, Rv32e.immU, BitVec.getLsbD_setWidth, BitVec.getLsbD_shiftLeft,
    BitVec.getLsbD_signExtend, BitVec.getLsbD_append, BitVec.getLsbD_extractLsb',
    BitVec.getLsbD_zero]
  simp (disch := omega) only [BITS_getLsbD]
  grind

theorem immS_eq : immS inst = (Rv32e.immS inst).signExtend 32 := by
  apply BitVec.eq_of_getLsbD_eq
  intro i hi
  simp only [immS, SEXT, Rv32e.immS, BitVec.getLsbD_setWidth, BitVec.getLsbD_or,
    BitVec.getLsbD_shiftLeft, BitVec.getLsbD_signExtend, BitVec.getLsbD_append,
    BitVec.getLsbD_extractLsb', BitVec.msb_eq_getLsbD_last]
  simp (disch := omega) only [BITS_getLsbD]
  grind

end Fields

/-! ## Patterns -/

/-- The keys, masks and shifts of the pattern table. -/
def decodedPats : List ((BitVec 64 × BitVec 64 × Nat) × Name × InstType) := [
  ((0x00000037#64, 0x0000007f#64, 0), .lui, .U),
  ((0x00000017#64, 0x0000007f#64, 0), .auipc, .U),
  ((0x00000013#64, 0x0000707f#64, 0), .addi, .I),
  ((0x00002013#64, 0x0000707f#64, 0), .slti, .I),
  ((0x00003013#64, 0x0000707f#64, 0), .sltiu, .I),
  ((0x00004013#64, 0x0000707f#64, 0), .xori, .I),
  ((0x00006013#64, 0x0000707f#64, 0), .ori, .I),
  ((0x00007013#64, 0x0000707f#64, 0), .andi, .I),
  ((0x00001013#64, 0xfe00707f#64, 0), .slli, .I),
  ((0x00005013#64, 0xfe00707f#64, 0), .srli, .I),
  ((0x40005013#64, 0xfe00707f#64, 0), .srai, .I),
  ((0x00000003#64, 0x0000707f#64, 0), .lb, .I),
  ((0x00001003#64, 0x0000707f#64, 0), .lh, .I),
  ((0x00002003#64, 0x0000707f#64, 0), .lw, .I),
  ((0x00004003#64, 0x0000707f#64, 0), .lbu, .I),
  ((0x00005003#64, 0x0000707f#64, 0), .lhu, .I),
  ((0x00000023#64, 0x0000707f#64, 0), .sb, .S),
  ((0x00001023#64, 0x0000707f#64, 0), .sh, .S),
  ((0x00002023#64, 0x0000707f#64, 0), .sw, .S),
  ((0x00000033#64, 0xfe00707f#64, 0), .add, .R),
  ((0x40000033#64, 0xfe00707f#64, 0), .sub, .R),
  ((0x02000033#64, 0xfe00707f#64, 0), .mul, .R),
  ((0x02001033#64, 0xfe00707f#64, 0), .mulh, .R),
  ((0x02002033#64, 0xfe00707f#64, 0), .mulhsu, .R),
  ((0x02003033#64, 0xfe00707f#64, 0), .mulhu, .R),
  ((0x02004033#64, 0xfe00707f#64, 0), .div, .R),
  ((0x02005033#64, 0xfe00707f#64, 0), .divu, .R),
  ((0x02006033#64, 0xfe00707f#64, 0), .rem, .R),
  ((0x02007033#64, 0xfe00707f#64, 0), .remu, .R),
  ((0x00001033#64, 0xfe00707f#64, 0), .sll, .R),
  ((0x00005033#64, 0xfe00707f#64, 0), .srl, .R),
  ((0x40005033#64, 0xfe00707f#64, 0), .sra, .R),
  ((0x00002033#64, 0xfe00707f#64, 0), .slt, .R),
  ((0x00003033#64, 0xfe00707f#64, 0), .sltu, .R),
  ((0x00004033#64, 0xfe00707f#64, 0), .xor, .R),
  ((0x00006033#64, 0xfe00707f#64, 0), .or, .R),
  ((0x00007033#64, 0xfe00707f#64, 0), .and, .R),
  ((0x00000063#64, 0x0000707f#64, 0), .beq, .B),
  ((0x00001063#64, 0x0000707f#64, 0), .bne, .B),
  ((0x00004063#64, 0x0000707f#64, 0), .blt, .B),
  ((0x00005063#64, 0x0000707f#64, 0), .bge, .B),
  ((0x00006063#64, 0x0000707f#64, 0), .bltu, .B),
  ((0x00007063#64, 0x0000707f#64, 0), .bgeu, .B),
  ((0x0000006f#64, 0x0000007f#64, 0), .jal, .J),
  ((0x00000067#64, 0x0000707f#64, 0), .jalr, .I),
  ((0x00001073#64, 0x0000707f#64, 0), .csrrw, .I),
  ((0x00002073#64, 0x0000707f#64, 0), .csrrs, .I),
  ((0x00003073#64, 0x0000707f#64, 0), .csrrc, .I),
  ((0x00005073#64, 0x0000707f#64, 0), .csrrwi, .I),
  ((0x00006073#64, 0x0000707f#64, 0), .csrrsi, .I),
  ((0x00007073#64, 0x0000707f#64, 0), .csrrci, .I),
  ((0x00000073#64, 0xffffffff#64, 0), .ecall, .N),
  ((0x30200073#64, 0xffffffff#64, 0), .mret, .N),
  ((0x00100073#64, 0xffffffff#64, 0), .ebreak, .N),
  ((0x00000000#64, 0x00000000#64, 32), .inv, .N)]

theorem instpats_decoded : instpats.map (fun p => (patternDecode p.1, p.2)) = decodedPats := by
  simp only [instpats, List.map_cons, List.map_nil, patternDecode]
  -- a literal is `String.ofList` of its characters; decoding its bytes back is what is slow
  repeat rw [String.toList_ofList]
  decide +kernel

/-- What is known about a pattern when the bits `mask` of a word are `word`: that
it matches, that it does not, or nothing. -/
def resolve (mask word key pmask : BitVec 64) (shift : Nat) : Option Bool :=
  if shift ≠ 0 then none
  else if pmask &&& mask = pmask then some (word &&& pmask == key)
  else if key &&& mask = word &&& pmask then none else some false

/-- The first pattern that matches every word with these bits. -/
def firstMatch (mask word : BitVec 64) :
    List ((BitVec 64 × BitVec 64 × Nat) × Name × InstType) → Option (Name × InstType)
  | [] => none
  | ((key, pmask, shift), r) :: ps =>
    match resolve mask word key pmask shift with
    | some true => some r
    | some false => firstMatch mask word ps
    | none => none

section Patterns
variable {inst : BitVec 32} {mask word : BitVec 64} (h : inst.setWidth 64 &&& mask = word)
include h

theorem match_of_resolve {key pmask : BitVec 64} {shift : Nat} {b : Bool}
    (hr : resolve mask word key pmask shift = some b) :
    ((inst.setWidth 64 >>> shift) &&& pmask == key) = b := by
  unfold resolve at hr
  split_ifs at hr with hs hsub hne
  · obtain rfl : shift = 0 := by simpa using hs
    have heq : inst.setWidth 64 &&& pmask = word &&& pmask := by
      rw [← h, BitVec.and_assoc, BitVec.and_comm mask, hsub]
    rw [BitVec.ushiftRight_zero, heq]
    exact Option.some.inj hr
  · obtain rfl : shift = 0 := by simpa using hs
    obtain rfl := Option.some.inj hr
    rw [BitVec.ushiftRight_zero, beq_eq_false_iff_ne]
    intro hk
    apply hne
    rw [← hk, ← h, BitVec.and_assoc, BitVec.and_comm pmask, ← BitVec.and_assoc]

theorem find?_of_firstMatch {ps : List ((BitVec 64 × BitVec 64 × Nat) × Name × InstType)}
    {r : Name × InstType} (hf : firstMatch mask word ps = some r) :
    (ps.find? fun p => (inst.setWidth 64 >>> p.1.2.2) &&& p.1.2.1 == p.1.1).map (·.2) = some r := by
  induction ps with
  | nil => exact absurd hf (by simp [firstMatch])
  | cons p ps ih =>
    unfold firstMatch at hf
    split at hf
    · rename_i hr
      rw [List.find?_cons, match_of_resolve h hr]
      exact hf
    · rename_i hr
      rw [List.find?_cons, match_of_resolve h hr]
      exact ih hf
    · exact absurd hf (by simp)

theorem matchInst_of_firstMatch {r : Name × InstType}
    (hf : firstMatch mask word decodedPats = some r) : matchInst inst = some r := by
  have hfind := find?_of_firstMatch h hf
  rw [← instpats_decoded, List.find?_map] at hfind
  rw [matchInst, ← hfind, Option.map_map]
  rfl

end Patterns

section Masks
variable {inst : BitVec 32}

/-- The words of an opcode, of an opcode with `funct3`, and with `funct7` too. -/
theorem opcode_masked {op : BitVec 7} (h : Rv32e.opcode inst = op) :
    inst.setWidth 64 &&& 0x7f#64 = op.setWidth 64 := by
  have hm : ∀ i < 64, (0x7f#64).getLsbD i = decide (i < 7) := by decide
  subst h
  apply BitVec.eq_of_getLsbD_eq
  intro i hi
  simp only [Rv32e.opcode, BitVec.getLsbD_and, BitVec.getLsbD_setWidth,
    BitVec.getLsbD_extractLsb', hm i hi]
  grind

theorem funct3_masked {op : BitVec 7} {f3 : BitVec 3} (h : Rv32e.opcode inst = op)
    (h3 : Rv32e.funct3 inst = f3) :
    inst.setWidth 64 &&& 0x707f#64 = f3.setWidth 64 <<< 12 ||| op.setWidth 64 := by
  have hm : ∀ i < 64, (0x707f#64).getLsbD i = decide (i < 7 ∨ 12 ≤ i ∧ i < 15) := by decide
  subst h h3
  apply BitVec.eq_of_getLsbD_eq
  intro i hi
  simp only [Rv32e.opcode, Rv32e.funct3, BitVec.getLsbD_and, BitVec.getLsbD_or,
    BitVec.getLsbD_shiftLeft, BitVec.getLsbD_setWidth, BitVec.getLsbD_extractLsb', hm i hi]
  grind

theorem funct7_masked {op f7 : BitVec 7} {f3 : BitVec 3} (h : Rv32e.opcode inst = op)
    (h3 : Rv32e.funct3 inst = f3) (h7 : Rv32e.funct7 inst = f7) :
    inst.setWidth 64 &&& 0xfe00707f#64 =
      f7.setWidth 64 <<< 25 ||| f3.setWidth 64 <<< 12 ||| op.setWidth 64 := by
  have hm : ∀ i < 64, (0xfe00707f#64).getLsbD i =
      decide (i < 7 ∨ 12 ≤ i ∧ i < 15 ∨ 25 ≤ i ∧ i < 32) := by decide
  subst h h3 h7
  apply BitVec.eq_of_getLsbD_eq
  intro i hi
  simp only [Rv32e.opcode, Rv32e.funct3, Rv32e.funct7, BitVec.getLsbD_and, BitVec.getLsbD_or,
    BitVec.getLsbD_shiftLeft, BitVec.getLsbD_setWidth, BitVec.getLsbD_extractLsb', hm i hi]
  grind

end Masks

/-! ## Instructions -/

def branchName : Rv32e.Cond → Name
  | .eq => .beq
  | .ne => .bne
  | .lt => .blt
  | .ge => .bge
  | .ltu => .bltu
  | .geu => .bgeu

def storeName : Rv32e.Width → Name
  | .byte => .sb
  | .half => .sh
  | .word => .sw

def opName : Rv32e.Alu → Name
  | .add => .add
  | .sub => .sub
  | .sll => .sll
  | .slt => .slt
  | .sltu => .sltu
  | .xor => .xor
  | .srl => .srl
  | .sra => .sra
  | .or => .or
  | .and => .and

def csrName : Rv32e.CsrOp → Name
  | .rw => .csrrw
  | .rs => .csrrs
  | .rc => .csrrc

def csrImmName : Rv32e.CsrOp → Name
  | .rw => .csrrwi
  | .rs => .csrrsi
  | .rc => .csrrci

/-- The CSR exists and is not written if it is read-only. -/
def CsrAllowed (op : Rv32e.CsrOp) (csr : BitVec 12) (src : BitVec 5) : Prop :=
  (Rv32e.csrKnown csr && !(Rv32e.csrReadOnly csr && Rv32e.csrWrites op src)) = true

/-- The pattern that stands for an instruction of the table, with the fields the
instruction takes from the word. -/
inductive Form (inst : BitVec 32) : Rv32e.Instr → Name → InstType → Prop where
  | lui : Form inst (.lui (Rv32e.rd inst) (Rv32e.immU inst)) .lui .U
  | auipc : Form inst (.auipc (Rv32e.rd inst) (Rv32e.immU inst)) .auipc .U
  | jal : Form inst (.jal (Rv32e.rd inst) (Rv32e.immJ inst)) .jal .J
  | jalr : Form inst (.jalr (Rv32e.rd inst) (Rv32e.rs1 inst) (Rv32e.funct12 inst)) .jalr .I
  | branch (cond : Rv32e.Cond) :
    Form inst (.branch cond (Rv32e.rs1 inst) (Rv32e.rs2 inst) (Rv32e.immB inst))
      (branchName cond) .B
  | lb : Form inst (.load .byte false (Rv32e.rd inst) (Rv32e.rs1 inst) (Rv32e.funct12 inst)) .lb .I
  | lh : Form inst (.load .half false (Rv32e.rd inst) (Rv32e.rs1 inst) (Rv32e.funct12 inst)) .lh .I
  | lw : Form inst (.load .word false (Rv32e.rd inst) (Rv32e.rs1 inst) (Rv32e.funct12 inst)) .lw .I
  | lbu : Form inst (.load .byte true (Rv32e.rd inst) (Rv32e.rs1 inst) (Rv32e.funct12 inst)) .lbu .I
  | lhu : Form inst (.load .half true (Rv32e.rd inst) (Rv32e.rs1 inst) (Rv32e.funct12 inst)) .lhu .I
  | store (width : Rv32e.Width) :
    Form inst (.store width (Rv32e.rs1 inst) (Rv32e.rs2 inst) (Rv32e.immS inst))
      (storeName width) .S
  | addi : Form inst (.opImm .add (Rv32e.rd inst) (Rv32e.rs1 inst) (Rv32e.funct12 inst)) .addi .I
  | slti : Form inst (.opImm .slt (Rv32e.rd inst) (Rv32e.rs1 inst) (Rv32e.funct12 inst)) .slti .I
  | sltiu : Form inst (.opImm .sltu (Rv32e.rd inst) (Rv32e.rs1 inst) (Rv32e.funct12 inst)) .sltiu .I
  | xori : Form inst (.opImm .xor (Rv32e.rd inst) (Rv32e.rs1 inst) (Rv32e.funct12 inst)) .xori .I
  | ori : Form inst (.opImm .or (Rv32e.rd inst) (Rv32e.rs1 inst) (Rv32e.funct12 inst)) .ori .I
  | andi : Form inst (.opImm .and (Rv32e.rd inst) (Rv32e.rs1 inst) (Rv32e.funct12 inst)) .andi .I
  | slli : Form inst (.shiftImm .sll (Rv32e.rd inst) (Rv32e.rs1 inst) (Rv32e.rs2 inst)) .slli .I
  | srli : Form inst (.shiftImm .srl (Rv32e.rd inst) (Rv32e.rs1 inst) (Rv32e.rs2 inst)) .srli .I
  | srai : Form inst (.shiftImm .sra (Rv32e.rd inst) (Rv32e.rs1 inst) (Rv32e.rs2 inst)) .srai .I
  | op (op : Rv32e.Alu) :
    Form inst (.op op (Rv32e.rd inst) (Rv32e.rs1 inst) (Rv32e.rs2 inst)) (opName op) .R
  | csr (op : Rv32e.CsrOp) (hk : CsrAllowed op (Rv32e.funct12 inst) (Rv32e.rs1 inst)) :
    Form inst (.csr op (Rv32e.funct12 inst) (Rv32e.rd inst) (Rv32e.rs1 inst)) (csrName op) .I
  | csrImm (op : Rv32e.CsrOp) (hk : CsrAllowed op (Rv32e.funct12 inst) (Rv32e.rs1 inst)) :
    Form inst (.csrImm op (Rv32e.funct12 inst) (Rv32e.rd inst) (Rv32e.rs1 inst)) (csrImmName op) .I
  | ecall : Form inst .ecall .ecall .N
  | mret : Form inst .mret .mret .N

/-- The pattern table agrees with the encoding. -/
def Found (inst : BitVec 32) (i : Rv32e.Instr) : Prop :=
  ∃ name type, Form inst i name type ∧ matchInst inst = some (name, type)

section Found
variable {inst : BitVec 32}

/-- The pattern found for the words of an opcode with `funct3`. -/
theorem matchInst_funct3 {op : BitVec 7} {f3 : BitVec 3} {r : Name × InstType}
    (h : Rv32e.opcode inst = op) (h3 : Rv32e.funct3 inst = f3)
    (hf : firstMatch 0x707f#64 (f3.setWidth 64 <<< 12 ||| op.setWidth 64) decodedPats = some r) :
    matchInst inst = some r := matchInst_of_firstMatch (funct3_masked h h3) hf

theorem matchInst_funct7 {op f7 : BitVec 7} {f3 : BitVec 3} {r : Name × InstType}
    (h : Rv32e.opcode inst = op) (h3 : Rv32e.funct3 inst = f3) (h7 : Rv32e.funct7 inst = f7)
    (hf : firstMatch 0xfe00707f#64
      (f7.setWidth 64 <<< 25 ||| f3.setWidth 64 <<< 12 ||| op.setWidth 64) decodedPats = some r) :
    matchInst inst = some r := matchInst_of_firstMatch (funct7_masked h h3 h7) hf

theorem found_branch (h : Rv32e.opcode inst = 0b1100011#7) {cond : Rv32e.Cond}
    (hc : Rv32e.decodeBranch inst = some cond) :
    Found inst (.branch cond (Rv32e.rs1 inst) (Rv32e.rs2 inst) (Rv32e.immB inst)) := by
  refine ⟨branchName cond, .B, .branch cond, ?_⟩
  unfold Rv32e.decodeBranch at hc
  split_ifs at hc with h3 h3 h3 h3 h3 h3 <;> cases hc
  · exact matchInst_funct3 (r := (.beq, .B)) h h3 (by decide +kernel)
  · exact matchInst_funct3 (r := (.bne, .B)) h h3 (by decide +kernel)
  · exact matchInst_funct3 (r := (.blt, .B)) h h3 (by decide +kernel)
  · exact matchInst_funct3 (r := (.bge, .B)) h h3 (by decide +kernel)
  · exact matchInst_funct3 (r := (.bltu, .B)) h h3 (by decide +kernel)
  · exact matchInst_funct3 (r := (.bgeu, .B)) h h3 (by decide +kernel)

theorem found_load (h : Rv32e.opcode inst = 0b0000011#7) {width : Rv32e.Width} {unsigned : Bool}
    (hc : Rv32e.decodeLoad inst = some (width, unsigned)) :
    Found inst
      (.load width unsigned (Rv32e.rd inst) (Rv32e.rs1 inst) (Rv32e.funct12 inst)) := by
  unfold Rv32e.decodeLoad at hc
  split_ifs at hc with h3 h3 h3 h3 h3 <;> cases hc
  · exact ⟨_, _, .lb, matchInst_funct3 h h3 (by decide +kernel)⟩
  · exact ⟨_, _, .lh, matchInst_funct3 h h3 (by decide +kernel)⟩
  · exact ⟨_, _, .lw, matchInst_funct3 h h3 (by decide +kernel)⟩
  · exact ⟨_, _, .lbu, matchInst_funct3 h h3 (by decide +kernel)⟩
  · exact ⟨_, _, .lhu, matchInst_funct3 h h3 (by decide +kernel)⟩

theorem found_store (h : Rv32e.opcode inst = 0b0100011#7) {width : Rv32e.Width}
    (hc : Rv32e.decodeStore inst = some width) :
    Found inst (.store width (Rv32e.rs1 inst) (Rv32e.rs2 inst) (Rv32e.immS inst)) := by
  refine ⟨storeName width, .S, .store width, ?_⟩
  unfold Rv32e.decodeStore at hc
  split_ifs at hc with h3 h3 h3 <;> cases hc
  · exact matchInst_funct3 (r := (.sb, .S)) h h3 (by decide +kernel)
  · exact matchInst_funct3 (r := (.sh, .S)) h h3 (by decide +kernel)
  · exact matchInst_funct3 (r := (.sw, .S)) h h3 (by decide +kernel)

theorem found_opImm (h : Rv32e.opcode inst = 0b0010011#7) {i : Rv32e.Instr}
    (hc : Rv32e.decodeOpImm inst = some i) : Found inst i := by
  simp only [Rv32e.decodeOpImm] at hc
  split_ifs at hc with h3 h3 h3 h3 h3 h3 h3 h3 h3 <;> cases hc
  · exact ⟨_, _, .addi, matchInst_funct3 h h3 (by decide +kernel)⟩
  · exact ⟨_, _, .slti, matchInst_funct3 h h3 (by decide +kernel)⟩
  · exact ⟨_, _, .sltiu, matchInst_funct3 h h3 (by decide +kernel)⟩
  · exact ⟨_, _, .xori, matchInst_funct3 h h3 (by decide +kernel)⟩
  · exact ⟨_, _, .ori, matchInst_funct3 h h3 (by decide +kernel)⟩
  · exact ⟨_, _, .andi, matchInst_funct3 h h3 (by decide +kernel)⟩
  · exact ⟨_, _, .slli, matchInst_funct7 h h3.1 h3.2 (by decide +kernel)⟩
  · exact ⟨_, _, .srli, matchInst_funct7 h h3.1 h3.2 (by decide +kernel)⟩
  · exact ⟨_, _, .srai, matchInst_funct7 h h3.1 h3.2 (by decide +kernel)⟩

theorem found_op (h : Rv32e.opcode inst = 0b0110011#7) {op : Rv32e.Alu}
    (hc : Rv32e.decodeOp inst = some op) :
    Found inst (.op op (Rv32e.rd inst) (Rv32e.rs1 inst) (Rv32e.rs2 inst)) := by
  refine ⟨opName op, .R, .op op, ?_⟩
  have h111 : ∀ f : BitVec 3, f ≠ 0b000#3 → f ≠ 0b001#3 → f ≠ 0b010#3 → f ≠ 0b011#3 →
      f ≠ 0b100#3 → f ≠ 0b101#3 → f ≠ 0b110#3 → f = 0b111#3 := by
    intro f
    bv_omega
  unfold Rv32e.decodeOp at hc
  split_ifs at hc with h7 h0 h1 h2 h3 h4 h5 h6 h7 h0 h5 <;> cases hc
  · exact matchInst_funct7 (r := (.add, .R)) h h0 h7 (by decide +kernel)
  · exact matchInst_funct7 (r := (.sll, .R)) h h1 h7 (by decide +kernel)
  · exact matchInst_funct7 (r := (.slt, .R)) h h2 h7 (by decide +kernel)
  · exact matchInst_funct7 (r := (.sltu, .R)) h h3 h7 (by decide +kernel)
  · exact matchInst_funct7 (r := (.xor, .R)) h h4 h7 (by decide +kernel)
  · exact matchInst_funct7 (r := (.srl, .R)) h h5 h7 (by decide +kernel)
  · exact matchInst_funct7 (r := (.or, .R)) h h6 h7 (by decide +kernel)
  · have h3 := h111 _ h0 h1 h2 h3 h4 h5 h6
    exact matchInst_funct7 (r := (.and, .R)) h h3 h7 (by decide +kernel)
  · exact matchInst_funct7 (r := (.sub, .R)) h h0 h7 (by decide +kernel)
  · exact matchInst_funct7 (r := (.sra, .R)) h h5 h7 (by decide +kernel)

theorem found_csr (h : Rv32e.opcode inst = 0b1110011#7) {op : Rv32e.CsrOp}
    (hc : Rv32e.decodeCsrOp inst = some op)
    (hk : CsrAllowed op (Rv32e.funct12 inst) (Rv32e.rs1 inst)) :
    if (Rv32e.funct3 inst).getLsbD 2 then
      Found inst (.csrImm op (Rv32e.funct12 inst) (Rv32e.rd inst) (Rv32e.rs1 inst))
    else Found inst (.csr op (Rv32e.funct12 inst) (Rv32e.rd inst) (Rv32e.rs1 inst)) := by
  have hf : ∀ (f : BitVec 3) (v : BitVec 2), f.extractLsb' 0 2 = v →
      f = (if f.getLsbD 2 then 1#1 else 0#1) ++ v := by decide
  unfold Rv32e.decodeCsrOp at hc
  cases hbit : (Rv32e.funct3 inst).getLsbD 2 with
  | false =>
    rw [if_neg Bool.false_ne_true]
    refine ⟨csrName op, .I, .csr op hk, ?_⟩
    split_ifs at hc with h2 h2 h2 <;> cases hc
    · have h3 := hf _ _ h2
      rw [hbit] at h3
      exact matchInst_funct3 (r := (.csrrw, .I)) h h3 (by decide +kernel)
    · have h3 := hf _ _ h2
      rw [hbit] at h3
      exact matchInst_funct3 (r := (.csrrs, .I)) h h3 (by decide +kernel)
    · have h3 := hf _ _ h2
      rw [hbit] at h3
      exact matchInst_funct3 (r := (.csrrc, .I)) h h3 (by decide +kernel)
  | true =>
    rw [if_pos rfl]
    refine ⟨csrImmName op, .I, .csrImm op hk, ?_⟩
    split_ifs at hc with h2 h2 h2 <;> cases hc
    · have h3 := hf _ _ h2
      rw [hbit] at h3
      exact matchInst_funct3 (r := (.csrrwi, .I)) h h3 (by decide +kernel)
    · have h3 := hf _ _ h2
      rw [hbit] at h3
      exact matchInst_funct3 (r := (.csrrsi, .I)) h h3 (by decide +kernel)
    · have h3 := hf _ _ h2
      rw [hbit] at h3
      exact matchInst_funct3 (r := (.csrrci, .I)) h h3 (by decide +kernel)

/-- A word from its fields. -/
theorem word_eq (hop : Rv32e.opcode inst = 0b1110011#7) (h3 : Rv32e.funct3 inst = 0b000#3)
    (hrd : Rv32e.rd inst = 0#5) (hrs : Rv32e.rs1 inst = 0#5) {f12 : BitVec 12}
    (hf : Rv32e.funct12 inst = f12) : inst = f12 ++ 0b00000000000001110011#20 := by
  have hw : inst = Rv32e.funct12 inst ++ (Rv32e.rs1 inst ++ Rv32e.funct3 inst ++ Rv32e.rd inst ++
      Rv32e.opcode inst) := by
    apply BitVec.eq_of_getLsbD_eq
    intro i hi
    simp only [Rv32e.funct12, Rv32e.rs1, Rv32e.funct3, Rv32e.rd, Rv32e.opcode,
      BitVec.getLsbD_append, BitVec.getLsbD_extractLsb']
    grind
  rw [hop, h3, hrd, hrs, hf] at hw
  exact hw

theorem found_system (h : Rv32e.opcode inst = 0b1110011#7) {i : Rv32e.Instr}
    (hd : Rv32e.decodeSystem inst = some i) (hw : i ≠ .wfi) (he : i ≠ .ebreak) :
    Found inst i := by
  have hall : ∀ {w : BitVec 32} {r : Name × InstType}, inst = w →
      firstMatch 0xffffffffffffffff#64 (w.setWidth 64) decodedPats = some r →
      matchInst inst = some r := by
    intro w r hw hf
    subst hw
    exact matchInst_of_firstMatch (BitVec.and_allOnes (x := inst.setWidth 64)) hf
  unfold Rv32e.decodeSystem at hd
  split_ifs at hd with h3 hz hf hf hf hf hbit
  · cases hd
    exact ⟨_, _, .ecall, hall (word_eq h h3 hz.1 hz.2 hf) (by decide +kernel)⟩
  · cases hd
    exact absurd rfl he
  · cases hd
    exact ⟨_, _, .mret, hall (word_eq h h3 hz.1 hz.2 hf) (by decide +kernel)⟩
  · cases hd
    exact absurd rfl hw
  · obtain ⟨op, hop, hd⟩ := Option.bind_eq_some_iff.mp hd
    split_ifs at hd with hk
    cases hd
    have hcsr := found_csr h hop hk
    rw [if_pos hbit] at hcsr
    exact hcsr
  · obtain ⟨op, hop, hd⟩ := Option.bind_eq_some_iff.mp hd
    split_ifs at hd with hk
    cases hd
    have hcsr := found_csr h hop hk
    rw [if_neg hbit] at hcsr
    exact hcsr

theorem found_of_decodeAny {i : Rv32e.Instr} (hd : Rv32e.decodeAny inst = some i)
    (hi : i ≠ .fence ∧ i ≠ .fenceI ∧ i ≠ .wfi ∧ i ≠ .ebreak) : Found inst i := by
  cases Rv32e.decoded_of_decodeAny hd with
  | lui h => exact ⟨_, _, .lui, matchInst_of_firstMatch (opcode_masked h) (by decide +kernel)⟩
  | auipc h => exact ⟨_, _, .auipc, matchInst_of_firstMatch (opcode_masked h) (by decide +kernel)⟩
  | jal h => exact ⟨_, _, .jal, matchInst_of_firstMatch (opcode_masked h) (by decide +kernel)⟩
  | jalr h h3 => exact ⟨_, _, .jalr, matchInst_funct3 h h3 (by decide +kernel)⟩
  | branch h hc => exact found_branch h hc
  | load h hc => exact found_load h hc
  | store h hc => exact found_store h hc
  | opImm h hc => exact found_opImm h hc
  | op h hc => exact found_op h hc
  | fence h h3 => exact absurd rfl hi.1
  | fenceI h h3 => exact absurd rfl hi.2.1
  | system h hc => exact found_system h hc hi.2.2.1 hi.2.2.2

end Found

end Nemu
