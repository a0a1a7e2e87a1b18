import AiOsoc.Isa
import AiOsoc.Npc.Effect
import AiOsoc.Npc.Run
import Mathlib.Data.Bool.Basic

/-!
# The datapath against the instruction set

For every legal word the effect of the D, X and W stages is the effect the
instruction table gives, with one corner: a CSR set or clear whose source
register holds zero.
-/

namespace Npc.Core

set_option autoImplicit false

/-! ## Immediates -/

section Immediates
variable (inst : BitVec 32)

theorem signs_getLsbD (n i : Nat) :
    (Idu.signs n inst).getLsbD i = (decide (i < n) && inst.getLsbD 31) := by
  unfold Idu.signs
  cases inst.getLsbD 31 <;> simp

theorem immI_eq : Idu.immI inst = (Rv32e.funct12 inst).signExtend 32 := by
  apply BitVec.eq_of_getLsbD_eq
  intro i hi
  simp only [Idu.immI, Rv32e.funct12, BitVec.getLsbD_append, BitVec.getLsbD_signExtend,
    signs_getLsbD, BitVec.getLsbD_extractLsb', BitVec.msb_eq_getLsbD_last]
  grind

theorem immS_eq : Idu.immS inst = (Rv32e.immS inst).signExtend 32 := by
  apply BitVec.eq_of_getLsbD_eq
  intro i hi
  simp only [Idu.immS, Rv32e.immS, BitVec.getLsbD_append, BitVec.getLsbD_signExtend,
    signs_getLsbD, BitVec.getLsbD_extractLsb', BitVec.msb_eq_getLsbD_last]
  grind

theorem immB_eq : Idu.immB inst = (Rv32e.immB inst).signExtend 32 := by
  apply BitVec.eq_of_getLsbD_eq
  intro i hi
  simp only [Idu.immB, Rv32e.immB, BitVec.getLsbD_append, BitVec.getLsbD_signExtend,
    signs_getLsbD, BitVec.getLsbD_extractLsb', BitVec.msb_eq_getLsbD_last]
  grind

theorem immJ_eq : Idu.immJ inst = (Rv32e.immJ inst).signExtend 32 := by
  apply BitVec.eq_of_getLsbD_eq
  intro i hi
  simp only [Idu.immJ, Rv32e.immJ, BitVec.getLsbD_append, BitVec.getLsbD_signExtend,
    signs_getLsbD, BitVec.getLsbD_extractLsb', BitVec.msb_eq_getLsbD_last]
  grind

end Immediates

/-! ## Byte lanes -/

def widthOf : MemSize → Rv32e.Width
  | .byte => .byte
  | .half => .half
  | .word => .word

/-- The byte of a bus word in the lane of an address. -/
def laneByte (word addr : BitVec 32) : BitVec 8 := word.extractLsb' (8 * (addr.toNat % 4)) 8

theorem low_toNat (addr : BitVec 32) : (addr.extractLsb' 0 2).toNat = addr.toNat % 4 := by
  simp [BitVec.extractLsb'_toNat]

theorem low_eq_zero (addr : BitVec 32) :
    addr.extractLsb' 0 2 = 0b00#2 ↔ addr.toNat % 4 = 0 := by
  rw [← BitVec.toNat_inj, low_toNat]
  simp

theorem getLsbD_zero (addr : BitVec 32) : addr.getLsbD 0 = decide (addr.toNat % 2 = 1) := by
  simp [BitVec.getLsbD, Nat.testBit_zero]

theorem misaligned_eq (size : MemSize) (addr : BitVec 32) :
    misaligned size addr = !Rv32e.aligned (widthOf size) addr := by
  have hl := low_eq_zero addr
  cases size with
  | byte => simp [misaligned, widthOf, Rv32e.aligned, Rv32e.Width.bytes, Nat.mod_one]
  | half =>
    simp only [misaligned, widthOf, Rv32e.aligned, Rv32e.Width.bytes, getLsbD_zero]
    grind
  | word =>
    simp only [misaligned, widthOf, Rv32e.aligned, Rv32e.Width.bytes]
    grind

theorem byteShift_toNat (addr : BitVec 32) :
    (Lsu.byteShift addr).toNat = 8 * (addr.toNat % 4) := by
  unfold Lsu.byteShift
  rw [BitVec.toNat_append, low_toNat]
  simp [Nat.shiftLeft_eq, Nat.mul_comm]

theorem laneByte_getLsbD (word addr : BitVec 32) (i : Nat) :
    (laneByte word addr).getLsbD i =
      (decide (i < 8) && word.getLsbD (8 * (addr.toNat % 4) + i)) := by
  simp [laneByte]

theorem shifted_byte (word addr : BitVec 32) :
    (word >>> Lsu.byteShift addr).extractLsb' 0 8 = laneByte word addr := by
  apply BitVec.eq_of_getLsbD_eq
  intro i hi
  simp only [laneByte_getLsbD, BitVec.getLsbD_extractLsb', BitVec.ushiftRight_eq',
    BitVec.getLsbD_ushiftRight, byteShift_toNat, Nat.zero_add]

theorem shifted_half {addr : BitVec 32} (word : BitVec 32) (ha : addr.toNat % 2 = 0) :
    (word >>> Lsu.byteShift addr).extractLsb' 0 16 =
      laneByte word (addr + 1#32) ++ laneByte word addr := by
  have hlt := addr.isLt
  have hnext : (addr + 1#32).toNat % 4 = addr.toNat % 4 + 1 := by
    rw [BitVec.toNat_add]
    simp only [BitVec.toNat_ofNat]
    omega
  apply BitVec.eq_of_getLsbD_eq
  intro i hi
  simp only [BitVec.getLsbD_append, laneByte_getLsbD, BitVec.getLsbD_extractLsb',
    BitVec.ushiftRight_eq', BitVec.getLsbD_ushiftRight, byteShift_toNat, Nat.zero_add, hnext]
  grind

theorem lanes_word {addr : BitVec 32} (word : BitVec 32) (ha : addr.toNat % 4 = 0) :
    word = laneByte word (addr + 3#32) ++ laneByte word (addr + 2#32) ++
      laneByte word (addr + 1#32) ++ laneByte word addr := by
  have hlt := addr.isLt
  have hlane : ∀ k < 4, (addr + BitVec.ofNat 32 k).toNat % 4 = k := by
    intro k hk
    rw [BitVec.toNat_add, BitVec.toNat_ofNat]
    omega
  have h1 := hlane 1 (by decide)
  have h2 := hlane 2 (by decide)
  have h3 := hlane 3 (by decide)
  apply BitVec.eq_of_getLsbD_eq
  intro i hi
  simp only [BitVec.getLsbD_append, laneByte_getLsbD, ha, h1, h2, h3]
  grind

theorem sign_append (n : Nat) {w : Nat} (v : BitVec w) (b : Bool) (hb : v.msb = b) :
    (if b then BitVec.allOnes n else 0#n) ++ v = v.signExtend (n + w) := by
  rw [BitVec.signExtend_eq_append_of_le (by omega)]
  subst hb
  apply BitVec.eq_of_getLsbD_eq
  intro i hi
  rw [BitVec.getLsbD_cast, BitVec.getLsbD_append, BitVec.getLsbD_append]
  cases v.msb <;> simp

theorem zero_append {w : Nat} (n : Nat) (v : BitVec w) : 0#n ++ v = v.setWidth (n + w) := by
  apply BitVec.eq_of_getLsbD_eq
  intro i hi
  simp only [BitVec.getLsbD_append, BitVec.getLsbD_setWidth, BitVec.getLsbD_zero]
  grind

theorem rdata_eq {size : MemSize} {addr : BitVec 32} (unsigned : Bool) (word : BitVec 32)
    (ha : misaligned size addr = false) :
    Lsu.rdata size unsigned addr true word =
      Rv32e.loadValue (widthOf size) unsigned (laneByte word) addr := by
  rw [misaligned_eq, Bool.not_eq_false'] at ha
  cases size with
  | byte =>
    have hs := sign_append 24 (laneByte word addr) _ (BitVec.msb_eq_getLsbD_last _)
    have hz := zero_append 24 (laneByte word addr)
    simp only [Lsu.rdata, Rv32e.loadValue, widthOf, if_true, shifted_byte]
    rw [← hs, ← hz]
  | half =>
    have hw : addr.toNat % 2 = 0 := of_decide_eq_true ha
    have hs := sign_append 16 (laneByte word (addr + 1#32) ++ laneByte word addr) _
      (BitVec.msb_eq_getLsbD_last _)
    have hz := zero_append 16 (laneByte word (addr + 1#32) ++ laneByte word addr)
    simp only [Lsu.rdata, Rv32e.loadValue, widthOf, if_true, shifted_half word hw]
    rw [← hs, ← hz]
    rfl
  | word =>
    have hw : addr.toNat % 4 = 0 := of_decide_eq_true ha
    have hl := lanes_word word hw
    simpa [Lsu.rdata, Rv32e.loadValue, widthOf] using hl

/-- The bytes a store writes: the strobed lanes of the bus word. -/
def Access.bytes (a : Access) : List (BitVec 32 × BitVec 8) :=
  ((List.range 4).filter fun k => (Lsu.wmask a.size a.addr).getLsbD k).map fun k =>
    (Lsu.alignedAddr (Lsu.busAddr a.addr) + BitVec.ofNat 32 k,
      (Lsu.storeWdata a.addr a.wdata).extractLsb' (8 * k) 8)

/-- Alignment and lanes are a matter of the two low bits of the address. -/
theorem lanes_of_low {size : MemSize} {addr : BitVec 32} {P : BitVec 4 → Nat → Prop}
    (ha : misaligned size addr = false)
    (h : ∀ low : BitVec 2, misaligned size (low.setWidth 32) = false →
      P (Lsu.wmask size (low.setWidth 32)) low.toNat) :
    P (Lsu.wmask size addr) (addr.toNat % 4) := by
  have hlow : ∀ k < 2, ((addr.extractLsb' 0 2).setWidth 32).getLsbD k = addr.getLsbD k := by
    intro k hk
    simp only [BitVec.getLsbD_setWidth, BitVec.getLsbD_extractLsb']
    grind
  have h2 : ((addr.extractLsb' 0 2).setWidth 32).extractLsb' 0 2 = addr.extractLsb' 0 2 := by
    apply BitVec.eq_of_getLsbD_eq
    intro k hk
    simp only [BitVec.getLsbD_extractLsb', Nat.zero_add, hlow k hk]
  have h1 : ((addr.extractLsb' 0 2).setWidth 32).extractLsb' 1 1 = addr.extractLsb' 1 1 := by
    apply BitVec.eq_of_getLsbD_eq
    intro k hk
    simp only [BitVec.getLsbD_extractLsb', hlow (1 + k) (by omega)]
  have hmis : misaligned size ((addr.extractLsb' 0 2).setWidth 32) = misaligned size addr := by
    rw [misaligned, misaligned, h2, hlow 0 (by omega)]
  have hmask : Lsu.wmask size ((addr.extractLsb' 0 2).setWidth 32) = Lsu.wmask size addr := by
    rw [Lsu.wmask, Lsu.wmask, Lsu.byteMask, Lsu.byteMask, Lsu.halfMask, Lsu.halfMask, h2, h1]
  rw [← hmask, ← low_toNat]
  exact h (addr.extractLsb' 0 2) (hmis.trans ha)

/-- The strobed lanes are consecutive and start at the lane of the address. -/
theorem strobes_eq {size : MemSize} {addr : BitVec 32} (ha : misaligned size addr = false) :
    ((List.range 4).filter fun k => (Lsu.wmask size addr).getLsbD k) =
      (List.range (widthOf size).bytes).map (addr.toNat % 4 + ·) := by
  refine lanes_of_low (P := fun mask lane => ((List.range 4).filter fun k => mask.getLsbD k) =
    (List.range (widthOf size).bytes).map (lane + ·)) ha ?_
  cases size <;> decide

theorem alignedAddr_toNat (addr : BitVec 32) :
    (Lsu.alignedAddr addr).toNat = addr.toNat - addr.toNat % 4 := by
  have hlt := addr.isLt
  unfold Lsu.alignedAddr
  rw [BitVec.toNat_append]
  simp only [BitVec.extractLsb'_toNat, BitVec.toNat_ofNat, Nat.zero_mod, Nat.or_zero,
    Nat.shiftLeft_eq, Nat.shiftRight_eq_div_pow]
  omega

theorem alignedAddr_busAddr (addr : BitVec 32) :
    Lsu.alignedAddr (Lsu.busAddr addr) = Lsu.alignedAddr addr := by
  unfold Lsu.busAddr
  split
  · rfl
  · apply BitVec.eq_of_toNat_eq
    rw [alignedAddr_toNat, alignedAddr_toNat]
    omega

theorem lane_addr (addr : BitVec 32) (k : Nat) :
    Lsu.alignedAddr (Lsu.busAddr addr) + BitVec.ofNat 32 (addr.toNat % 4 + k) =
      addr + BitVec.ofNat 32 k := by
  have hlt := addr.isLt
  apply BitVec.eq_of_toNat_eq
  simp only [alignedAddr_busAddr, BitVec.toNat_add, BitVec.toNat_ofNat, alignedAddr_toNat]
  omega

theorem lane_data {addr : BitVec 32} (data : BitVec 32) {k : Nat} (hk : addr.toNat % 4 + k < 4) :
    (Lsu.storeWdata addr data).extractLsb' (8 * (addr.toNat % 4 + k)) 8 =
      data.extractLsb' (8 * k) 8 := by
  apply BitVec.eq_of_getLsbD_eq
  intro i hi
  simp only [Lsu.storeWdata, BitVec.getLsbD_extractLsb', BitVec.shiftLeft_eq',
    BitVec.getLsbD_shiftLeft, byteShift_toNat]
  have hin : 8 * (addr.toNat % 4 + k) + i - 8 * (addr.toNat % 4) = 8 * k + i := by omega
  grind

theorem lanes_fit {size : MemSize} {addr : BitVec 32} (ha : misaligned size addr = false) :
    addr.toNat % 4 + (widthOf size).bytes ≤ 4 := by
  rw [misaligned_eq, Bool.not_eq_false'] at ha
  have ha' : addr.toNat % (widthOf size).bytes = 0 := of_decide_eq_true ha
  cases size <;> simp only [widthOf, Rv32e.Width.bytes] at ha' ⊢ <;> omega

theorem wmask_lane {size : MemSize} {addr : BitVec 32} (ha : misaligned size addr = false)
    (k : Nat) :
    (Lsu.wmask size addr).getLsbD k = true ↔
      addr.toNat % 4 ≤ k ∧ k < addr.toNat % 4 + (widthOf size).bytes := by
  have hfit := lanes_fit ha
  have hmem : k ∈ (List.range 4).filter (fun k => (Lsu.wmask size addr).getLsbD k) ↔
      k ∈ (List.range (widthOf size).bytes).map (addr.toNat % 4 + ·) := by rw [strobes_eq ha]
  simp only [List.mem_filter, List.mem_range, List.mem_map] at hmem
  constructor
  · intro hk
    have hlt : k < 4 := by
      by_contra hge
      rw [BitVec.getLsbD_of_ge _ _ (by omega)] at hk
      exact absurd hk (by decide)
    obtain ⟨j, hj, rfl⟩ := hmem.mp ⟨hlt, hk⟩
    omega
  · rintro ⟨h1, h2⟩
    exact (hmem.mpr ⟨k - addr.toNat % 4, by omega, by omega⟩).2

theorem Access.bytes_eq (a : Access) (ha : misaligned a.size a.addr = false) :
    a.bytes = Rv32e.storeBytes (widthOf a.size) a.addr a.wdata := by
  have hfit := lanes_fit ha
  rw [Access.bytes, strobes_eq ha, List.map_map, Rv32e.storeBytes]
  apply List.map_congr_left
  intro k hk
  rw [List.mem_range] at hk
  have hlane : a.addr.toNat % 4 + k < 4 := by omega
  simp only [Function.comp_apply, lane_addr, lane_data a.wdata hlane]

/-! ## Effects -/

def csrsOf (c : Csr) : Rv32e.Csrs := ⟨c.mtvec, c.mepc, c.mcause⟩

def Access.toIsa (a : Access) : Rv32e.Access :=
  if a.write then .store (widthOf a.size) a.addr a.bytes else .load (widthOf a.size) a.addr

def Effect.toIsa (e : Effect) : Rv32e.Effect where
  write := e.write
  access := e.access.map Access.toIsa
  trap := e.trap
  csrs := csrsOf e.csr
  nextPc := e.nextPc
  halts := e.halts

/-- The register values an instruction sees. -/
def regsOf (regs : RegFile) (r : Rv32e.Reg) : BitVec 32 := RegFile.rdata regs (r.extractLsb' 0 4)

def answerOf (lsu : BusResp) : Rv32e.Answer := ⟨lsu.error, laneByte lsu.rdata⟩

theorem mask2_eq (v : BitVec 32) : Csr.mask2 v = v &&& ~~~3#32 := by
  have h3 : ∀ i < 32, (3#32).getLsbD i = decide (i < 2) := by decide
  apply BitVec.eq_of_getLsbD_eq
  intro i hi
  simp only [Csr.mask2, BitVec.getLsbD_append, BitVec.getLsbD_extractLsb', BitVec.getLsbD_zero,
    BitVec.getLsbD_and, BitVec.getLsbD_not, h3 i hi]
  grind

theorem mask2_of_aligned {v : BitVec 32} (h : v.toNat % 4 = 0) : Csr.mask2 v = v := by
  apply BitVec.eq_of_toNat_eq
  change (Lsu.alignedAddr v).toNat = v.toNat
  rw [alignedAddr_toNat]
  omega

section Isa
variable {c : Csr} {pc : BitVec 32}

theorem proceed_toIsa (next : BitVec 32) (write : Option (BitVec 5 × BitVec 32)) :
    (proceed c next write).toIsa = .complete (csrsOf c) next write := rfl

theorem raise_toIsa (hpc : pc.toNat % 4 = 0) (access : Option Access) (cause : BitVec 32) :
    (raise c pc access cause).toIsa =
      .raise (csrsOf c) pc (access.map Access.toIsa) cause := by
  by_cases hv : c.mtvec = 0#32 <;>
    simp [raise, Effect.toIsa, Rv32e.Effect.raise, csrsOf, hv, mask2_of_aligned hpc]

theorem jump_toIsa (hpc : pc.toNat % 4 = 0) (target : BitVec 32)
    (write : Option (BitVec 5 × BitVec 32)) :
    (jump c pc target write).toIsa = Rv32e.goto pc (csrsOf c) target write := by
  unfold jump Rv32e.goto
  by_cases h : target.toNat % 4 = 0
  · rw [if_pos h, if_pos ((low_eq_zero target).mpr h), proceed_toIsa]
  · rw [if_neg h, if_neg (fun hl => h ((low_eq_zero target).mp hl)), raise_toIsa hpc]
    rfl

theorem accessEffect_toIsa (hpc : pc.toNat % 4 = 0) (a : Access) (mc fc : BitVec 32)
    (write : Option (BitVec 5 × BitVec 32)) (lsu : BusResp) :
    (accessEffect c pc a mc fc write lsu).toIsa =
      Rv32e.memory pc (csrsOf c) (answerOf lsu) (widthOf a.size) a.addr a.toIsa mc fc write := by
  unfold accessEffect Rv32e.memory
  rw [misaligned_eq]
  cases hal : Rv32e.aligned (widthOf a.size) a.addr with
  | false => simp [raise_toIsa hpc]
  | true =>
    cases he : lsu.error with
    | false => simp [answerOf, he, Effect.toIsa, proceed, Rv32e.Effect.complete]
    | true => simp [answerOf, he, raise_toIsa hpc]

end Isa

/-! ## Instructions -/

theorem opcode_eq (inst : BitVec 32) : Rv32e.opcode inst = Idu.opcode inst := rfl
theorem rd_eq (inst : BitVec 32) : Rv32e.rd inst = Idu.rd inst := rfl
theorem funct3_eq (inst : BitVec 32) : Rv32e.funct3 inst = Idu.funct3 inst := rfl
theorem rs1_eq (inst : BitVec 32) : Rv32e.rs1 inst = Idu.rs1 inst := rfl
theorem rs2_eq (inst : BitVec 32) : Rv32e.rs2 inst = Idu.rs2 inst := rfl
theorem funct7_eq (inst : BitVec 32) : Rv32e.funct7 inst = Idu.funct7 inst := rfl
theorem funct12_eq (inst : BitVec 32) : Rv32e.funct12 inst = Idu.csrAddr inst := rfl

attribute [local simp] opcode_eq rd_eq funct3_eq rs1_eq rs2_eq funct7_eq funct12_eq
  Rv32e.decodeAny Rv32e.Instr.regs

/-- The one corner where the datapath and the table differ: a set or clear of
`mtvec` or `mepc` with a register other than `x0` that holds zero, while the CSR
holds a value with low bits set. The table writes the masked value back, the
core does not write. -/
def KeepsLowBits (inst r1 : BitVec 32) (c : Csr) : Prop :=
  Idu.opcode inst = 0b1110011#7 ∧ (Idu.funct3 inst = 0b010#3 ∨ Idu.funct3 inst = 0b011#3) ∧
    Idu.rs1 inst ≠ 0#5 ∧ r1 = 0#32 ∧
    ((Idu.csrAddr inst = 0x305#12 ∧ c.mtvec.toNat % 4 ≠ 0) ∨
      (Idu.csrAddr inst = 0x341#12 ∧ c.mepc.toNat % 4 ≠ 0))

section Classes
variable {inst : BitVec 32} {pc : BitVec 32}

theorem reg_lt {r : BitVec 5} (h : r.getLsbD 4 = false) : r < 16#5 := by
  revert r
  decide

theorem decode_of {i : Rv32e.Instr} (h : Rv32e.decodeAny inst = some i)
    (hr : ∀ r ∈ i.regs, r < 16#5) : Rv32e.decode inst = some i := by
  have hall : (i.regs.all fun r => r < 16#5) = true := by
    rw [List.all_eq_true]
    intro r hm
    exact decide_eq_true (hr r hm)
  rw [Rv32e.decode, h, Option.filter_some, if_pos hall]

theorem slt_eq (a b : BitVec 32) : a.slt b = decide (a.toInt < b.toInt) := rfl

theorem ult_eq (a b : BitVec 32) : a.ult b = decide (a.toNat < b.toNat) := rfl

/-- The ALU operation of the table. -/
def aluOpOf : Rv32e.Alu → AluOp
  | .add => .add
  | .sub => .sub
  | .sll => .sll
  | .slt => .slt
  | .sltu => .sltu
  | .xor => .xor
  | .srl => .srl
  | .sra => .sra
  | .or => .or
  | .and => .and

theorem result_eq (op : Rv32e.Alu) (a b : BitVec 32) :
    Exu.result (aluOpOf op) a b = op.eval a b := by
  cases op <;>
    simp [Exu.result, aluOpOf, Rv32e.Alu.eval, Exu.lessSigned, Exu.lessUnsigned, slt_eq, ult_eq,
      BitVec.shiftLeft_eq', BitVec.ushiftRight_eq']

variable (regs : RegFile) (c : Csr) (lsu : BusResp)

/-- The datapath does what the table says for the word. -/
def Implements (pc inst : BitVec 32) : Prop :=
  ∃ i, Rv32e.decode inst = some i ∧
    (fdEffect ⟨pc, inst, false⟩ (regsOf regs (Idu.rs1 inst)) (regsOf regs (Idu.rs2 inst)) c
      lsu).toIsa = Rv32e.exec (regsOf regs) pc (csrsOf c) (answerOf lsu) i

theorem branch_decoded (h : Idu.opcode inst = 0b1100011#7) (hk : Idu.isBranchLegal inst = true) :
    ∃ cond, Rv32e.decodeBranch inst = some cond ∧
      ∀ a b, branchTaken (Idu.branchOp inst) a b = cond.holds a b := by
  simp only [Idu.isBranchLegal, Bool.and_eq_true, Bool.or_eq_true, beq_iff_eq] at hk
  rcases hk.2 with ((((h3 | h3) | h3) | h3) | h3) | h3 <;>
    simp [Rv32e.decodeBranch, h3, Idu.branchOp, Idu.isBranch, h, branchTaken, Rv32e.Cond.holds,
      slt_eq, ult_eq, Bool.beq_eq_decide_eq]
  all_goals grind

theorem load_decoded (hk : Idu.loadLegal inst = true) :
    Rv32e.decodeLoad inst = some (widthOf (Idu.memSize inst), Idu.memUnsigned inst) := by
  simp only [Idu.loadLegal, Bool.and_eq_true, Bool.or_eq_true, beq_iff_eq] at hk
  rcases hk.2 with (((h3 | h3) | h3) | h3) | h3 <;>
    simp [Rv32e.decodeLoad, h3, Idu.memSize, Idu.memUnsigned, widthOf]

theorem store_decoded (hk : Idu.storeLegal inst = true) :
    Rv32e.decodeStore inst = some (widthOf (Idu.memSize inst)) := by
  simp only [Idu.storeLegal, Bool.and_eq_true, Bool.or_eq_true, beq_iff_eq] at hk
  rcases hk.2 with (h3 | h3) | h3 <;> simp [Rv32e.decodeStore, h3, Idu.memSize, widthOf]

theorem append_split {a : BitVec 7} {b : BitVec 3} {v : BitVec 10} (h : a ++ b = v) :
    a = v.extractLsb' 3 7 ∧ b = v.extractLsb' 0 3 := by
  subst h
  constructor
  · apply BitVec.eq_of_getLsbD_eq
    intro i hi
    simp only [BitVec.getLsbD_extractLsb', BitVec.getLsbD_append]
    grind
  · apply BitVec.eq_of_getLsbD_eq
    intro i hi
    simp only [BitVec.getLsbD_extractLsb', BitVec.getLsbD_append]
    grind

theorem op_decoded (h : Idu.opcode inst = 0b0110011#7) (hk : Idu.opLegal inst = true) :
    ∃ op, Rv32e.decodeOp inst = some op ∧ Idu.aluOp inst = aluOpOf op := by
  have ho : Idu.isOp inst = true ∧ Idu.isOpImm inst = false ∧ Idu.isLui inst = false := by
    simp [Idu.isOp, Idu.isOpImm, Idu.isLui, h]
  simp only [Idu.opLegal, Bool.and_eq_true, Bool.or_eq_true, beq_iff_eq] at hk
  rcases hk.2 with ((((((((hf | hf) | hf) | hf) | hf) | hf) | hf) | hf) | hf) | hf <;>
    obtain ⟨h7, h3⟩ := append_split hf <;>
    simp [Rv32e.decodeOp, h7, h3, Idu.aluOp, ho, aluOpOf]

theorem immI_shamt (inst : BitVec 32) :
    (Idu.immI inst).toNat % 32 = ((Idu.rs2 inst).setWidth 32).toNat % 32 := by
  rw [immI_eq]
  exact Rv32e.funct12_shamt inst

/-- The immediate and the shift forms share the immediate: a shift only uses its
low five bits. -/
theorem opImm_decoded (h : Idu.opcode inst = 0b0010011#7) (hk : Idu.opImmLegal inst = true) :
    ∃ i, Rv32e.decodeOpImm inst = some i ∧ i.regs = [Idu.rd inst, Idu.rs1 inst] ∧
      ∀ x pc c ans, Rv32e.exec x pc c ans i = .complete c (pc + 4#32)
        (Rv32e.setReg (Idu.rd inst)
          (Exu.result (Idu.aluOp inst) (x (Idu.rs1 inst)) (Idu.immI inst))) := by
  have ho : Idu.isOp inst = false ∧ Idu.isOpImm inst = true ∧ Idu.isLui inst = false := by
    simp [Idu.isOp, Idu.isOpImm, Idu.isLui, h]
  have himm : ∀ op, Idu.aluOp inst = aluOpOf op → ∀ x pc c ans,
      Rv32e.exec x pc c ans (.opImm op (Idu.rd inst) (Idu.rs1 inst) (Rv32e.funct12 inst)) =
        .complete c (pc + 4#32) (Rv32e.setReg (Idu.rd inst)
          (Exu.result (Idu.aluOp inst) (x (Idu.rs1 inst)) (Idu.immI inst))) := by
    intro op hop x pc c ans
    rw [hop, result_eq, immI_eq]
    rfl
  have hshift : ∀ op, (op = .sll ∨ op = .srl ∨ op = .sra) → Idu.aluOp inst = aluOpOf op →
      ∀ x pc c ans,
      Rv32e.exec x pc c ans (.shiftImm op (Idu.rd inst) (Idu.rs1 inst) (Idu.rs2 inst)) =
        .complete c (pc + 4#32) (Rv32e.setReg (Idu.rd inst)
          (Exu.result (Idu.aluOp inst) (x (Idu.rs1 inst)) (Idu.immI inst))) := by
    intro op hs hop x pc c ans
    rw [hop, result_eq]
    rcases hs with rfl | rfl | rfl <;> simp only [Rv32e.exec, Rv32e.Alu.eval, immI_shamt]
  simp only [Idu.opImmLegal, Bool.and_eq_true, Bool.or_eq_true, beq_iff_eq] at hk
  rcases hk.2 with (((((((h3 | h3) | h3) | h3) | h3) | h3) | ⟨⟨h3, h7⟩, -⟩) | ⟨⟨h3, h7 | h7⟩, -⟩)
  · exact ⟨.opImm .add _ _ _, by simp [Rv32e.decodeOpImm, h3], rfl,
      himm _ (by simp [Idu.aluOp, ho, h3, aluOpOf])⟩
  · exact ⟨.opImm .slt _ _ _, by simp [Rv32e.decodeOpImm, h3], rfl,
      himm _ (by simp [Idu.aluOp, ho, h3, aluOpOf])⟩
  · exact ⟨.opImm .sltu _ _ _, by simp [Rv32e.decodeOpImm, h3], rfl,
      himm _ (by simp [Idu.aluOp, ho, h3, aluOpOf])⟩
  · exact ⟨.opImm .xor _ _ _, by simp [Rv32e.decodeOpImm, h3], rfl,
      himm _ (by simp [Idu.aluOp, ho, h3, aluOpOf])⟩
  · exact ⟨.opImm .or _ _ _, by simp [Rv32e.decodeOpImm, h3], rfl,
      himm _ (by simp [Idu.aluOp, ho, h3, aluOpOf])⟩
  · exact ⟨.opImm .and _ _ _, by simp [Rv32e.decodeOpImm, h3], rfl,
      himm _ (by simp [Idu.aluOp, ho, h3, aluOpOf])⟩
  · exact ⟨.shiftImm .sll _ _ _, by simp [Rv32e.decodeOpImm, h3, h7], rfl,
      hshift _ (by simp) (by simp [Idu.aluOp, ho, h3, aluOpOf])⟩
  · exact ⟨.shiftImm .srl _ _ _, by simp [Rv32e.decodeOpImm, h3, h7], rfl,
      hshift _ (by simp) (by simp [Idu.aluOp, ho, h3, h7, aluOpOf])⟩
  · exact ⟨.shiftImm .sra _ _ _, by simp [Rv32e.decodeOpImm, h3, h7], rfl,
      hshift _ (by simp) (by simp [Idu.aluOp, ho, h3, h7, aluOpOf])⟩

variable (hl : decodeLegal inst = true) (hpc : pc.toNat % 4 = 0)
include hl

theorem implements_lui (h : Idu.opcode inst = 0b0110111#7) : Implements regs c lsu pc inst := by
  have he : (⟨pc, inst, false⟩ : FD).instError = false := rfl
  have hd := reg_lt (decodeLegal_rd hl (by simp [Idu.writesRd, Idu.isLui, h]))
  refine ⟨.lui (Idu.rd inst) (Rv32e.immU inst), decode_of ?_ ?_, ?_⟩
  · simp [h]
  · simpa using hd
  · rw [fdEffect_lui _ _ _ _ he hl h]
    rfl

theorem implements_auipc (h : Idu.opcode inst = 0b0010111#7) : Implements regs c lsu pc inst := by
  have he : (⟨pc, inst, false⟩ : FD).instError = false := rfl
  have hd := reg_lt (decodeLegal_rd hl (by simp [Idu.writesRd, Idu.isAuipc, h]))
  refine ⟨.auipc (Idu.rd inst) (Rv32e.immU inst), decode_of ?_ ?_, ?_⟩
  · simp [h]
  · simpa using hd
  · rw [fdEffect_auipc _ _ _ _ he hl h]
    rfl

theorem implements_opImm (h : Idu.opcode inst = 0b0010011#7) (hk : Idu.opImmLegal inst = true) :
    Implements regs c lsu pc inst := by
  have he : (⟨pc, inst, false⟩ : FD).instError = false := rfl
  have hd := reg_lt (decodeLegal_rd hl (by simp [Idu.writesRd, Idu.isOpImm, h]))
  have h1 := reg_lt (decodeLegal_rs1 hl (by simp [Idu.readsRs1, Idu.isOpImm, h]))
  obtain ⟨i, hi, hregs, hexec⟩ := opImm_decoded h hk
  refine ⟨i, decode_of ?_ ?_, ?_⟩
  · simp [h, hi]
  · rw [hregs]
    simp [hd, h1]
  · rw [fdEffect_opImm _ _ _ _ he hl h, hexec]
    rfl

theorem implements_op (h : Idu.opcode inst = 0b0110011#7) (hk : Idu.opLegal inst = true) :
    Implements regs c lsu pc inst := by
  have he : (⟨pc, inst, false⟩ : FD).instError = false := rfl
  have hd := reg_lt (decodeLegal_rd hl (by simp [Idu.writesRd, Idu.isOp, h]))
  have h1 := reg_lt (decodeLegal_rs1 hl (by simp [Idu.readsRs1, Idu.isOp, h]))
  have h2 := reg_lt (decodeLegal_rs2 hl (by simp [Idu.readsRs2, Idu.isOp, h]))
  obtain ⟨op, ho, hop⟩ := op_decoded h hk
  refine ⟨.op op (Idu.rd inst) (Idu.rs1 inst) (Idu.rs2 inst), decode_of ?_ ?_, ?_⟩
  · simp [h, ho]
  · simp [hd, h1, h2]
  · rw [fdEffect_op _ _ _ _ he hl h, hop, result_eq]
    rfl

theorem implements_fence (h : Idu.opcode inst = 0b0001111#7)
    (h3 : Idu.funct3 inst = 0b000#3 ∨ Idu.funct3 inst = 0b001#3) :
    Implements regs c lsu pc inst := by
  have he : (⟨pc, inst, false⟩ : FD).instError = false := rfl
  have hf := fdEffect_fence (regsOf regs (Idu.rs1 inst)) (regsOf regs (Idu.rs2 inst)) c lsu he hl h
  rcases h3 with h3 | h3
  · refine ⟨.fence, decode_of ?_ ?_, ?_⟩
    · simp [h, h3]
    · simp
    · rw [hf]
      rfl
  · refine ⟨.fenceI, decode_of ?_ ?_, ?_⟩
    · simp [h, h3]
    · simp
    · rw [hf]
      rfl

theorem implements_mret (h : inst = 0x30200073#32) : Implements regs c lsu pc inst := by
  have he : (⟨pc, inst, false⟩ : FD).instError = false := rfl
  refine ⟨.mret, by rw [h]; decide, ?_⟩
  rw [fdEffect_mret _ _ _ _ he hl h]
  rfl

theorem implements_wfi (h : inst = 0x10500073#32) : Implements regs c lsu pc inst := by
  have he : (⟨pc, inst, false⟩ : FD).instError = false := rfl
  refine ⟨.wfi, by rw [h]; decide, ?_⟩
  rw [fdEffect_wfi _ _ _ _ he hl h]
  rfl

include hpc

theorem implements_ecall (h : inst = 0x00000073#32) : Implements regs c lsu pc inst := by
  have he : (⟨pc, inst, false⟩ : FD).instError = false := rfl
  refine ⟨.ecall, by rw [h]; decide, ?_⟩
  rw [fdEffect_ecall _ _ _ _ he hl h, raise_toIsa hpc]
  rfl

theorem implements_ebreak (h : inst = 0x00100073#32) : Implements regs c lsu pc inst := by
  have he : (⟨pc, inst, false⟩ : FD).instError = false := rfl
  refine ⟨.ebreak, by rw [h]; decide, ?_⟩
  rw [fdEffect_ebreak _ _ _ _ he hl h, raise_toIsa hpc]
  rfl

theorem implements_jal (h : Idu.opcode inst = 0b1101111#7) : Implements regs c lsu pc inst := by
  have he : (⟨pc, inst, false⟩ : FD).instError = false := rfl
  have hd := reg_lt (decodeLegal_rd hl (by simp [Idu.writesRd, Idu.isJal, h]))
  refine ⟨.jal (Idu.rd inst) (Rv32e.immJ inst), decode_of ?_ ?_, ?_⟩
  · simp [h]
  · simpa using hd
  · rw [fdEffect_jal _ _ _ _ he hl h, jump_toIsa hpc, immJ_eq]
    rfl

theorem implements_jalr (h : Idu.opcode inst = 0b1100111#7) (h3 : Idu.funct3 inst = 0b000#3) :
    Implements regs c lsu pc inst := by
  have he : (⟨pc, inst, false⟩ : FD).instError = false := rfl
  have hd := reg_lt (decodeLegal_rd hl (by simp [Idu.writesRd, Idu.isJalr, h, h3]))
  have h1 := reg_lt (decodeLegal_rs1 hl (by simp [Idu.readsRs1, Idu.isJalr, h, h3]))
  refine ⟨.jalr (Idu.rd inst) (Idu.rs1 inst) (Rv32e.funct12 inst), decode_of ?_ ?_, ?_⟩
  · simp [h, h3]
  · simp [hd, h1]
  · rw [fdEffect_jalr _ _ _ _ he hl h h3, jump_toIsa hpc, immI_eq]
    rfl

theorem implements_branch (h : Idu.opcode inst = 0b1100011#7)
    (hk : Idu.isBranchLegal inst = true) : Implements regs c lsu pc inst := by
  have he : (⟨pc, inst, false⟩ : FD).instError = false := rfl
  have h1 := reg_lt (decodeLegal_rs1 hl (by simp [Idu.readsRs1, Idu.isBranch, h]))
  have h2 := reg_lt (decodeLegal_rs2 hl (by simp [Idu.readsRs2, Idu.isBranch, h]))
  obtain ⟨cond, hc, ht⟩ := branch_decoded h hk
  refine ⟨.branch cond (Idu.rs1 inst) (Idu.rs2 inst) (Rv32e.immB inst), decode_of ?_ ?_, ?_⟩
  · simp [h, hc]
  · simp [h1, h2]
  · rw [fdEffect_branch _ _ _ _ he hl h, ht, immB_eq]
    cases hb : cond.holds (regsOf regs (Idu.rs1 inst)) (regsOf regs (Idu.rs2 inst)) with
    | false =>
      simp only [Rv32e.exec, hb, Bool.false_eq_true, if_false]
      rfl
    | true =>
      simp only [Rv32e.exec, hb, if_true]
      exact jump_toIsa hpc _ _

variable (hr : wMemReady true (xStage (dStage ⟨pc, inst, false⟩ (regsOf regs (Idu.rs1 inst))
  (regsOf regs (Idu.rs2 inst))) c) c.mtvec lsu = true)
include hr

theorem implements_load (h : Idu.opcode inst = 0b0000011#7) (hk : Idu.loadLegal inst = true) :
    Implements regs c lsu pc inst := by
  have he : (⟨pc, inst, false⟩ : FD).instError = false := rfl
  have hd := reg_lt (decodeLegal_rd hl (by simp [Idu.writesRd, Idu.isLoad, h]))
  have h1 := reg_lt (decodeLegal_rs1 hl (by simp [Idu.readsRs1, Idu.isLoad, h]))
  have hm := load_answered _ _ _ _ he hl h hk hr
  refine ⟨.load (widthOf (Idu.memSize inst)) (Idu.memUnsigned inst) (Idu.rd inst) (Idu.rs1 inst)
    (Rv32e.funct12 inst), decode_of ?_ ?_, ?_⟩
  · simp [h, load_decoded hk]
  · simp [hd, h1]
  · rw [fdEffect_load _ _ _ _ he hl h hk hm, accessEffect_toIsa hpc, immI_eq]
    apply Rv32e.memory_congr
    intro ha
    rw [rdata_eq _ _ (by rw [misaligned_eq, ha]; rfl)]
    exact ⟨rfl, rfl⟩

theorem implements_store (h : Idu.opcode inst = 0b0100011#7) (hk : Idu.storeLegal inst = true) :
    Implements regs c lsu pc inst := by
  have he : (⟨pc, inst, false⟩ : FD).instError = false := rfl
  have h1 := reg_lt (decodeLegal_rs1 hl (by simp [Idu.readsRs1, Idu.isStore, h]))
  have h2 := reg_lt (decodeLegal_rs2 hl (by simp [Idu.readsRs2, Idu.isStore, h]))
  have hm := store_answered _ _ _ _ he hl h hk hr
  refine ⟨.store (widthOf (Idu.memSize inst)) (Idu.rs1 inst) (Idu.rs2 inst) (Rv32e.immS inst),
    decode_of ?_ ?_, ?_⟩
  · simp [h, store_decoded hk]
  · simp [h1, h2]
  · rw [fdEffect_store _ _ _ _ he hl h hk hm, accessEffect_toIsa hpc, immS_eq]
    apply Rv32e.memory_congr
    intro ha
    rw [Access.toIsa, if_pos rfl, Access.bytes_eq _ (by rw [misaligned_eq, ha]; rfl)]
    exact ⟨rfl, rfl⟩

end Classes

/-! ## CSR instructions -/

section Csrs
variable (c : Csr)

theorem csrOld_eq (addr : BitVec 12) : c.csrOld addr = (csrsOf c).read addr := by
  by_cases hv : addr = 0xf11#12
  · subst hv
    rfl
  by_cases ha : addr = 0xf12#12
  · subst ha
    rfl
  · simp only [Csr.csrOld, Rv32e.Csrs.read, Csr.mstatusValue, csrsOf, beq_iff_eq, if_neg hv,
      if_neg ha]

theorem write_eq (addr : BitVec 12) (v : BitVec 32) :
    csrsOf (c.write addr v) = (csrsOf c).write addr v := by
  simp only [Csr.write, Rv32e.Csrs.write, csrsOf, mask2_eq]
  grind

theorem and_low_eq_iff (v : BitVec 32) : v &&& ~~~3#32 = v ↔ v.toNat % 4 = 0 := by
  rw [← mask2_eq]
  constructor
  · intro h
    have hn : (Lsu.alignedAddr v).toNat = v.toNat := congrArg BitVec.toNat h
    rw [alignedAddr_toNat] at hn
    omega
  · exact mask2_of_aligned

/-- Writing a CSR back changes it when it holds low bits that it should not. -/
theorem write_read_iff (addr : BitVec 12) :
    (csrsOf c).write addr ((csrsOf c).read addr) = csrsOf c ↔
      ¬ ((addr = 0x305#12 ∧ c.mtvec.toNat % 4 ≠ 0) ∨ (addr = 0x341#12 ∧ c.mepc.toNat % 4 ≠ 0)) := by
  by_cases h1 : addr = 0x305#12
  · subst h1
    simpa [Rv32e.Csrs.write, Rv32e.Csrs.read, csrsOf, -BitVec.reduceNot] using
      and_low_eq_iff c.mtvec
  by_cases h2 : addr = 0x341#12
  · subst h2
    simpa [Rv32e.Csrs.write, Rv32e.Csrs.read, csrsOf, -BitVec.reduceNot] using
      and_low_eq_iff c.mepc
  by_cases h3 : addr = 0x342#12
  · subst h3
    simp [Rv32e.Csrs.write, Rv32e.Csrs.read]
  · simp [Rv32e.Csrs.write, h1, h2, h3]

theorem csrEffect_of_write {addr : BitVec 12} {cmd : CsrCmd} {r1 : BitVec 32} {uimm : BitVec 5}
    (h : Csr.csrWriteEn cmd r1 uimm = true) : csrsOf (csrEffect c addr cmd r1 uimm) =
      (csrsOf c).write addr (Csr.csrNext ((csrsOf c).read addr) cmd (Csr.csrSrc cmd r1 uimm)) := by
  rw [csrEffect, if_pos h, write_eq, csrOld_eq]

theorem csrEffect_of_not_write {addr : BitVec 12} {cmd : CsrCmd} {r1 : BitVec 32}
    {uimm : BitVec 5} (h : Csr.csrWriteEn cmd r1 uimm = false) :
    csrEffect c addr cmd r1 uimm = c := by
  rw [csrEffect, if_neg (by simp [h])]

/-- The command of the register form of a CSR instruction. -/
def cmdOf : Rv32e.CsrOp → CsrCmd
  | .rw => .rw
  | .rs => .rs
  | .rc => .rc

def cmdImmOf : Rv32e.CsrOp → CsrCmd
  | .rw => .rwi
  | .rs => .rsi
  | .rc => .rci

/-- The CSRs the table gives for the source number `src` with the value `v`. -/
def tableCsrs (op : Rv32e.CsrOp) (addr : BitVec 12) (src : BitVec 5) (v : BitVec 32) : Rv32e.Csrs :=
  if Rv32e.csrWrites op src then (csrsOf c).write addr (op.eval ((csrsOf c).read addr) v)
  else csrsOf c

theorem csrEffect_imm (op : Rv32e.CsrOp) (addr : BitVec 12) (r1 : BitVec 32) (uimm : BitVec 5) :
    csrsOf (csrEffect c addr (cmdImmOf op) r1 uimm) =
      tableCsrs c op addr uimm (uimm.setWidth 32) := by
  have hz : 0#27 ++ uimm = uimm.setWidth 32 := zero_append 27 uimm
  have hen : Csr.csrWriteEn (cmdImmOf op) r1 uimm = Rv32e.csrWrites op uimm := by
    by_cases hu : uimm = 0#5 <;> cases op <;>
      simp [cmdImmOf, Csr.csrWriteEn, Rv32e.csrWrites, hu]
  unfold tableCsrs
  split
  · rename_i hw
    rw [csrEffect_of_write c (hen.trans hw), ← hz]
    cases op <;> rfl
  · rename_i hw
    rw [csrEffect_of_not_write c (hen.trans (by simpa using hw))]

theorem csrEffect_reg_iff (op : Rv32e.CsrOp) (addr : BitVec 12) {src : BitVec 5} {r1 : BitVec 32}
    (h0 : src = 0#5 → r1 = 0#32) (uimm : BitVec 5) :
    csrsOf (csrEffect c addr (cmdOf op) r1 uimm) = tableCsrs c op addr src r1 ↔
      ¬ (op ≠ .rw ∧ src ≠ 0#5 ∧ r1 = 0#32 ∧
        ((addr = 0x305#12 ∧ c.mtvec.toNat % 4 ≠ 0) ∨
          (addr = 0x341#12 ∧ c.mepc.toNat % 4 ≠ 0))) := by
  by_cases hop : op = .rw
  · subst hop
    rw [csrEffect_of_write c (by simp [cmdOf, Csr.csrWriteEn])]
    simp [tableCsrs, Rv32e.csrWrites, Rv32e.CsrOp.eval, cmdOf, Csr.csrNext, Csr.csrSrc]
  have hen : Csr.csrWriteEn (cmdOf op) r1 uimm = (r1 != 0#32) := by
    cases op <;> simp_all [cmdOf, Csr.csrWriteEn]
  have hwr : Rv32e.csrWrites op src = decide (src ≠ 0#5) := by
    simp [Rv32e.csrWrites, hop]
  by_cases hs : src = 0#5
  · have hr := h0 hs
    rw [csrEffect_of_not_write c (by rw [hen, hr]; rfl), tableCsrs,
      if_neg (by rw [hwr, hs]; decide)]
    simp [hs]
  by_cases hr : r1 = 0#32
  · -- the core skips the write, the table writes the old value back
    rw [csrEffect_of_not_write c (by rw [hen, hr]; rfl)]
    have hold : op.eval ((csrsOf c).read addr) 0#32 = (csrsOf c).read addr := by
      cases op with
      | rw => exact absurd rfl hop
      | rs => exact BitVec.or_zero
      | rc => rw [Rv32e.CsrOp.eval, BitVec.not_zero, BitVec.and_allOnes]
    have hiff := write_read_iff c addr
    rw [tableCsrs, if_pos (by simp [hwr, hs]), hr, hold, eq_comm, hiff]
    simp [hop, hs]
  · rw [csrEffect_of_write c (by simp [hen, hr])]
    have hnext : Csr.csrNext ((csrsOf c).read addr) (cmdOf op) (Csr.csrSrc (cmdOf op) r1 uimm) =
        op.eval ((csrsOf c).read addr) r1 := by
      cases op <;> rfl
    rw [hnext, tableCsrs, if_pos (by simp [hwr, hs])]
    simp [hr]

end Csrs

section Main
variable {inst : BitVec 32} {pc : BitVec 32} (regs : RegFile) (c : Csr) (lsu : BusResp)

theorem implements_iff {i : Rv32e.Instr} (hd : Rv32e.decode inst = some i) :
    Implements regs c lsu pc inst ↔
      (fdEffect ⟨pc, inst, false⟩ (regsOf regs (Idu.rs1 inst)) (regsOf regs (Idu.rs2 inst)) c
        lsu).toIsa = Rv32e.exec (regsOf regs) pc (csrsOf c) (answerOf lsu) i := by
  constructor
  · rintro ⟨j, hj, he⟩
    rw [hd] at hj
    obtain rfl := Option.some.inj hj
    exact he
  · intro he
    exact ⟨i, hd, he⟩

theorem regsOf_zero : regsOf regs 0#5 = 0#32 := by
  simp [regsOf, RegFile.rdata]

theorem fdEffect_csr_toIsa (hl : decodeLegal inst = true) (h : Idu.opcode inst = 0b1110011#7)
    (h3 : Idu.funct3 inst ≠ 0b000#3) (r1 r2 : BitVec 32) :
    (fdEffect ⟨pc, inst, false⟩ r1 r2 c lsu).toIsa =
      { Rv32e.Effect.complete (csrsOf c) (pc + 4#32)
          (Rv32e.setReg (Idu.rd inst) ((csrsOf c).read (Idu.csrAddr inst))) with
        csrs := csrsOf
          (csrEffect c (Idu.csrAddr inst) (Idu.csrCmd inst) r1 (Idu.csrUimm inst)) } := by
  have he : (⟨pc, inst, false⟩ : FD).instError = false := rfl
  rw [fdEffect_csr _ _ _ _ he hl h h3, csrOld_eq]
  rfl

theorem decodeSystem_csr {op : Rv32e.CsrOp} (h3 : Idu.funct3 inst ≠ 0b000#3)
    (hop : Rv32e.decodeCsrOp inst = some op) (hk : Idu.csrLegal inst = true)
    (hw : Rv32e.csrWrites op (Idu.rs1 inst) = Idu.csrWrites inst) :
    Rv32e.decodeSystem inst =
      if (Idu.funct3 inst).getLsbD 2 then
        some (.csrImm op (Idu.csrAddr inst) (Idu.rd inst) (Idu.rs1 inst))
      else some (.csr op (Idu.csrAddr inst) (Idu.rd inst) (Idu.rs1 inst)) := by
  have hok : (Rv32e.csrKnown (Idu.csrAddr inst) && !(Rv32e.csrReadOnly (Idu.csrAddr inst) &&
      Rv32e.csrWrites op (Idu.rs1 inst))) = true := by
    rw [hw]
    simp only [Idu.csrLegal, Bool.and_eq_true] at hk
    have h1 := hk.1.1.2
    have h2 := hk.1.2
    simp only [Idu.csrKnown, Idu.csrReadOnly] at h1 h2
    simpa [Rv32e.csrKnown, Rv32e.csrReadOnly] using And.intro h1 h2
  rw [Rv32e.decodeSystem, if_neg (show ¬ Rv32e.funct3 inst = 0b000#3 from h3), hop]
  exact if_pos hok

/-- The six CSR instructions: the operation and the form. -/
theorem csr_form (hk : Idu.csrLegal inst = true) :
    ∃ op, Rv32e.decodeCsrOp inst = some op ∧
      Rv32e.csrWrites op (Idu.rs1 inst) = Idu.csrWrites inst ∧
      if (Idu.funct3 inst).getLsbD 2 then
        Idu.csrCmd inst = cmdImmOf op ∧
          ¬ (Idu.funct3 inst = 0b010#3 ∨ Idu.funct3 inst = 0b011#3)
      else
        Idu.csrCmd inst = cmdOf op ∧ Idu.readsRs1 inst = true ∧
          (op ≠ .rw ↔ Idu.funct3 inst = 0b010#3 ∨ Idu.funct3 inst = 0b011#3) := by
  have hcsr : Idu.isCsr inst = true := by
    simp only [Idu.csrLegal, Bool.and_eq_true] at hk
    exact hk.1.1.1
  have hu : Idu.csrUimm inst = Idu.rs1 inst := rfl
  have hb : (Idu.rs1 inst != 0#5) = decide (Idu.rs1 inst ≠ 0#5) := by
    by_cases h : Idu.rs1 inst = 0#5 <;> simp [h]
  rcases csrLegal_funct3 hk with h3 | h3 | h3 | h3 | h3 | h3
  · refine ⟨.rw, ?_⟩
    simp [Rv32e.decodeCsrOp, Rv32e.csrWrites, Idu.csrWrites, Idu.csrCmd, Idu.readsRs1, h3, hcsr,
      cmdOf]
  · refine ⟨.rs, ?_⟩
    simp [Rv32e.decodeCsrOp, Rv32e.csrWrites, Idu.csrWrites, Idu.csrCmd, Idu.readsRs1, h3, hcsr,
      hb, cmdOf]
  · refine ⟨.rc, ?_⟩
    simp [Rv32e.decodeCsrOp, Rv32e.csrWrites, Idu.csrWrites, Idu.csrCmd, Idu.readsRs1, h3, hcsr,
      hb, cmdOf]
  · refine ⟨.rw, ?_⟩
    simp [Rv32e.decodeCsrOp, Rv32e.csrWrites, Idu.csrWrites, Idu.csrCmd, h3, hcsr, cmdImmOf]
  · refine ⟨.rs, ?_⟩
    simp [Rv32e.decodeCsrOp, Rv32e.csrWrites, Idu.csrWrites, Idu.csrCmd, h3, hcsr, hu, hb,
      cmdImmOf]
  · refine ⟨.rc, ?_⟩
    simp [Rv32e.decodeCsrOp, Rv32e.csrWrites, Idu.csrWrites, Idu.csrCmd, h3, hcsr, hu, hb,
      cmdImmOf]

theorem csrLegal_of_legal (hl : Idu.isLegal inst = true) (h : Idu.opcode inst = 0b1110011#7)
    (h3 : Idu.funct3 inst ≠ 0b000#3) : Idu.csrLegal inst = true := by
  rcases isLegal_cases hl with h' | h' | h' | ⟨h', -⟩ | ⟨h', -⟩ | ⟨h', -⟩ | ⟨h', -⟩ | ⟨h', -⟩ |
    ⟨h', -⟩ | ⟨-, -, hk⟩ | h' | ⟨h', -⟩
  case inr.inr.inr.inr.inr.inr.inr.inr.inr.inl => exact hk
  case inr.inr.inr.inr.inr.inr.inr.inr.inr.inr.inl =>
    rcases h' with h' | h' | h' | h' <;> rw [h'] at h3 <;> exact absurd rfl h3
  all_goals
    rw [h] at h'
    exact absurd h' (by decide)

theorem implements_csr_iff (hl : decodeLegal inst = true) (h : Idu.opcode inst = 0b1110011#7)
    (h3 : Idu.funct3 inst ≠ 0b000#3) (hk : Idu.csrLegal inst = true) :
    Implements regs c lsu pc inst ↔ ¬ KeepsLowBits inst (regsOf regs (Idu.rs1 inst)) c := by
  have hcsr : Idu.isCsr inst = true := by
    simp only [Idu.csrLegal, Bool.and_eq_true] at hk
    exact hk.1.1.1
  have hd := reg_lt (decodeLegal_rd hl (by simp [Idu.writesRd, hcsr]))
  have h0 : Idu.rs1 inst = 0#5 → regsOf regs (Idu.rs1 inst) = 0#32 := by
    intro hz
    rw [hz, regsOf_zero]
  obtain ⟨op, hop, hw, hform⟩ := csr_form hk
  have hsys := decodeSystem_csr h3 hop hk hw
  cases hbit : (Idu.funct3 inst).getLsbD 2 with
  | false =>
    rw [hbit] at hform hsys
    obtain ⟨hcmd, hr, hrw⟩ := hform
    have h1 := reg_lt (decodeLegal_rs1 hl hr)
    have hdec : Rv32e.decode inst =
        some (.csr op (Idu.csrAddr inst) (Idu.rd inst) (Idu.rs1 inst)) := by
      apply decode_of
      · simp [h, hsys]
      · simp [hd, h1]
    have hiff := csrEffect_reg_iff c op (Idu.csrAddr inst) h0 (Idu.csrUimm inst)
    have hexec : Rv32e.exec (regsOf regs) pc (csrsOf c) (answerOf lsu)
        (.csr op (Idu.csrAddr inst) (Idu.rd inst) (Idu.rs1 inst)) =
        { Rv32e.Effect.complete (csrsOf c) (pc + 4#32)
            (Rv32e.setReg (Idu.rd inst) ((csrsOf c).read (Idu.csrAddr inst))) with
          csrs := tableCsrs c op (Idu.csrAddr inst) (Idu.rs1 inst)
            (regsOf regs (Idu.rs1 inst)) } := rfl
    rw [implements_iff regs c lsu hdec, fdEffect_csr_toIsa c lsu hl h h3, hcmd, hexec,
      Rv32e.Effect.mk.injEq]
    simp only [true_and, and_true]
    rw [hiff, KeepsLowBits, hrw]
    simp only [h, true_and]
  | true =>
    rw [hbit] at hform hsys
    obtain ⟨hcmd, hno⟩ := hform
    have hdec : Rv32e.decode inst =
        some (.csrImm op (Idu.csrAddr inst) (Idu.rd inst) (Idu.rs1 inst)) := by
      apply decode_of
      · simp [h, hsys]
      · simp [hd]
    rw [implements_iff regs c lsu hdec, fdEffect_csr_toIsa c lsu hl h h3, hcmd, csrEffect_imm]
    exact iff_of_true rfl fun hkeep => hno hkeep.2.1

theorem not_keepsLowBits {r1 : BitVec 32} {c : Csr}
    (h : ¬ (Idu.opcode inst = 0b1110011#7 ∧ Idu.funct3 inst ≠ 0b000#3)) :
    ¬ KeepsLowBits inst r1 c := by
  rintro ⟨ho, h3 | h3, -⟩
  · exact h ⟨ho, by rw [h3]; decide⟩
  · exact h ⟨ho, by rw [h3]; decide⟩

/-- The legal words by class. -/
theorem implements_iff_not_keeps (hl : decodeLegal inst = true) (hpc : pc.toNat % 4 = 0)
    (hr : wMemReady true (xStage (dStage ⟨pc, inst, false⟩ (regsOf regs (Idu.rs1 inst))
      (regsOf regs (Idu.rs2 inst))) c) c.mtvec lsu = true) :
    Implements regs c lsu pc inst ↔ ¬ KeepsLowBits inst (regsOf regs (Idu.rs1 inst)) c := by
  rcases isLegal_cases (decodeLegal_isLegal hl) with h | h | h | ⟨h, h3⟩ | ⟨h, hk⟩ | ⟨h, hk⟩ |
    ⟨h, hk⟩ | ⟨h, hk⟩ | ⟨h, hk⟩ | ⟨h, h3, hk⟩ | h | ⟨h, h3⟩
  · exact iff_of_true (implements_lui regs c lsu hl h) (not_keepsLowBits (by simp [h]))
  · exact iff_of_true (implements_auipc regs c lsu hl h) (not_keepsLowBits (by simp [h]))
  · exact iff_of_true (implements_jal regs c lsu hl hpc h) (not_keepsLowBits (by simp [h]))
  · exact iff_of_true (implements_jalr regs c lsu hl hpc h h3) (not_keepsLowBits (by simp [h]))
  · exact iff_of_true (implements_load regs c lsu hl hpc hr h hk) (not_keepsLowBits (by simp [h]))
  · exact iff_of_true (implements_store regs c lsu hl hpc hr h hk) (not_keepsLowBits (by simp [h]))
  · exact iff_of_true (implements_branch regs c lsu hl hpc h hk) (not_keepsLowBits (by simp [h]))
  · exact iff_of_true (implements_opImm regs c lsu hl h hk) (not_keepsLowBits (by simp [h]))
  · exact iff_of_true (implements_op regs c lsu hl h hk) (not_keepsLowBits (by simp [h]))
  · exact implements_csr_iff regs c lsu hl h h3 hk
  · rcases h with h | h | h | h
    · exact iff_of_true (implements_ecall regs c lsu hl hpc h)
        (not_keepsLowBits (by rw [h]; decide))
    · exact iff_of_true (implements_ebreak regs c lsu hl hpc h)
        (not_keepsLowBits (by rw [h]; decide))
    · exact iff_of_true (implements_mret regs c lsu hl h) (not_keepsLowBits (by rw [h]; decide))
    · exact iff_of_true (implements_wfi regs c lsu hl h) (not_keepsLowBits (by rw [h]; decide))
  · exact iff_of_true (implements_fence regs c lsu hl h h3) (not_keepsLowBits (by simp [h]))

/-- Where the core keeps the low bits of a CSR, everything else is as in the table. -/
theorem implements_apart_csrs (hl : decodeLegal inst = true) (hpc : pc.toNat % 4 = 0)
    (hr : wMemReady true (xStage (dStage ⟨pc, inst, false⟩ (regsOf regs (Idu.rs1 inst))
      (regsOf regs (Idu.rs2 inst))) c) c.mtvec lsu = true) :
    ∃ i, Rv32e.decode inst = some i ∧ ∀ k,
      { (fdEffect ⟨pc, inst, false⟩ (regsOf regs (Idu.rs1 inst)) (regsOf regs (Idu.rs2 inst)) c
          lsu).toIsa with csrs := k } =
        { Rv32e.exec (regsOf regs) pc (csrsOf c) (answerOf lsu) i with csrs := k } := by
  by_cases hkeep : KeepsLowBits inst (regsOf regs (Idu.rs1 inst)) c
  · obtain ⟨h, h3, -⟩ := hkeep
    have hne : Idu.funct3 inst ≠ 0b000#3 := by
      rcases h3 with h3 | h3 <;> rw [h3] <;> decide
    have hk : Idu.csrLegal inst = true := csrLegal_of_legal (decodeLegal_isLegal hl) h hne
    have hbit : (Idu.funct3 inst).getLsbD 2 = false := by
      rcases h3 with h3 | h3 <;> rw [h3] <;> decide
    obtain ⟨op, hop, hw, hform⟩ := csr_form hk
    have hsys := decodeSystem_csr hne hop hk hw
    rw [hbit] at hform hsys
    refine ⟨.csr op (Idu.csrAddr inst) (Idu.rd inst) (Idu.rs1 inst), ?_, ?_⟩
    · have hcsr : Idu.isCsr inst = true := by simp [Idu.isCsr, Idu.isSystem, h, hne]
      have hd := reg_lt (decodeLegal_rd hl (by simp [Idu.writesRd, hcsr]))
      have h1 := reg_lt (decodeLegal_rs1 hl hform.2.1)
      apply decode_of
      · simp [h, hsys]
      · simp [hd, h1]
    · intro k
      rw [fdEffect_csr_toIsa c lsu hl h hne]
      rfl
  · obtain ⟨i, hd, he⟩ := (implements_iff_not_keeps regs c lsu hl hpc hr).mpr hkeep
    exact ⟨i, hd, fun k => by rw [he]⟩

theorem not_keeps_of_aligned {r1 : BitVec 32} {c : Csr} (hv : c.mtvec.toNat % 4 = 0)
    (hp : c.mepc.toNat % 4 = 0) : ¬ KeepsLowBits inst r1 c := by
  rintro ⟨-, -, -, -, ⟨-, h⟩ | ⟨-, h⟩⟩
  · exact h hv
  · exact h hp

/-- The datapath implements the instruction table: for every legal word at an
aligned pc and all register values, CSRs and bus answers, with the exception of
`KeepsLowBits`; so always when `mtvec` and `mepc` are aligned. -/
theorem datapath_implements_isa (hl : decodeLegal inst = true) (hpc : pc.toNat % 4 = 0)
    (hr : wMemReady true (xStage (dStage ⟨pc, inst, false⟩ (regsOf regs (Idu.rs1 inst))
      (regsOf regs (Idu.rs2 inst))) c) c.mtvec lsu = true) :
    (Implements regs c lsu pc inst ↔ ¬ KeepsLowBits inst (regsOf regs (Idu.rs1 inst)) c) ∧
      (c.mtvec.toNat % 4 = 0 → c.mepc.toNat % 4 = 0 → Implements regs c lsu pc inst) := by
  have hiff := implements_iff_not_keeps regs c lsu hl hpc hr
  refine ⟨hiff, ?_⟩
  intro hv hp
  exact hiff.mpr (not_keeps_of_aligned hv hp)

/-- `lb x1, 2(x2)`: the addressed byte of the bus word is `0xf1`. -/
theorem datapath_implements_isa_lb :
    Implements RegFile.reset Csr.reset ⟨true, 0x00f10000#32, false⟩ 0x20000000#32 0x00210083#32 ∧
      (fdEffect ⟨0x20000000#32, 0x00210083#32, false⟩ 0#32 0#32 Csr.reset
        ⟨true, 0x00f10000#32, false⟩).write = some (1#5, 0xfffffff1#32) :=
  ⟨(datapath_implements_isa _ _ _ (by decide) (by decide) (by decide)).2 (by decide) (by decide),
    by decide⟩

/-- `csrrs x1, mtvec, x2` with `x2 = 0` while `mtvec` is 1: the table clears the
low bits of `mtvec`, the core leaves them. -/
theorem csr_set_zero_keeps :
    decodeLegal 0x305120f3#32 = true ∧
      wMemReady true (xStage (dStage ⟨0x20000000#32, 0x305120f3#32, false⟩ 0#32 0#32)
        ⟨1#32, 0#32, 0#32⟩) 1#32 ⟨false, 0#32, false⟩ = true ∧
      ¬ Implements RegFile.reset ⟨1#32, 0#32, 0#32⟩ ⟨false, 0#32, false⟩ 0x20000000#32
        0x305120f3#32 := by
  refine ⟨by decide, by decide, ?_⟩
  have hdec : Rv32e.decode 0x305120f3#32 = some (.csr .rs 0x305#12 1#5 2#5) := by decide
  rw [implements_iff _ _ _ hdec]
  intro he
  have hcsr := congrArg (fun e => e.csrs.mtvec) he
  revert hcsr
  decide

end Main

/-! ## Reachable states -/

/-- The CSR registers hold aligned addresses. -/
theorem csr_aligned {s : State} (h : Reachable s) :
    s.csr.mtvec.toNat % 4 = 0 ∧ s.csr.mepc.toNat % 4 = 0 := by
  have hm : ∀ v, (Csr.mask2 v).toNat % 4 = 0 := by
    intro v
    change (Lsu.alignedAddr v).toNat % 4 = 0
    rw [alignedAddr_toNat]
    omega
  refine h.invariant (P := fun s => s.csr.mtvec.toNat % 4 = 0 ∧ s.csr.mepc.toNat % 4 = 0) ?_ ?_
  · intro s i
    exact ⟨rfl, rfl⟩
  · intro s i _ _ ih
    change (Csr.next s.csr (csrPort s i)).mtvec.toNat % 4 = 0 ∧
      (Csr.next s.csr (csrPort s i)).mepc.toNat % 4 = 0
    unfold Csr.next Csr.write
    split
    · exact ⟨ih.1, hm _⟩
    · split
      · split
        · exact ⟨hm _, ih.2⟩
        · split
          · exact ⟨ih.1, hm _⟩
          · split <;> exact ih
      · exact ih

/-- With the CSRs of a reachable state the datapath is exact. -/
theorem reachable_implements {s : State} (h : Reachable s) {inst pc : BitVec 32} (regs : RegFile)
    (lsu : BusResp) (hl : decodeLegal inst = true) (hpc : pc.toNat % 4 = 0)
    (hr : wMemReady true (xStage (dStage ⟨pc, inst, false⟩ (regsOf regs (Idu.rs1 inst))
      (regsOf regs (Idu.rs2 inst))) s.csr) s.csr.mtvec lsu = true) :
    Implements regs s.csr lsu pc inst := by
  have ha := csr_aligned h
  exact (implements_iff_not_keeps regs s.csr lsu hl hpc hr).mpr (not_keeps_of_aligned ha.1 ha.2)

end Npc.Core
