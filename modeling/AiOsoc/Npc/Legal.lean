import AiOsoc.Npc.Datapath

/-!
# The legality signal

The D-stage legality signal of `Core.v` accepts exactly the words of the
instruction table. That legal words are in the table is a by-product of the
datapath's correctness; here the classes of the table are shown to be legal.
-/

namespace Npc.Core

set_option autoImplicit false

attribute [local simp] opcode_eq rd_eq funct3_eq rs1_eq rs2_eq funct7_eq funct12_eq

section Table
variable {inst : BitVec 32}

theorem reg_bit {r : BitVec 5} (h : r < 16#5) : r.getLsbD 4 = false := by
  revert r
  decide

theorem field_ok {uses : Bool} {r : BitVec 5} (h : uses = true → r < 16#5) :
    (!uses || r.getLsbD 4 == false) = true := by
  cases uses with
  | false => rfl
  | true => rw [reg_bit (h rfl)]; rfl

/-- A word is legal if its class is and the register fields its control signals
select are in range. -/
theorem decodeLegal_of (hk : Idu.isLegal inst = true)
    (hd : Idu.writesRd inst = true → Idu.rd inst < 16#5)
    (h1 : Idu.readsRs1 inst = true → Idu.rs1 inst < 16#5)
    (h2 : Idu.readsRs2 inst = true → Idu.rs2 inst < 16#5) : decodeLegal inst = true := by
  simp only [decodeLegal, rdValid, rs1Valid, rs2Valid, Bool.and_eq_true]
  exact ⟨⟨⟨hk, field_ok hd⟩, field_ok h1⟩, field_ok h2⟩

attribute [local simp] Idu.isLui Idu.isAuipc Idu.isJal Idu.isJalr Idu.isLoad Idu.isStore
  Idu.isBranch Idu.isOpImm Idu.isOp Idu.isCsr Idu.isSystem Idu.isFence Idu.isFenceI Idu.isFenceOp
  Idu.writesRd Idu.readsRs1 Idu.readsRs2 Idu.isLegal

theorem branchLegal_of_decode (h : Idu.opcode inst = 0b1100011#7) {cond : Rv32e.Cond}
    (hc : Rv32e.decodeBranch inst = some cond) : Idu.isBranchLegal inst = true := by
  simp only [Idu.isBranchLegal, Idu.isBranch, h, Bool.or_eq_true, beq_iff_eq, beq_self_eq_true,
    Bool.true_and]
  simp only [Rv32e.decodeBranch, funct3_eq] at hc
  grind

theorem loadLegal_of_decode (h : Idu.opcode inst = 0b0000011#7) {k : Rv32e.Width × Bool}
    (hc : Rv32e.decodeLoad inst = some k) : Idu.loadLegal inst = true := by
  simp only [Idu.loadLegal, Idu.isLoad, h, Bool.or_eq_true, beq_iff_eq, beq_self_eq_true,
    Bool.true_and]
  simp only [Rv32e.decodeLoad, funct3_eq] at hc
  grind

theorem storeLegal_of_decode (h : Idu.opcode inst = 0b0100011#7) {width : Rv32e.Width}
    (hc : Rv32e.decodeStore inst = some width) : Idu.storeLegal inst = true := by
  simp only [Idu.storeLegal, Idu.isStore, h, Bool.or_eq_true, beq_iff_eq, beq_self_eq_true,
    Bool.true_and]
  simp only [Rv32e.decodeStore, funct3_eq] at hc
  grind

theorem opLegal_of_decode (h : Idu.opcode inst = 0b0110011#7) {op : Rv32e.Alu}
    (hc : Rv32e.decodeOp inst = some op) : Idu.opLegal inst = true := by
  -- `and` is the last of the forms with funct7 zero
  have hlast : ∀ f : BitVec 3, f = 0b111#3 ∨ f = 0b000#3 ∨ f = 0b001#3 ∨ f = 0b010#3 ∨
      f = 0b011#3 ∨ f = 0b100#3 ∨ f = 0b101#3 ∨ f = 0b110#3 := by decide
  unfold Rv32e.decodeOp at hc
  simp only [Idu.opLegal, Idu.isOp, h]
  split_ifs at hc with h7 h0 h1 h2 h3 h4 h5 h6 h7 h0 h5 <;> simp only [funct3_eq, funct7_eq] at *
  · rw [h7, h0]; rfl
  · rw [h7, h1]; rfl
  · rw [h7, h2]; rfl
  · rw [h7, h3]; rfl
  · rw [h7, h4]; rfl
  · rw [h7, h5]; rfl
  · rw [h7, h6]; rfl
  · have hf := (hlast (Idu.funct3 inst)).resolve_right (by simp [h0, h1, h2, h3, h4, h5, h6])
    rw [h7, hf]; rfl
  · rw [h7, h0]; rfl
  · rw [h7, h5]; rfl

theorem opImmLegal_of_decode (h : Idu.opcode inst = 0b0010011#7) {i : Rv32e.Instr} :
    Rv32e.decodeOpImm inst = some i →
      Idu.opImmLegal inst = true ∧ i.regs = [Idu.rd inst, Idu.rs1 inst] := by
  unfold Rv32e.decodeOpImm
  simp only [Idu.opImmLegal, Idu.isOpImm, h, Idu.shamtHighValid]
  refine Rv32e.ite_cases ?addi <| Rv32e.ite_cases ?slti <| Rv32e.ite_cases ?sltiu <|
    Rv32e.ite_cases ?xori <| Rv32e.ite_cases ?ori <| Rv32e.ite_cases ?andi <|
    Rv32e.ite_cases ?slli <| Rv32e.ite_cases ?srli <| Rv32e.ite_cases ?srai (by rintro ⟨⟩)
  all_goals
    rintro h3 ⟨⟩
    refine ⟨?_, rfl⟩
    simp only [funct3_eq, funct7_eq] at h3
  case slli | srli | srai => rw [h3.1, h3.2]; rfl
  all_goals rw [h3]; rfl

/-- The fields of a word determine it. -/
theorem word_of_fields {w : BitVec 32} (ho : Rv32e.opcode inst = Rv32e.opcode w)
    (hd : Rv32e.rd inst = Rv32e.rd w) (h3 : Rv32e.funct3 inst = Rv32e.funct3 w)
    (h1 : Rv32e.rs1 inst = Rv32e.rs1 w) (h12 : Rv32e.funct12 inst = Rv32e.funct12 w) :
    inst = w := by
  have hsplit : ∀ v : BitVec 32, v = (Rv32e.funct12 v ++ Rv32e.rs1 v ++ Rv32e.funct3 v ++
      Rv32e.rd v ++ Rv32e.opcode v).cast (by decide) := by
    intro v
    apply BitVec.eq_of_getLsbD_eq
    intro k hk
    simp only [Rv32e.funct12, Rv32e.rs1, Rv32e.funct3, Rv32e.rd, Rv32e.opcode,
      BitVec.getLsbD_cast, BitVec.getLsbD_append, BitVec.getLsbD_extractLsb']
    grind
  rw [hsplit inst, hsplit w, ho, hd, h3, h1, h12]

/-- The operation of a CSR word, and whether it writes. -/
theorem csrOp_writes {op : Rv32e.CsrOp} (hop : Rv32e.decodeCsrOp inst = some op) :
    Rv32e.csrWrites op (Idu.rs1 inst) = Idu.csrWrites inst ∧
      (Idu.funct3 inst == 0b001#3 || Idu.funct3 inst == 0b010#3 || Idu.funct3 inst == 0b011#3 ||
        Idu.funct3 inst == 0b101#3 || Idu.funct3 inst == 0b110#3 || Idu.funct3 inst == 0b111#3) =
      true := by
  have hcases : ∀ f : BitVec 3, (f.extractLsb' 0 2 = 0b01#2 → f = 0b001#3 ∨ f = 0b101#3) ∧
      (f.extractLsb' 0 2 = 0b10#2 → f = 0b010#3 ∨ f = 0b110#3) ∧
      (f.extractLsb' 0 2 = 0b11#2 → f = 0b011#3 ∨ f = 0b111#3) := by decide
  have hu : Idu.csrUimm inst = Idu.rs1 inst := rfl
  have hb : (Idu.rs1 inst != 0#5) = decide (Idu.rs1 inst ≠ 0#5) := by
    by_cases h : Idu.rs1 inst = 0#5 <;> simp [h]
  obtain ⟨hrw, hrs, hrc⟩ := hcases (Idu.funct3 inst)
  unfold Rv32e.decodeCsrOp at hop
  split_ifs at hop with h h h <;> obtain rfl := Option.some.inj hop
  · rcases hrw h with h3 | h3 <;> simp [Rv32e.csrWrites, Idu.csrWrites, h3]
  · rcases hrs h with h3 | h3 <;> simp [Rv32e.csrWrites, Idu.csrWrites, h3, hu, hb]
  · rcases hrc h with h3 | h3 <;> simp [Rv32e.csrWrites, Idu.csrWrites, h3, hu, hb]

/-- The words of the table with a CSR access. -/
theorem csrLegal_of_decode (h : Idu.opcode inst = 0b1110011#7) (h3 : Idu.funct3 inst ≠ 0b000#3)
    {i : Rv32e.Instr} (hc : Rv32e.decodeSystem inst = some i) :
    Idu.csrLegal inst = true ∧
      i.regs = if (Idu.funct3 inst).getLsbD 2 then [Idu.rd inst]
        else [Idu.rd inst, Idu.rs1 inst] := by
  rw [Rv32e.decodeSystem, if_neg (show ¬ Rv32e.funct3 inst = 0b000#3 from h3)] at hc
  obtain ⟨op, hop, hc⟩ := Option.bind_eq_some_iff.mp hc
  obtain ⟨hw, hf⟩ := csrOp_writes hop
  simp only [rs1_eq, funct12_eq, hw] at hc
  split_ifs at hc with hk hbit
  all_goals
    obtain rfl := Option.some.inj hc
    refine ⟨?_, ?_⟩
    · simp only [Bool.and_eq_true] at hk
      have hcsr : Idu.isCsr inst = true := by simp [h, h3]
      have hkn : Idu.csrKnown inst = true := by simpa [Rv32e.csrKnown, Idu.csrKnown] using hk.1
      have hro : (!(Idu.csrReadOnly inst && Idu.csrWrites inst)) = true := by
        simpa [Rv32e.csrReadOnly, Idu.csrReadOnly] using hk.2
      rw [Idu.csrLegal, hcsr, hkn, hro, hf]
      rfl
    · first
        | exact (if_pos hbit).symm
        | exact (if_neg hbit).symm

/-- The words of the table with a system code. -/
theorem systemLegal_of_decode (h : Idu.opcode inst = 0b1110011#7) (h3 : Idu.funct3 inst = 0b000#3)
    {i : Rv32e.Instr} (hc : Rv32e.decodeSystem inst = some i) : Idu.systemLegal inst = true := by
  rw [Rv32e.decodeSystem, if_pos (show Rv32e.funct3 inst = 0b000#3 from h3)] at hc
  split_ifs at hc with hz he hb hm hw
  · rw [word_of_fields (w := 0x00000073#32) h hz.1 h3 hz.2 he]; rfl
  · rw [word_of_fields (w := 0x00100073#32) h hz.1 h3 hz.2 hb]; rfl
  · rw [word_of_fields (w := 0x30200073#32) h hz.1 h3 hz.2 hm]; rfl
  · rw [word_of_fields (w := 0x10500073#32) h hz.1 h3 hz.2 hw]; rfl

/-! ## The classes -/

theorem legal_upper (h : Idu.opcode inst = 0b0110111#7 ∨ Idu.opcode inst = 0b0010111#7 ∨
    Idu.opcode inst = 0b1101111#7) (hd : Idu.rd inst < 16#5) : decodeLegal inst = true := by
  apply decodeLegal_of <;> rcases h with h | h | h <;> simp [h, hd]

theorem legal_system {i : Rv32e.Instr} (h : Idu.opcode inst = 0b1110011#7)
    (hc : Rv32e.decodeSystem inst = some i) (hreg : ∀ r ∈ i.regs, r < 16#5) :
    decodeLegal inst = true := by
  by_cases h3 : Idu.funct3 inst = 0b000#3
  · apply decodeLegal_of <;> simp [h, h3, systemLegal_of_decode h h3 hc]
  · obtain ⟨hk, hregs⟩ := csrLegal_of_decode h h3 hc
    have hd := hreg (Idu.rd inst) (by rw [hregs]; split <;> simp)
    have hs : Idu.systemLegal inst = true := by simp [Idu.systemLegal, hk]
    apply decodeLegal_of
    · simp [hs]
    · simp [hd]
    · -- only the three register forms read rs1; `uimm` is not a register
      intro hr
      have hbit : (Idu.funct3 inst).getLsbD 2 = false := by
        simp [h, h3] at hr
        rcases hr with (hr | hr) | hr <;> rw [hr] <;> decide
      exact hreg (Idu.rs1 inst) (by rw [hregs, hbit]; simp)
    · simp [h]

theorem decodeLegal_of_decode {i : Rv32e.Instr} (hdec : Rv32e.decode inst = some i) :
    decodeLegal inst = true := by
  have hreg : ∀ r ∈ i.regs, r < 16#5 := fun r hr => Rv32e.decode_regs hdec hr
  cases Rv32e.decoded_of_decodeAny (Rv32e.decodeAny_of_decode hdec) with
  | lui h => exact legal_upper (.inl h) (hreg _ (List.mem_singleton.mpr rfl))
  | auipc h => exact legal_upper (.inr (.inl h)) (hreg _ (List.mem_singleton.mpr rfl))
  | jal h => exact legal_upper (.inr (.inr h)) (hreg _ (List.mem_singleton.mpr rfl))
  | jalr h h3 =>
    rw [opcode_eq] at h
    rw [funct3_eq] at h3
    simp [Rv32e.Instr.regs] at hreg
    apply decodeLegal_of <;> simp [h, h3, hreg]
  | branch h hc =>
    have hk := branchLegal_of_decode h hc
    rw [opcode_eq] at h
    simp [Rv32e.Instr.regs] at hreg
    apply decodeLegal_of <;> simp [h, hk, hreg]
  | load h hc =>
    have hk := loadLegal_of_decode h hc
    rw [opcode_eq] at h
    simp [Rv32e.Instr.regs] at hreg
    apply decodeLegal_of <;> simp [h, hk, hreg]
  | store h hc =>
    have hk := storeLegal_of_decode h hc
    rw [opcode_eq] at h
    simp [Rv32e.Instr.regs] at hreg
    apply decodeLegal_of <;> simp [h, hk, hreg]
  | opImm h hc =>
    obtain ⟨hk, hregs⟩ := opImmLegal_of_decode h hc
    rw [opcode_eq] at h
    simp [hregs] at hreg
    apply decodeLegal_of <;> simp [h, hk, hreg]
  | op h hc =>
    have hk := opLegal_of_decode h hc
    rw [opcode_eq] at h
    simp [Rv32e.Instr.regs] at hreg
    apply decodeLegal_of <;> simp [h, hk, hreg]
  | fence h h3 | fenceI h h3 =>
    rw [opcode_eq] at h
    rw [funct3_eq] at h3
    apply decodeLegal_of <;> simp [h, h3]
  | system h hc => exact legal_system h hc hreg

end Table

/-- The decoder accepts exactly RV32E_Zicsr: the legality signal is high for the
words of the table, with all the registers they use among the sixteen, and for
no other word. -/
theorem decodeLegal_iff_table (inst : BitVec 32) :
    decodeLegal inst = true ↔ ∃ i, Rv32e.decode inst = some i := by
  constructor
  · intro hl
    have hr : wMemReady true (xStage (dStage ⟨0#32, inst, false⟩
        (regsOf RegFile.reset (Idu.rs1 inst)) (regsOf RegFile.reset (Idu.rs2 inst))) Csr.reset)
        Csr.reset.mtvec ⟨true, 0#32, false⟩ = true := by
      simp [wMemReady]
    obtain ⟨i, hi, -⟩ := implements_apart_csrs RegFile.reset Csr.reset _ hl (by decide) hr
    exact ⟨i, hi⟩
  · rintro ⟨i, hi⟩
    exact decodeLegal_of_decode hi

end Npc.Core
