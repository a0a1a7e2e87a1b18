import AiOsoc.Npc.Stages

/-!
# Instruction classes

The legal instruction words fall into twelve classes by opcode. For each class
the control signals of the D stage are read off once: the D/X registers of an
instruction are those of an instruction without any control signal, changed in
the few fields its class sets.
-/

namespace Npc.Core

set_option autoImplicit false

section Legal
variable {inst : BitVec 32}

/-- The legal words by opcode; a system word is a CSR access or one of four
exact encodings. -/
theorem isLegal_cases (h : Idu.isLegal inst = true) :
    Idu.opcode inst = 0b0110111#7 ∨
    Idu.opcode inst = 0b0010111#7 ∨
    Idu.opcode inst = 0b1101111#7 ∨
    (Idu.opcode inst = 0b1100111#7 ∧ Idu.funct3 inst = 0b000#3) ∨
    (Idu.opcode inst = 0b0000011#7 ∧ Idu.loadLegal inst = true) ∨
    (Idu.opcode inst = 0b0100011#7 ∧ Idu.storeLegal inst = true) ∨
    (Idu.opcode inst = 0b1100011#7 ∧ Idu.isBranchLegal inst = true) ∨
    (Idu.opcode inst = 0b0010011#7 ∧ Idu.opImmLegal inst = true) ∨
    (Idu.opcode inst = 0b0110011#7 ∧ Idu.opLegal inst = true) ∨
    (Idu.opcode inst = 0b1110011#7 ∧ Idu.funct3 inst ≠ 0b000#3 ∧ Idu.csrLegal inst = true) ∨
    (inst = 0x00000073#32 ∨ inst = 0x00100073#32 ∨ inst = 0x30200073#32 ∨ inst = 0x10500073#32) ∨
    (Idu.opcode inst = 0b0001111#7 ∧ (Idu.funct3 inst = 0b000#3 ∨ Idu.funct3 inst = 0b001#3)) := by
  simp only [Idu.isLegal, Idu.systemLegal, Bool.or_eq_true] at h
  rcases h with ((((((((((h | h) | h) | h) | h) | h) | h) | h) | h) | h) | h) | h
  · simp only [Idu.isLui, beq_iff_eq] at h
    exact Or.inl h
  · simp only [Idu.isAuipc, beq_iff_eq] at h
    exact Or.inr (Or.inl h)
  · simp only [Idu.isJal, beq_iff_eq] at h
    simp [h]
  · simp only [Idu.isJalr, Bool.and_eq_true, beq_iff_eq] at h
    simp [h]
  · have ho := h
    simp only [Idu.loadLegal, Idu.isLoad, Bool.and_eq_true, beq_iff_eq] at ho
    simp [h, ho.1]
  · have ho := h
    simp only [Idu.storeLegal, Idu.isStore, Bool.and_eq_true, beq_iff_eq] at ho
    simp [h, ho.1]
  · have ho := h
    simp only [Idu.isBranchLegal, Idu.isBranch, Bool.and_eq_true, beq_iff_eq] at ho
    simp [h, ho.1]
  · have ho := h
    simp only [Idu.opImmLegal, Idu.isOpImm, Bool.and_eq_true, beq_iff_eq] at ho
    simp [h, ho.1]
  · have ho := h
    simp only [Idu.opLegal, Idu.isOp, Bool.and_eq_true, beq_iff_eq] at ho
    simp [h, ho.1]
  · rcases h with (((h | h) | h) | h) | h
    · simp only [Idu.isEcall, beq_iff_eq] at h
      simp [h]
    · simp only [Idu.isEbreak, beq_iff_eq] at h
      simp [h]
    · simp only [Idu.isMret, beq_iff_eq] at h
      simp [h]
    · simp only [Idu.isWfi, beq_iff_eq] at h
      simp [h]
    · have ho := h
      simp only [Idu.csrLegal, Idu.isCsr, Idu.isSystem, Bool.and_eq_true, beq_iff_eq,
        bne_iff_ne] at ho
      simp [h, ho.1.1.1]
  · simp only [Idu.isFence, Idu.isFenceOp, Bool.and_eq_true, beq_iff_eq] at h
    simp [h]
  · simp only [Idu.isFenceI, Idu.isFenceOp, Bool.and_eq_true, beq_iff_eq] at h
    simp [h]

theorem csrLegal_funct3 (h : Idu.csrLegal inst = true) :
    Idu.funct3 inst = 0b001#3 ∨ Idu.funct3 inst = 0b010#3 ∨ Idu.funct3 inst = 0b011#3 ∨
      Idu.funct3 inst = 0b101#3 ∨ Idu.funct3 inst = 0b110#3 ∨ Idu.funct3 inst = 0b111#3 := by
  simp only [Idu.csrLegal, Bool.and_eq_true, Bool.or_eq_true, beq_iff_eq] at h
  simpa [or_assoc] using h.2

theorem decodeLegal_isLegal (h : decodeLegal inst = true) : Idu.isLegal inst = true := by
  simp only [decodeLegal, Bool.and_eq_true] at h
  exact h.1.1.1

theorem decodeLegal_rd (h : decodeLegal inst = true) (hw : Idu.writesRd inst = true) :
    (Idu.rd inst).getLsbD 4 = false := by
  simp only [decodeLegal, rdValid, hw, Bool.and_eq_true] at h
  simpa using h.1.1.2

theorem decodeLegal_rs1 (h : decodeLegal inst = true) (hr : Idu.readsRs1 inst = true) :
    (Idu.rs1 inst).getLsbD 4 = false := by
  simp only [decodeLegal, rs1Valid, hr, Bool.and_eq_true] at h
  simpa using h.1.2

theorem decodeLegal_rs2 (h : decodeLegal inst = true) (hr : Idu.readsRs2 inst = true) :
    (Idu.rs2 inst).getLsbD 4 = false := by
  simp only [decodeLegal, rs2Valid, hr, Bool.and_eq_true] at h
  simpa using h.2

end Legal

/-- The D/X registers of an instruction without any control signal. -/
def dPlain (fd : FD) (rs1Data rs2Data : BitVec 32) : DX where
  pc := fd.pc
  inst := fd.inst
  instError := fd.instError
  rd := Idu.rd fd.inst
  writesRd := false
  wbSel := .alu
  memRen := false
  memWen := false
  memSize := Idu.memSize fd.inst
  memUnsigned := Idu.memUnsigned fd.inst
  csrCmd := .none
  csrAddr := Idu.csrAddr fd.inst
  csrUimm := Idu.csrUimm fd.inst
  rs1Data := rs1Data
  rs2Data := rs2Data
  imm := Idu.immI fd.inst
  aluOp := .add
  branchOp := .none
  src1Pc := false
  src2Imm := true
  isJal := false
  isJalr := false
  isMret := false
  isFenceI := false
  decodeLegal := Core.decodeLegal fd.inst
  isEcall := false
  isEbreak := false

section Classes
variable {fd : FD} {r1 r2 : BitVec 32}

theorem sysCmd_none (inst : BitVec 32) (h : Idu.opcode inst ≠ 0b1110011#7) : Idu.sysCmd inst =
    if Idu.isFence inst then .fence else if Idu.isFenceI inst then .fenceI else .none := by
  have exact_ne : ∀ w : BitVec 32, Idu.opcode w = 0b1110011#7 → (inst == w) = false := by
    intro w hw
    rw [beq_eq_false_iff_ne]
    rintro rfl
    exact h hw
  have h1 : Idu.isEcall inst = false := exact_ne _ (by decide)
  have h2 : Idu.isEbreak inst = false := exact_ne _ (by decide)
  have h3 : Idu.isMret inst = false := exact_ne _ (by decide)
  have h4 : Idu.isWfi inst = false := exact_ne _ (by decide)
  simp only [Idu.sysCmd, h1, h2, h3, h4, Bool.false_eq_true, if_false]

theorem sysCmd_csr {inst : BitVec 32} (h : Idu.opcode inst = 0b1110011#7)
    (h3 : Idu.funct3 inst ≠ 0b000#3) : Idu.sysCmd inst = .none := by
  have exact_ne : ∀ w : BitVec 32, Idu.funct3 w = 0b000#3 → (inst == w) = false := by
    intro w hw
    rw [beq_eq_false_iff_ne]
    rintro rfl
    exact h3 hw
  have h1 : Idu.isEcall inst = false := exact_ne _ (by decide)
  have h2 : Idu.isEbreak inst = false := exact_ne _ (by decide)
  have h3 : Idu.isMret inst = false := exact_ne _ (by decide)
  have h4 : Idu.isWfi inst = false := exact_ne _ (by decide)
  simp [Idu.sysCmd, h1, h2, h3, h4, Idu.isFence, Idu.isFenceI, Idu.isFenceOp, h]

attribute [local simp] Idu.isLui Idu.isAuipc Idu.isJal Idu.isJalr Idu.isLoad Idu.isStore
  Idu.isBranch Idu.isOpImm Idu.isOp Idu.isFenceOp Idu.isSystem Idu.isCsr Idu.isFence Idu.isFenceI
  Idu.writesRd Idu.memRen Idu.memWen Idu.src1Pc Idu.src2Imm Idu.wbSel Idu.immSel immData dStage
  dPlain

theorem dStage_lui (h : Idu.opcode fd.inst = 0b0110111#7) : dStage fd r1 r2 =
    { dPlain fd r1 r2 with writesRd := true, imm := Idu.immU fd.inst, aluOp := .copyB } := by
  have hs := sysCmd_none fd.inst (by simp [h])
  simp [h, hs, Idu.loadLegal, Idu.storeLegal, Idu.csrCmd, Idu.branchOp, Idu.aluOp]

theorem dStage_auipc (h : Idu.opcode fd.inst = 0b0010111#7) : dStage fd r1 r2 =
    { dPlain fd r1 r2 with writesRd := true, imm := Idu.immU fd.inst, src1Pc := true } := by
  have hs := sysCmd_none fd.inst (by simp [h])
  simp [h, hs, Idu.loadLegal, Idu.storeLegal, Idu.csrCmd, Idu.branchOp, Idu.aluOp]

theorem dStage_jal (h : Idu.opcode fd.inst = 0b1101111#7) : dStage fd r1 r2 =
    { dPlain fd r1 r2 with
      writesRd := true
      imm := Idu.immJ fd.inst
      wbSel := .pc4
      isJal := true } := by
  have hs := sysCmd_none fd.inst (by simp [h])
  simp [h, hs, Idu.loadLegal, Idu.storeLegal, Idu.csrCmd, Idu.branchOp, Idu.aluOp]

theorem dStage_jalr (h : Idu.opcode fd.inst = 0b1100111#7) (h3 : Idu.funct3 fd.inst = 0b000#3) :
    dStage fd r1 r2 = { dPlain fd r1 r2 with writesRd := true, wbSel := .pc4, isJalr := true } := by
  have hs := sysCmd_none fd.inst (by simp [h])
  simp [h, h3, hs, Idu.loadLegal, Idu.storeLegal, Idu.csrCmd, Idu.branchOp, Idu.aluOp]

theorem dStage_load (h : Idu.opcode fd.inst = 0b0000011#7) (hl : Idu.loadLegal fd.inst = true) :
    dStage fd r1 r2 = { dPlain fd r1 r2 with writesRd := true, wbSel := .mem, memRen := true } := by
  have hs := sysCmd_none fd.inst (by simp [h])
  simp [h, hl, hs, Idu.storeLegal, Idu.csrCmd, Idu.branchOp, Idu.aluOp]

theorem dStage_store (h : Idu.opcode fd.inst = 0b0100011#7) (hl : Idu.storeLegal fd.inst = true) :
    dStage fd r1 r2 = { dPlain fd r1 r2 with memWen := true, imm := Idu.immS fd.inst } := by
  have hs := sysCmd_none fd.inst (by simp [h])
  simp [h, hl, hs, Idu.loadLegal, Idu.csrCmd, Idu.branchOp, Idu.aluOp]

theorem dStage_branch (h : Idu.opcode fd.inst = 0b1100011#7) :
    dStage fd r1 r2 = { dPlain fd r1 r2 with branchOp := Idu.branchOp fd.inst } := by
  have hs := sysCmd_none fd.inst (by simp [h])
  simp [h, hs, Idu.loadLegal, Idu.storeLegal, Idu.csrCmd, Idu.aluOp]

theorem dStage_opImm (h : Idu.opcode fd.inst = 0b0010011#7) :
    dStage fd r1 r2 = { dPlain fd r1 r2 with writesRd := true, aluOp := Idu.aluOp fd.inst } := by
  have hs := sysCmd_none fd.inst (by simp [h])
  simp [h, hs, Idu.loadLegal, Idu.storeLegal, Idu.csrCmd, Idu.branchOp]

theorem dStage_op (h : Idu.opcode fd.inst = 0b0110011#7) :
    dStage fd r1 r2 =
      { dPlain fd r1 r2 with writesRd := true, aluOp := Idu.aluOp fd.inst, src2Imm := false } := by
  have hs := sysCmd_none fd.inst (by simp [h])
  simp [h, hs, Idu.loadLegal, Idu.storeLegal, Idu.csrCmd, Idu.branchOp]

theorem dStage_csr (h : Idu.opcode fd.inst = 0b1110011#7) (h3 : Idu.funct3 fd.inst ≠ 0b000#3) :
    dStage fd r1 r2 =
      { dPlain fd r1 r2 with writesRd := true, wbSel := .csr, csrCmd := Idu.csrCmd fd.inst } := by
  have hs := sysCmd_csr h h3
  simp [h, h3, hs, Idu.loadLegal, Idu.storeLegal, Idu.branchOp, Idu.aluOp]

theorem dStage_sys (h : Idu.opcode fd.inst = 0b1110011#7) (h3 : Idu.funct3 fd.inst = 0b000#3) :
    dStage fd r1 r2 =
    { dPlain fd r1 r2 with
      isMret := Idu.sysCmd fd.inst = .mret
      isFenceI := Idu.sysCmd fd.inst = .fenceI
      isEcall := Idu.sysCmd fd.inst = .ecall
      isEbreak := Idu.sysCmd fd.inst = .ebreak } := by
  simp [h, h3, Idu.loadLegal, Idu.storeLegal, Idu.csrCmd, Idu.branchOp, Idu.aluOp]

theorem dStage_fence (h : Idu.opcode fd.inst = 0b0001111#7) :
    dStage fd r1 r2 = { dPlain fd r1 r2 with isFenceI := Idu.funct3 fd.inst = 0b001#3 } := by
  have hs := sysCmd_none fd.inst (by simp [h])
  by_cases h0 : Idu.funct3 fd.inst = 0b000#3
  · simp [h, hs, h0, Idu.loadLegal, Idu.storeLegal, Idu.csrCmd, Idu.branchOp, Idu.aluOp]
  · by_cases h1 : Idu.funct3 fd.inst = 0b001#3 <;>
      simp [h, hs, h0, h1, Idu.loadLegal, Idu.storeLegal, Idu.csrCmd, Idu.branchOp, Idu.aluOp]

theorem branchOp_ne_none {inst : BitVec 32} (h : Idu.opcode inst = 0b1100011#7) :
    Idu.branchOp inst ≠ .none := by
  simp only [Idu.branchOp, Idu.isBranch, h]
  repeat' split
  all_goals simp_all

theorem csrCmd_ne_none {inst : BitVec 32} (h : Idu.opcode inst = 0b1110011#7)
    (h3 : Idu.funct3 inst ≠ 0b000#3) : Idu.csrCmd inst ≠ .none := by
  simp only [Idu.csrCmd, Idu.isCsr, Idu.isSystem, h]
  repeat' split
  all_goals simp_all

/-- An `ebreak` has nothing to write. -/
theorem ebreak_quiet (fd : FD) (r1 r2 : BitVec 32) (h : (dStage fd r1 r2).isEbreak = true) :
    (dStage fd r1 r2).writesRd = false ∧ (dStage fd r1 r2).csrCmd = .none ∧
      (dStage fd r1 r2).memRen = false ∧ (dStage fd r1 r2).memWen = false := by
  have hi : fd.inst = 0x00100073#32 := by
    have hs : Idu.sysCmd fd.inst = .ebreak := by simpa [dStage] using h
    by_contra hn
    have hb : Idu.isEbreak fd.inst = false := by simp [Idu.isEbreak, hn]
    simp only [Idu.sysCmd, hb, Bool.false_eq_true, if_false] at hs
    repeat' split at hs
    all_goals simp at hs
  rw [dStage_sys (by rw [hi]; decide) (by rw [hi]; decide)]
  exact ⟨rfl, rfl, rfl, rfl⟩

/-- An instruction that redirects in X neither accesses memory nor asks for a trap. -/
theorem redirect_quiet (fd : FD) (r1 r2 : BitVec 32) (h : xTakes (dStage fd r1 r2) = true) :
    (dStage fd r1 r2).memRen = false ∧ (dStage fd r1 r2).memWen = false ∧
      (dStage fd r1 r2).isEcall = false ∧ (dStage fd r1 r2).isEbreak = false := by
  simp only [xTakes, Bool.or_eq_true] at h
  rcases h with ((h | h) | h) | h
  · have hs : Idu.sysCmd fd.inst = .mret := by simpa [dStage] using h
    have hi : fd.inst = 0x30200073#32 := by
      by_contra hn
      have hm : Idu.isMret fd.inst = false := by simp [Idu.isMret, hn]
      simp only [Idu.sysCmd, hm, Bool.false_eq_true, if_false] at hs
      repeat' split at hs
      all_goals simp at hs
    rw [dStage_sys (by rw [hi]; decide) (by rw [hi]; decide), hs]
    exact ⟨rfl, rfl, rfl, rfl⟩
  · have hi : Idu.isJalr fd.inst = true := h
    simp only [Idu.isJalr, Bool.and_eq_true, beq_iff_eq] at hi
    rw [dStage_jalr hi.1 hi.2]
    exact ⟨rfl, rfl, rfl, rfl⟩
  · have hi : Idu.isJal fd.inst = true := h
    simp only [Idu.isJal, beq_iff_eq] at hi
    rw [dStage_jal hi]
    exact ⟨rfl, rfl, rfl, rfl⟩
  · have hi : Idu.opcode fd.inst = 0b1100011#7 := by
      by_contra hn
      have hb : (dStage fd r1 r2).branchOp = .none := by simp [Idu.branchOp, hn]
      simp only [xBranchTaken, hb, Bool.false_eq_true] at h
    rw [dStage_branch hi]
    exact ⟨rfl, rfl, rfl, rfl⟩

/-- A `fence.i` takes no redirect in X: it redirects from W. -/
theorem fenceI_no_redirect (fd : FD) (r1 r2 : BitVec 32)
    (h : (dStage fd r1 r2).isFenceI = true) : xTakes (dStage fd r1 r2) = false := by
  have hi : Idu.isFenceI fd.inst = true := by
    have hs : Idu.sysCmd fd.inst = .fenceI := by simpa [dStage] using h
    by_contra hn
    simp only [Idu.sysCmd, hn, if_false] at hs
    repeat' split at hs
    all_goals simp at hs
  simp only [Idu.isFenceI, Idu.isFenceOp, Bool.and_eq_true, beq_iff_eq] at hi
  rw [dStage_fence hi.1]
  simp [xTakes, xBranchTaken]

end Classes

end Npc.Core
