import AiOsoc.Nemu.Decode

/-!
# The reference emulator against the instruction set

One call of `decode_exec` has the effect that the instruction table gives, for
the instructions both sides implement and when targets and addresses are
aligned.
-/

namespace Nemu

set_option autoImplicit false

/-- The registers after an optional write. -/
def writeGpr (gpr : BitVec 5 → BitVec 32) : Option (Rv32e.Reg × BitVec 32) → BitVec 5 → BitVec 32
  | none => gpr
  | some (rd, v) => Function.update gpr rd v

def cpuCsrs (cpu : Cpu) : Rv32e.Csrs := ⟨cpu.mtvec, cpu.mepc, cpu.mcause⟩

/-- The bytes that a write of `len` bytes stores, lowest first. -/
def writtenBytes (addr : BitVec 32) (len : Nat) (data : BitVec 32) :
    List (BitVec 32 × BitVec 8) :=
  (List.range len).map fun k => (addr + BitVec.ofNat 32 k, (data >>> (k * 8)).setWidth 8)

/-- The memory `mem'` is `mem` after the data access of `ef`: one read or one write
of the bytes, and nothing if the instruction traps. -/
def MemoryFollows (cfg : Config) (mem : Memory) (ef : Rv32e.Effect) (mem' : Memory) : Prop :=
  match ef.trap, ef.access with
  | none, some (.load width addr) => ∃ v, vaddrRead cfg mem addr width.bytes = .ok (v, mem')
  | none, some (.store width addr bytes) =>
    ∃ data, vaddrWrite cfg mem addr width.bytes data = .ok mem' ∧
      bytes = writtenBytes addr width.bytes data
  | _, _ => mem' = mem

/-- The machine `e'` is `e` after the effect `ef`. -/
structure Follows (cfg : Config) (e : Exec) (ef : Rv32e.Effect) (e' : Exec) : Prop where
  gpr : e'.m.cpu.gpr = writeGpr e.m.cpu.gpr ef.write
  dnpc : e'.s.dnpc = ef.nextPc
  csrs : cpuCsrs e'.m.cpu = ef.csrs
  memory : MemoryFollows cfg e.m.mem ef e'.m.mem
  pc : e'.s.pc = e.s.pc
  inst : e'.s.inst = e.s.inst
  state : e'.m.state = e.m.state
  exception : e'.s.exception = (ef.access.isSome && ef.trap.isSome)
  cause : e'.s.exception = true → ef.trap = some e'.s.exceptionCause

/-- The state in which the body of an instruction starts. -/
structure Entered (e : Exec) : Prop where
  x0 : e.m.cpu.gpr 0#5 = 0#32
  vector : e.m.cpu.mtvec ≠ 0#32
  snpc : e.s.snpc = e.s.pc + 4#32
  dnpc : e.s.dnpc = e.s.snpc
  clear : e.s.exception = false

/-- The emulator sees the outcome `ans` of the data access of an instruction: the
same bytes, or an access fault. -/
def SeesAnswer (cfg : Config) (mem : Memory) (x : Rv32e.Reg → BitVec 32) (ans : Rv32e.Answer) :
    Rv32e.Instr → Prop
  | .load width _ _ rs1 imm =>
    let addr := x rs1 + imm.signExtend 32
    vaddrAccessOk cfg addr width.bytes = !ans.fault ∧
      (ans.fault = false → ∃ mem', vaddrRead cfg mem addr width.bytes =
        .ok (Rv32e.loadValue width true ans.byte addr, mem'))
  | .store width rs1 rs2 imm =>
    let addr := x rs1 + imm.signExtend 32
    vaddrAccessOk cfg addr width.bytes = !ans.fault ∧
      (ans.fault = false → ∃ mem', vaddrWrite cfg mem addr width.bytes (x rs2) = .ok mem')
  | _ => True

/-! ## Registers and values -/

theorem setR_zero {gpr : BitVec 5 → BitVec 32} (h0 : gpr 0#5 = 0#32) (rd : BitVec 5)
    (v : BitVec 32) :
    Function.update (Function.update gpr rd v) 0#5 0#32 = writeGpr gpr (Rv32e.setReg rd v) := by
  by_cases hr : rd = 0#5
  · subst hr
    rw [Function.update_idem, ← h0, Function.update_eq_self]
    rfl
  · rw [Rv32e.setReg, if_neg hr, writeGpr, Function.update_comm hr, ← h0, Function.update_eq_self]

theorem update_zero {gpr : BitVec 5 → BitVec 32} (h0 : gpr 0#5 = 0#32) :
    Function.update gpr 0#5 0#32 = gpr := by
  rw [← h0, Function.update_eq_self]

theorem shamt_eq (v : BitVec 32) : (BITS v 4 0).toNat = v.toNat % 32 := by
  have h : BITS v 4 0 = (v.extractLsb' 0 5).setWidth 64 := by
    apply BitVec.eq_of_getLsbD_eq
    intro i hi
    rw [BITS_getLsbD v 4 0 i (by omega) hi]
    simp only [BitVec.getLsbD_setWidth, BitVec.getLsbD_extractLsb']
    grind
  rw [h, BitVec.toNat_setWidth_of_le (by omega), BitVec.extractLsb'_toNat]
  simp

theorem storeBytes_eq (width : Rv32e.Width) (addr data : BitVec 32) :
    Rv32e.storeBytes width addr data = writtenBytes addr width.bytes data := by
  unfold Rv32e.storeBytes writtenBytes
  apply List.map_congr_left
  intro k _
  congr 1
  apply BitVec.eq_of_getLsbD_eq
  intro i hi
  simp only [BitVec.getLsbD_setWidth, BitVec.getLsbD_extractLsb', BitVec.getLsbD_ushiftRight]
  rw [Nat.mul_comm 8 k]

/-- The sign extension of a value read with leading zeros. -/
theorem SEXT_read {n : Nat} (v : BitVec n) (hn : n ≤ 32) :
    (SEXT ((v.setWidth 32).setWidth 64) n).setWidth 32 = v.signExtend 32 := by
  have h : ((v.setWidth 32).setWidth 64).setWidth n = v := by
    apply BitVec.eq_of_getLsbD_eq
    intro i hi
    simp only [BitVec.getLsbD_setWidth]
    grind
  rw [SEXT_setWidth, h]

/-! ## CSRs -/

theorem csrRead_eq (cfg : Config) (m : Machine) {a : BitVec 12} (h : Rv32e.csrKnown a = true) :
    csrRead cfg m (a.setWidth 32) = .ok ((cpuCsrs m.cpu).read a, m) := by
  simp only [Rv32e.csrKnown, Bool.or_eq_true, decide_eq_true_eq] at h
  rcases h with ((((rfl | rfl) | rfl) | rfl) | rfl) | rfl <;> rfl

/-- A CSR write changes nothing but the CSRs. -/
theorem csrWrite_eq (cfg : Config) (m : Machine) {a : BitVec 12} (v : BitVec 32)
    (h : Rv32e.csrKnown a = true) (hr : Rv32e.csrReadOnly a = false) :
    ∃ cpu, csrWrite cfg m (a.setWidth 32) v = .ok { m with cpu := cpu } ∧
      cpu.gpr = m.cpu.gpr ∧ cpuCsrs cpu = (cpuCsrs m.cpu).write a v := by
  simp only [Rv32e.csrKnown, Bool.or_eq_true, decide_eq_true_eq] at h
  rcases h with ((((rfl | rfl) | rfl) | rfl) | rfl) | rfl
  · exact absurd hr (by decide)
  · exact absurd hr (by decide)
  all_goals exact ⟨_, rfl, rfl, rfl⟩

/-! ## Outcomes of a body

`R(0) = 0` follows every body. -/

section Body
variable {cfg : Config} {e : Exec} (h : Entered e)
include h

theorem follows_link (rd : BitVec 5) (v target : BitVec 32) :
    Follows cfg e (.complete (cpuCsrs e.m.cpu) target (Rv32e.setReg rd v))
      (((e.setR rd v).jump target).setR 0#5 0#32) where
  gpr := setR_zero h.x0 rd v
  dnpc := rfl
  csrs := rfl
  memory := rfl
  pc := rfl
  inst := rfl
  state := rfl
  exception := h.clear
  cause := fun hc => absurd (hc.symm.trans h.clear) (by decide)

theorem follows_set (rd : BitVec 5) (v : BitVec 32) :
    Follows cfg e (.complete (cpuCsrs e.m.cpu) (e.s.pc + 4#32) (Rv32e.setReg rd v))
      ((e.setR rd v).setR 0#5 0#32) := by
  rw [← h.snpc, ← h.dnpc]
  exact follows_link h rd v e.s.dnpc

theorem follows_jump (target : BitVec 32) :
    Follows cfg e (.complete (cpuCsrs e.m.cpu) target none) ((e.jump target).setR 0#5 0#32) where
  gpr := update_zero h.x0
  dnpc := rfl
  csrs := rfl
  memory := rfl
  pc := rfl
  inst := rfl
  state := rfl
  exception := h.clear
  cause := fun hc => absurd (hc.symm.trans h.clear) (by decide)

theorem follows_stay :
    Follows cfg e (.complete (cpuCsrs e.m.cpu) (e.s.pc + 4#32) none) (e.setR 0#5 0#32) := by
  rw [← h.snpc, ← h.dnpc]
  exact follows_jump h e.s.dnpc

/-- A faulting access raises an exception that the record of the step shows. -/
theorem follows_raise (a : Rv32e.Access) (cause : BitVec 32) :
    Follows cfg e (.raise (cpuCsrs e.m.cpu) e.s.pc (some a) cause)
      ((e.raiseSyncException cause).setR 0#5 0#32) where
  gpr := update_zero h.x0
  dnpc := (if_neg h.vector).symm
  csrs := (if_neg h.vector).symm
  memory := rfl
  pc := rfl
  inst := rfl
  state := rfl
  exception := rfl
  cause := fun _ => rfl

/-- `ecall` enters the handler without that record. -/
theorem follows_ecall :
    Follows cfg e (.raise (cpuCsrs e.m.cpu) e.s.pc none 11#32)
      ((Exec.jump { e with m := (isaRaiseIntr e.m 11#32 e.s.pc).2 } e.m.cpu.mtvec).setR
        0#5 0#32) where
  gpr := update_zero h.x0
  dnpc := (if_neg h.vector).symm
  csrs := (if_neg h.vector).symm
  memory := rfl
  pc := rfl
  inst := rfl
  state := rfl
  exception := h.clear
  cause := fun hc => absurd (hc.symm.trans h.clear) (by decide)

theorem follows_load {width : Rv32e.Width} {addr v : BitVec 32} {mem : Memory} (rd : BitVec 5)
    (hr : vaddrRead cfg e.m.mem addr width.bytes = .ok (v, mem)) (v' : BitVec 32) :
    Follows cfg e
      { Rv32e.Effect.complete (cpuCsrs e.m.cpu) (e.s.pc + 4#32) (Rv32e.setReg rd v') with
        access := some (.load width addr) }
      ((Exec.setR { e with m.mem := mem } rd v').setR 0#5 0#32) where
  gpr := setR_zero h.x0 rd v'
  dnpc := h.dnpc.trans h.snpc
  csrs := rfl
  memory := ⟨v, hr⟩
  pc := rfl
  inst := rfl
  state := rfl
  exception := h.clear
  cause := fun hc => absurd (hc.symm.trans h.clear) (by decide)

theorem follows_store {width : Rv32e.Width} {addr data : BitVec 32} {mem : Memory}
    (hw : vaddrWrite cfg e.m.mem addr width.bytes data = .ok mem) :
    Follows cfg e
      { Rv32e.Effect.complete (cpuCsrs e.m.cpu) (e.s.pc + 4#32) none with
        access := some (.store width addr (Rv32e.storeBytes width addr data)) }
      (Exec.setR { e with m.mem := mem } 0#5 0#32) where
  gpr := update_zero h.x0
  dnpc := h.dnpc.trans h.snpc
  csrs := rfl
  memory := ⟨data, hw, storeBytes_eq width addr data⟩
  pc := rfl
  inst := rfl
  state := rfl
  exception := h.clear
  cause := fun hc => absurd (hc.symm.trans h.clear) (by decide)

theorem follows_csr {csr : BitVec 12} {op : Rv32e.CsrOp} {src : BitVec 5}
    (hk : CsrAllowed op csr src) (hc : Rv32e.funct12 e.s.inst = csr) (o : Operands)
    (v : BitVec 32) :
    ∃ e', e.csr cfg o (Rv32e.csrWrites op src) (fun t => op.eval t v) = .ok e' ∧
      Follows cfg e (Rv32e.csrAccess e.s.pc (cpuCsrs e.m.cpu) op csr o.rd src v)
        (e'.setR 0#5 0#32) := by
  have ha : (BITS e.s.inst 31 20).setWidth 32 = csr.setWidth 32 := by
    rw [BITS_word e.s.inst 12 rfl (by omega), ← hc, Rv32e.funct12]
  simp only [CsrAllowed, Bool.and_eq_true, Bool.not_eq_true'] at hk
  unfold Exec.csr
  rw [ha]
  cases hwr : Rv32e.csrWrites op src with
  | false =>
    refine ⟨e.setR o.rd ((cpuCsrs e.m.cpu).read csr), ?_, ?_⟩
    · simp only [csrRead_eq cfg e.m hk.1]
      rfl
    · rw [Rv32e.csrAccess, hwr]
      exact follows_set h o.rd ((cpuCsrs e.m.cpu).read csr)
  | true =>
    have hro : Rv32e.csrReadOnly csr = false := by
      rw [hwr, Bool.and_true] at hk
      exact hk.2
    obtain ⟨cpu, hcpu, hgpr, hcsrs⟩ :=
      csrWrite_eq cfg e.m (op.eval ((cpuCsrs e.m.cpu).read csr) v) hk.1 hro
    refine ⟨Exec.setR { e with m.cpu := cpu } o.rd ((cpuCsrs e.m.cpu).read csr), ?_, ?_⟩
    · simp only [csrRead_eq cfg e.m hk.1, bind, Except.bind, hcpu, if_true]
      rfl
    · exact {
        gpr := by
          change Function.update (Function.update cpu.gpr _ _) _ _ = _
          rw [hgpr]
          exact setR_zero h.x0 o.rd _
        dnpc := h.dnpc.trans h.snpc
        csrs := by
          rw [Rv32e.csrAccess, hwr]
          exact hcsrs
        memory := rfl
        pc := rfl
        inst := rfl
        state := rfl
        exception := h.clear
        cause := fun hc => absurd (hc.symm.trans h.clear) (by decide) }

end Body

/-! ## Operands and bodies -/

section Operands
variable (inst : BitVec 32) (gpr : BitVec 5 → BitVec 32)

theorem decodeOperand_I : decodeOperand inst gpr .I =
    ⟨Rv32e.rd inst, gpr (Rv32e.rs1 inst), 0#32, (Rv32e.funct12 inst).signExtend 32⟩ := by
  rw [decodeOperand, rd_eq, rs1_eq, immI_eq]

theorem decodeOperand_U : decodeOperand inst gpr .U =
    ⟨Rv32e.rd inst, 0#32, 0#32, Rv32e.immU inst ++ 0#12⟩ := by
  rw [decodeOperand, rd_eq, immU_eq]

theorem decodeOperand_S : decodeOperand inst gpr .S =
    ⟨Rv32e.rd inst, gpr (Rv32e.rs1 inst), gpr (Rv32e.rs2 inst),
      (Rv32e.immS inst).signExtend 32⟩ := by
  rw [decodeOperand, rd_eq, rs1_eq, rs2_eq, immS_eq]

theorem decodeOperand_J : decodeOperand inst gpr .J =
    ⟨Rv32e.rd inst, 0#32, 0#32, (Rv32e.immJ inst).signExtend 32⟩ := by
  rw [decodeOperand, rd_eq, immJ_eq]

theorem decodeOperand_B : decodeOperand inst gpr .B =
    ⟨Rv32e.rd inst, gpr (Rv32e.rs1 inst), gpr (Rv32e.rs2 inst),
      (Rv32e.immB inst).signExtend 32⟩ := by
  rw [decodeOperand, rd_eq, rs1_eq, rs2_eq, immB_eq]

theorem decodeOperand_R : decodeOperand inst gpr .R =
    ⟨Rv32e.rd inst, gpr (Rv32e.rs1 inst), gpr (Rv32e.rs2 inst), 0#32⟩ := by
  rw [decodeOperand, rd_eq, rs1_eq, rs2_eq]

theorem slt_eval (a b : BitVec 32) : bool (a.slt b) = Rv32e.Alu.eval .slt a b := by
  simp [bool, Rv32e.Alu.eval, BitVec.slt]

theorem sltu_eval (a b : BitVec 32) : bool (a.ult b) = Rv32e.Alu.eval .sltu a b := by
  simp [bool, Rv32e.Alu.eval, BitVec.ult]

/-- The test of the set and clear forms is on the field, not on the value. -/
theorem rs1_field_nonzero : (BITS inst 19 15 != 0#64) = decide (Rv32e.rs1 inst ≠ 0#5) := by
  have h : BITS inst 19 15 = (Rv32e.rs1 inst).setWidth 64 := by
    apply BitVec.eq_of_getLsbD_eq
    intro i hi
    rw [BITS_getLsbD inst 19 15 i (by omega) hi, Rv32e.rs1]
    simp only [BitVec.getLsbD_setWidth, BitVec.getLsbD_extractLsb']
    grind
  rw [h]
  generalize Rv32e.rs1 inst = r
  revert r
  decide

theorem shamt_field : (BITS ((Rv32e.funct12 inst).signExtend 32) 4 0).toNat =
    ((Rv32e.rs2 inst).setWidth 32).toNat % 32 := by
  rw [shamt_eq, Rv32e.funct12_shamt]

end Operands

section Bodies
variable {cfg : Config} {e : Exec} {ans : Rv32e.Answer} (h : Entered e)
include h

theorem load_follows (width : Rv32e.Width) (unsigned : Bool) (ext : BitVec 32 → BitVec 32)
    (o : Operands) (hal : Rv32e.aligned width (o.src1 + o.imm) = true)
    (hok : vaddrAccessOk cfg (o.src1 + o.imm) width.bytes = !ans.fault)
    (hread : ans.fault = false → ∃ mem', vaddrRead cfg e.m.mem (o.src1 + o.imm) width.bytes =
      .ok (Rv32e.loadValue width true ans.byte (o.src1 + o.imm), mem'))
    (hext : ext (Rv32e.loadValue width true ans.byte (o.src1 + o.imm)) =
      Rv32e.loadValue width unsigned ans.byte (o.src1 + o.imm)) :
    ∃ e', e.load cfg o width.bytes ext = .ok e' ∧
      Follows cfg e (Rv32e.memory e.s.pc (cpuCsrs e.m.cpu) ans width (o.src1 + o.imm)
        (.load width (o.src1 + o.imm)) 4#32 5#32
        (Rv32e.setReg o.rd (Rv32e.loadValue width unsigned ans.byte (o.src1 + o.imm))))
        (e'.setR 0#5 0#32) := by
  unfold Exec.load Rv32e.memory
  simp only [hok, hal, if_true]
  cases hf : ans.fault with
  | true => exact ⟨_, rfl, follows_raise h _ 5#32⟩
  | false =>
    obtain ⟨mem', hr⟩ := hread hf
    refine ⟨Exec.setR { e with m.mem := mem' } o.rd
      (Rv32e.loadValue width unsigned ans.byte (o.src1 + o.imm)), ?_, ?_⟩
    · simp only [hr, bind, Except.bind, Bool.not_false, if_true, hext]
      rfl
    · exact follows_load h o.rd hr _

theorem store_follows {width : Rv32e.Width} (o : Operands)
    (hal : Rv32e.aligned width (o.src1 + o.imm) = true)
    (hok : vaddrAccessOk cfg (o.src1 + o.imm) width.bytes = !ans.fault)
    (hwrite : ans.fault = false → ∃ mem',
      vaddrWrite cfg e.m.mem (o.src1 + o.imm) width.bytes o.src2 = .ok mem') :
    ∃ e', e.store cfg o width.bytes = .ok e' ∧
      Follows cfg e (Rv32e.memory e.s.pc (cpuCsrs e.m.cpu) ans width (o.src1 + o.imm)
        (.store width (o.src1 + o.imm) (Rv32e.storeBytes width (o.src1 + o.imm) o.src2))
        6#32 7#32 none) (e'.setR 0#5 0#32) := by
  unfold Exec.store Rv32e.memory
  simp only [hok, hal, if_true]
  cases hf : ans.fault with
  | true => exact ⟨_, rfl, follows_raise h _ 7#32⟩
  | false =>
    obtain ⟨mem', hw⟩ := hwrite hf
    refine ⟨{ e with m.mem := mem' }, ?_, follows_store h hw⟩
    simp only [hw, bind, Except.bind, Bool.not_false, if_true]
    rfl

omit h in
theorem branch_body (cond : Rv32e.Cond) (o : Operands) :
    execBody cfg (branchName cond) o e =
      .ok (if cond.holds o.src1 o.src2 then e.jump (e.s.pc + o.imm) else e) := by
  cases cond <;> simp [branchName, execBody, Rv32e.Cond.holds, BitVec.slt, BitVec.ult, BitVec.sle,
    BitVec.ule]

omit h in
theorem op_body (op : Rv32e.Alu) (o : Operands) :
    execBody cfg (opName op) o e = .ok (e.setR o.rd (op.eval o.src1 o.src2)) := by
  cases op <;> simp [opName, execBody, Rv32e.Alu.eval, shamt_eq, bool, BitVec.slt, BitVec.ult]

omit h in
theorem store_body (width : Rv32e.Width) (o : Operands) :
    execBody cfg (storeName width) o e = e.store cfg o width.bytes := by
  cases width <;> rfl

omit h in
theorem csr_body (op : Rv32e.CsrOp) (o : Operands) :
    execBody cfg (csrName op) o e =
      e.csr cfg o (Rv32e.csrWrites op (Rv32e.rs1 e.s.inst)) (fun t => op.eval t o.src1) := by
  cases op with
  | rw => rfl
  | rs | rc =>
    simp only [csrName, execBody, rs1_field_nonzero]
    rfl

omit h in
theorem csrImm_body (op : Rv32e.CsrOp) (o : Operands) :
    execBody cfg (csrImmName op) o e =
      e.csr cfg o (Rv32e.csrWrites op (Rv32e.rs1 e.s.inst))
        (fun t => op.eval t ((Rv32e.rs1 e.s.inst).setWidth 32)) := by
  have hz : (BITS e.s.inst 19 15).setWidth 32 = (Rv32e.rs1 e.s.inst).setWidth 32 :=
    BITS_word e.s.inst 5 rfl (by omega)
  cases op with
  | rw =>
    simp only [csrImmName, execBody, hz]
    rfl
  | rs | rc =>
    simp only [csrImmName, execBody, rs1_field_nonzero, hz]
    rfl

theorem branch_follows (cond : Rv32e.Cond) (o : Operands)
    (ht : cond.holds o.src1 o.src2 = true → (e.s.pc + o.imm).toNat % 4 = 0) :
    ∃ e', execBody cfg (branchName cond) o e = .ok e' ∧
      Follows cfg e (if cond.holds o.src1 o.src2 then
          Rv32e.goto e.s.pc (cpuCsrs e.m.cpu) (e.s.pc + o.imm) none
        else .complete (cpuCsrs e.m.cpu) (e.s.pc + 4#32) none) (e'.setR 0#5 0#32) := by
  refine ⟨_, branch_body cond o, ?_⟩
  cases hb : cond.holds o.src1 o.src2 with
  | true =>
    rw [Rv32e.goto, if_pos (ht hb)]
    exact follows_jump h _
  | false => exact follows_stay h

/-- The body of a pattern has the effect of the instruction it stands for. -/
theorem body_follows {i : Rv32e.Instr} {name : Name} {type : InstType}
    (hf : Form e.s.inst i name type) (ht : Rv32e.TargetsAligned e.m.cpu.gpr e.s.pc i)
    (hs : SeesAnswer cfg e.m.mem e.m.cpu.gpr ans i) :
    ∃ e', execBody cfg name (decodeOperand e.s.inst e.m.cpu.gpr type) e = .ok e' ∧
      Follows cfg e (Rv32e.exec e.m.cpu.gpr e.s.pc (cpuCsrs e.m.cpu) ans i)
        (e'.setR 0#5 0#32) := by
  cases hf with
  | lui | auipc =>
    rw [decodeOperand_U]
    exact ⟨_, rfl, follows_set h _ _⟩
  | jal =>
    simp only [Rv32e.TargetsAligned] at ht
    rw [decodeOperand_J, Rv32e.exec, Rv32e.goto, if_pos ht, ← h.snpc]
    exact ⟨_, rfl, follows_link h _ _ _⟩
  | jalr =>
    simp only [Rv32e.TargetsAligned] at ht
    rw [decodeOperand_I, Rv32e.exec, Rv32e.goto, if_pos ht, ← h.snpc]
    exact ⟨_, rfl, follows_link h _ _ _⟩
  | branch cond =>
    rw [decodeOperand_B]
    exact branch_follows h cond ⟨_, _, _, _⟩ ht
  | lb =>
    rw [decodeOperand_I]
    exact load_follows h .byte false sextByte ⟨_, _, _, _⟩ ht hs.1 hs.2 (SEXT_read _ (by omega))
  | lh =>
    rw [decodeOperand_I]
    exact load_follows h .half false sextHalf ⟨_, _, _, _⟩ ht hs.1 hs.2 (SEXT_read _ (by omega))
  | lw =>
    rw [decodeOperand_I]
    exact load_follows h .word false id ⟨_, _, _, _⟩ ht hs.1 hs.2 rfl
  | lbu =>
    rw [decodeOperand_I]
    exact load_follows h .byte true id ⟨_, _, _, _⟩ ht hs.1 hs.2 rfl
  | lhu =>
    rw [decodeOperand_I]
    exact load_follows h .half true id ⟨_, _, _, _⟩ ht hs.1 hs.2 rfl
  | store width =>
    rw [decodeOperand_S, store_body]
    exact store_follows h ⟨_, _, _, _⟩ ht hs.1 hs.2
  | addi | xori | ori | andi =>
    rw [decodeOperand_I]
    exact ⟨_, rfl, follows_set h _ _⟩
  | slti =>
    rw [decodeOperand_I, Rv32e.exec, ← slt_eval]
    exact ⟨_, rfl, follows_set h _ _⟩
  | sltiu =>
    rw [decodeOperand_I, Rv32e.exec, ← sltu_eval]
    exact ⟨_, rfl, follows_set h _ _⟩
  | slli | srli | srai =>
    -- the emulator takes the amount from the immediate, the table from the field
    rw [decodeOperand_I]
    simp only [Rv32e.exec, Rv32e.Alu.eval, ← shamt_field]
    exact ⟨_, rfl, follows_set h _ _⟩
  | op op =>
    rw [decodeOperand_R]
    exact ⟨_, op_body op _, follows_set h _ _⟩
  | csr op hk =>
    rw [decodeOperand_I, csr_body]
    exact follows_csr h hk rfl ⟨_, _, _, _⟩ _
  | csrImm op hk =>
    rw [decodeOperand_I, csrImm_body]
    exact follows_csr h hk rfl ⟨_, _, _, _⟩ _
  | ecall => exact ⟨_, rfl, follows_ecall h⟩
  | mret => exact ⟨_, rfl, follows_jump h _⟩

end Bodies

/-! ## One call of `exec_once` -/

/-- The state after the fetch of `inst`. -/
def fetched (m : Machine) (mem : Memory) (inst : BitVec 32) : Exec :=
  ⟨{ m with mem := mem },
    ⟨m.cpu.pc, m.cpu.pc + 4#32, m.cpu.pc + 4#32, false, 0#32, inst⟩⟩

theorem decodeExec_eq {cfg : Config} {e e' : Exec} {name : Name} {type : InstType}
    (hmatch : matchInst e.s.inst = some (name, type))
    (he : execBody cfg name (decodeOperand e.s.inst e.m.cpu.gpr type) (e.jump e.s.snpc) =
      .ok e') : decodeExec cfg e = .ok (e'.setR 0#5 0#32) := by
  unfold decodeExec
  simp only [Exec.jump, hmatch] at he ⊢
  simp only [he, bind, Except.bind]
  rfl

theorem execOnce_of_body {cfg : Config} {m : Machine} {mem : Memory} {inst : BitVec 32}
    {name : Name} {type : InstType} {e' : Exec} (hok : vaddrAccessOk cfg m.cpu.pc 4 = true)
    (hfetch : vaddrIfetch cfg m.mem m.cpu.pc 4 = .ok (inst, mem))
    (hmatch : matchInst inst = some (name, type))
    (he : execBody cfg name (decodeOperand inst m.cpu.gpr type) (fetched m mem inst) = .ok e') :
    execOnce cfg m = .ok { e'.setR 0#5 0#32 with m.cpu.pc := e'.s.dnpc } := by
  have hone : isaExecOnce cfg ⟨m, ⟨m.cpu.pc, m.cpu.pc, 0#32, false, 0#32, 0#32⟩⟩ =
      .ok (e'.setR 0#5 0#32) := by
    simp only [isaExecOnce, hok, hfetch, Bool.not_true, Bool.false_eq_true, if_false, bind,
      Except.bind]
    exact decodeExec_eq hmatch he
  simp only [execOnce, hone, bind, Except.bind]
  rfl

theorem execOnce_follows {cfg : Config} {m : Machine} {mem : Memory} {inst : BitVec 32}
    {i : Rv32e.Instr} {ans : Rv32e.Answer} (h0 : m.cpu.gpr 0#5 = 0#32)
    (hv : m.cpu.mtvec ≠ 0#32) (hok : vaddrAccessOk cfg m.cpu.pc 4 = true)
    (hfetch : vaddrIfetch cfg m.mem m.cpu.pc 4 = .ok (inst, mem))
    (hd : Rv32e.decodeAny inst = some i) (hi : Rv32e.Common i)
    (ht : Rv32e.TargetsAligned m.cpu.gpr m.cpu.pc i) (hs : SeesAnswer cfg mem m.cpu.gpr ans i) :
    ∃ e', execOnce cfg m = .ok e' ∧ e'.m.cpu.pc = e'.s.dnpc ∧
      Follows cfg (fetched m mem inst)
        (Rv32e.exec m.cpu.gpr m.cpu.pc (cpuCsrs m.cpu) ans i) e' := by
  obtain ⟨name, type, hform, hmatch⟩ := found_of_decodeAny hd hi
  have hent : Entered (fetched m mem inst) := ⟨h0, hv, rfl, rfl, rfl⟩
  obtain ⟨e', he, hf⟩ := body_follows hent hform ht hs
  refine ⟨_, execOnce_of_body hok hfetch hmatch he, rfl, ?_⟩
  exact ⟨hf.gpr, hf.dnpc, hf.csrs, hf.memory, hf.pc, hf.inst, hf.state, hf.exception, hf.cause⟩

end Nemu
