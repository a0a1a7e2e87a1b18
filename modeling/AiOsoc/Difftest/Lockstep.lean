import AiOsoc.Difftest.Event
import AiOsoc.Nemu.Access
import AiOsoc.Nemu.Refine
import AiOsoc.Npc.Commit

/-!
# The two implementations in lockstep

One instruction of the emulator against one retirement of the core, from the
same architectural state. Both are compared with the instruction table.
-/

namespace Difftest

set_option autoImplicit false

open Npc.Core Nemu

/-! ## The write-back flag of the emulator -/

section WritesBack
variable {inst : BitVec 32}

/-- A field cut out with a shift and a mask. -/
theorem field_masked (lo : Nat) {w : Nat} (hw : w < 32) :
    (inst >>> lo) &&& BitVec.ofNat 32 (2 ^ w - 1) = (inst.extractLsb' lo w).setWidth 32 := by
  apply BitVec.eq_of_toNat_eq
  have hlt : 2 ^ w - 1 < 2 ^ 32 := by
    have := Nat.pow_lt_pow_right (by omega : 1 < 2) hw
    omega
  rw [BitVec.toNat_and, BitVec.toNat_ushiftRight, BitVec.toNat_ofNat, Nat.mod_eq_of_lt hlt,
    Nat.and_two_pow_sub_one_eq_mod, BitVec.toNat_setWidth_of_le (by omega),
    BitVec.extractLsb'_toNat]

theorem masked_opcode : inst &&& 0x7f#32 = (Rv32e.opcode inst).setWidth 32 := by
  have h : (inst >>> 0) &&& 0x7f#32 = (Rv32e.opcode inst).setWidth 32 :=
    field_masked 0 (w := 7) (by omega)
  rwa [BitVec.ushiftRight_zero] at h

theorem masked_rd : (inst >>> 7) &&& 0x1f#32 = (Rv32e.rd inst).setWidth 32 :=
  field_masked 7 (w := 5) (by omega)

theorem masked_funct3 : (inst >>> 12) &&& 0x7#32 = (Rv32e.funct3 inst).setWidth 32 :=
  field_masked 12 (w := 3) (by omega)

theorem setWidth_inj {w : Nat} (hw : w ≤ 32) (a b : BitVec w) :
    a.setWidth 32 = b.setWidth 32 ↔ a = b := by
  constructor
  · intro h
    have h' := congrArg BitVec.toNat h
    rw [BitVec.toNat_setWidth_of_le hw, BitVec.toNat_setWidth_of_le hw] at h'
    exact BitVec.eq_of_toNat_eq h'
  · rintro rfl
    rfl

theorem writesBack_iff : writesBack inst = true ↔
    (Rv32e.opcode inst = 0b0110111#7 ∨ Rv32e.opcode inst = 0b0010111#7 ∨
      Rv32e.opcode inst = 0b1101111#7 ∨ Rv32e.opcode inst = 0b1100111#7 ∨
      Rv32e.opcode inst = 0b0000011#7 ∨ Rv32e.opcode inst = 0b0010011#7 ∨
      Rv32e.opcode inst = 0b0110011#7 ∨ Rv32e.opcode inst = 0b1110011#7) ∧
      Rv32e.rd inst ≠ 0#5 ∧
      ¬ (Rv32e.opcode inst = 0b1110011#7 ∧ Rv32e.funct3 inst = 0b000#3) := by
  have hop : ∀ v : BitVec 7, (inst &&& 0x7f#32 = v.setWidth 32) = (Rv32e.opcode inst = v) := by
    intro v
    rw [masked_opcode, setWidth_inj (by omega)]
  have hrd : ((inst >>> 7) &&& 0x1f#32 = 0#32) = (Rv32e.rd inst = 0#5) := by
    rw [masked_rd]
    exact propext (setWidth_inj (by omega) (Rv32e.rd inst) 0#5)
  have hf3 : ((inst >>> 12) &&& 0x7#32 = 0#32) = (Rv32e.funct3 inst = 0b000#3) := by
    rw [masked_funct3]
    exact propext (setWidth_inj (by omega) (Rv32e.funct3 inst) 0#3)
  have h37 := hop 0x37#7
  have h17 := hop 0x17#7
  have h6f := hop 0x6f#7
  have h67 := hop 0x67#7
  have h03 := hop 0x03#7
  have h13 := hop 0x13#7
  have h33 := hop 0x33#7
  have h73 := hop 0x73#7
  simp only [BitVec.reduceSetWidth] at h37 h17 h6f h67 h03 h13 h33 h73
  simp only [writesBack, h37, h17, h6f, h67, h03, h13, h33, h73, ne_eq, hrd, hf3]
  by_cases hs : Rv32e.opcode inst = 0x73#7 ∧ Rv32e.funct3 inst = 0b000#3
  · simp [hs]
  · rw [if_neg hs]
    simp [hs, or_assoc]

theorem opImm_dest {i : Rv32e.Instr} :
    Rv32e.decodeOpImm inst = some i → i.dest = Rv32e.rd inst := by
  unfold Rv32e.decodeOpImm
  repeat' apply Rv32e.ite_elim
  case hb => nofun
  all_goals
    rintro ⟨⟩
    rfl

theorem system_dest {i : Rv32e.Instr} (hd : Rv32e.decodeSystem inst = some i) :
    i.dest = if Rv32e.funct3 inst = 0b000#3 then 0#5 else Rv32e.rd inst := by
  unfold Rv32e.decodeSystem at hd
  split_ifs at hd with h3 hz hf hf hf hf hbit
  · cases hd
    rw [if_pos h3]
    rfl
  · cases hd
    rw [if_pos h3]
    rfl
  · cases hd
    rw [if_pos h3]
    rfl
  · cases hd
    rw [if_pos h3]
    rfl
  · obtain ⟨op, -, hd⟩ := Option.bind_eq_some_iff.mp hd
    split_ifs at hd
    cases hd
    rw [if_neg h3]
    rfl
  · obtain ⟨op, -, hd⟩ := Option.bind_eq_some_iff.mp hd
    split_ifs at hd
    cases hd
    rw [if_neg h3]
    rfl

/-- The flag says whether the instruction has a destination. -/
theorem writesBack_dest {i : Rv32e.Instr} (hd : Rv32e.decodeAny inst = some i) :
    (writesBack inst = true ↔ i.dest ≠ 0#5) ∧ (i.dest ≠ 0#5 → i.dest = Rv32e.rd inst) := by
  rw [writesBack_iff]
  cases Rv32e.decoded_of_decodeAny hd with
  | lui h | auipc h | jal h => simp [h, Rv32e.Instr.dest]
  | jalr h _ | fence h _ | fenceI h _ => simp [h, Rv32e.Instr.dest]
  | branch h _ | load h _ | store h _ | op h _ => simp [h, Rv32e.Instr.dest]
  | opImm h hc => simp [h, opImm_dest hc]
  | system h hc =>
    rw [system_dest hc]
    by_cases h3 : Rv32e.funct3 inst = 0b000#3 <;> simp [h, h3]

end WritesBack

/-! ## One instruction -/

/-- The sixteen registers and the CSRs agree. -/
structure Agree (m : Machine) (s : State) : Prop where
  gpr : ∀ r, r < 16#5 → m.cpu.gpr r = regsOf s.regs r
  csrs : cpuCsrs m.cpu = csrsOf s.csr

theorem agree_write {gpr : BitVec 5 → BitVec 32} {regs : Npc.RegFile}
    (h : ∀ r, r < 16#5 → gpr r = regsOf regs r) {w : Option (BitVec 5 × BitVec 32)}
    (hw : ∀ rd v, w = some (rd, v) → rd ≠ 0#5 ∧ rd < 16#5) (r : BitVec 5) (hr : r < 16#5) :
    writeGpr gpr w r = regsOf (applyWrite regs w) r := by
  cases w with
  | none => exact h r hr
  | some p =>
    obtain ⟨rd, v⟩ := p
    obtain ⟨h0, h16⟩ := hw rd v rfl
    have hlow : ∀ a : BitVec 5, a < 16#5 → a.getLsbD 4 = false := by decide
    have hz : rd.extractLsb' 0 4 ≠ 0#4 := by
      intro hz
      exact h0 ((reg_eq_of_low (hlow rd h16) (by decide)).mpr hz)
    rw [writeGpr, applyWrite, regsOf, rdata_next, Function.update_apply, h r hr]
    by_cases hrd : r = rd
    · subst hrd
      simp [hz]
    · have hne : r.extractLsb' 0 4 ≠ rd.extractLsb' 0 4 := by
        intro he
        exact hrd ((reg_eq_of_low (hlow r hr) (hlow rd h16)).mpr he)
      simp [hrd, hne, regsOf]

/-- What both sides show of one instruction: the machine `e` of the emulator after
it, and the core `s` in the cycle `i` of the retirement. -/
structure SameStep (cfg : Config) (m : Machine) (mem : Memory) (s : State) (i : Npc.Core.Input)
    (e : Exec) : Prop where
  nextPc : e.m.cpu.pc = commitNextPc s i
  gprWrite : e.m.cpu.gpr = writeGpr m.cpu.gpr (retireEffect s i).write
  gpr : ∀ r, r < 16#5 → e.m.cpu.gpr r = regsOf (clock s i).regs r
  memory : MemoryFollows cfg mem (retireEffect s i).toIsa e.m.mem
  event : ∀ retire cycles,
    (commitEventCompare (makeCommitEvent e.counted e.m.cpu.pc)
      (makeEvent s i retire cycles)).1 = true

section Step
variable {cfg : Config} {m : Machine} {mem : Memory} {s : State} {i : Npc.Core.Input}
  {inst : BitVec 32} {instr : Rv32e.Instr}

/-- The table's effect of the instruction, from the emulator's registers. -/
def tableEffect (m : Machine) (s : State) (i : Npc.Core.Input) (instr : Rv32e.Instr) :
    Rv32e.Effect :=
  Rv32e.exec m.cpu.gpr m.cpu.pc (cpuCsrs m.cpu) (answerOf (lsuRaw s i)) instr

theorem tableEffect_eq (hag : Agree m s) (hd : Rv32e.decode inst = some instr) :
    tableEffect m s i instr =
      Rv32e.exec (regsOf s.regs) m.cpu.pc (csrsOf s.csr) (answerOf (lsuRaw s i)) instr := by
  rw [tableEffect, hag.csrs]
  apply Rv32e.exec_congr
  intro r hr
  exact hag.gpr r (Rv32e.decode_regs hd hr)

/-- The core and the table agree up to the CSRs, and on these apart from one corner. -/
theorem core_effect (hag : Agree m s) (hpc : m.cpu.pc.toNat % 4 = 0)
    (hret : Retiring s i m.cpu.pc inst) (hl : Npc.Core.decodeLegal inst = true)
    (hd : Rv32e.decode inst = some instr) :
    (∀ k, { (retireEffect s i).toIsa with csrs := k } =
        { tableEffect m s i instr with csrs := k }) ∧
      ((retireEffect s i).toIsa = tableEffect m s i instr ↔
        ¬ KeepsLowBits inst (regsOf s.regs (Npc.Idu.rs1 inst)) s.csr) := by
  rw [hret.effect_eq, tableEffect_eq hag hd]
  obtain ⟨j, hj, heq⟩ := implements_apart_csrs s.regs s.csr (lsuRaw s i) hl hpc hret.operands_ready
  obtain rfl : j = instr := Option.some.inj (hj.symm.trans hd)
  refine ⟨heq, ?_⟩
  rw [← implements_iff_not_keeps s.regs s.csr (lsuRaw s i) hl hpc hret.operands_ready]
  exact (implements_iff s.regs s.csr (lsuRaw s i) hd).symm

/-- The event of a step that raised an exception. -/
theorem event_raised {e : Exec} (dnpc : BitVec 32) (hx : e.s.exception = true) :
    makeCommitEvent e.counted dnpc =
      ⟨e.m.mem.nrGuestInst + 1#64, e.m.mem.nrGuestInst + 1#64, e.s.pc, e.s.inst, dnpc, false, 0#8,
        0#32, true, e.s.exceptionCause⟩ := by
  simp [makeCommitEvent, Exec.counted, hx]

theorem event_plain {e : Exec} (dnpc : BitVec 32) (hx : e.s.exception = false)
    (hs : e.m.state ≠ .abort) :
    makeCommitEvent e.counted dnpc =
      ⟨e.m.mem.nrGuestInst + 1#64, e.m.mem.nrGuestInst + 1#64, e.s.pc, e.s.inst, dnpc,
        writesBack e.s.inst, (Rv32e.rd e.s.inst).setWidth 8,
        if writesBack e.s.inst then e.m.cpu.gpr (Rv32e.rd e.s.inst) else 0#32, false, 0#32⟩ := by
  have hlt : ∀ r : BitVec 5, r.setWidth 32 < 32#32 := by decide
  have hw : ∀ (r : BitVec 5) (n : Nat), 5 ≤ n → n ≤ 32 →
      (r.setWidth 32).setWidth n = r.setWidth n := by
    intro r n h5 h32
    apply BitVec.eq_of_getLsbD_eq
    intro i hi
    simp only [BitVec.getLsbD_setWidth]
    grind
  simp [makeCommitEvent, Exec.counted, hx, hs, masked_rd, hlt, hw]

/-- Without an exception the flag of the emulator says whether there is a write. -/
theorem writesBack_write {ef : Rv32e.Effect} {ok : Prop} (hany : Rv32e.decodeAny inst = some instr)
    (hout : Rv32e.Outcome ef instr.dest ok) (hok : ok)
    (hx : (ef.access.isSome && ef.trap.isSome) = false) :
    writesBack inst = ef.write.isSome ∧
      ∀ rd v, ef.write = some (rd, v) → rd = Rv32e.rd inst := by
  obtain ⟨hwb, hrd⟩ := writesBack_dest hany
  by_cases hz : instr.dest = 0#5
  · have hno : writesBack inst = false := by
      rw [Bool.eq_false_iff]
      intro hw
      exact hwb.mp hw hz
    have hnone : ef.write = none := by
      rcases hout with ⟨-, v, hw⟩ | ⟨cause, -, hw, -⟩
      · rw [hw, hz, Rv32e.setReg, if_pos rfl]
      · exact hw
    rw [hno, hnone]
    exact ⟨rfl, by simp⟩
  · rcases hout with ⟨-, v, hw⟩ | ⟨cause, htr, -, hal⟩
    · rw [hw, Rv32e.setReg, if_neg hz, hwb.mpr hz]
      refine ⟨rfl, ?_⟩
      intro rd w he
      cases he
      exact hrd hz
    · rw [htr] at hx
      exact absurd ((hal hok).2 (by simpa using hx)) hz

/-- The two events of one instruction pass the comparison. -/
theorem events_accepted {e : Exec} (hrun : m.state = .running) (hv : s.csr.mtvec ≠ 0#32)
    (hret : Retiring s i m.cpu.pc inst) (hd : Rv32e.decode inst = some instr)
    (hi : Rv32e.Common instr) (ht : Rv32e.TargetsAligned m.cpu.gpr m.cpu.pc instr)
    (heff : ∀ k, { (retireEffect s i).toIsa with csrs := k } =
      { tableEffect m s i instr with csrs := k })
    (hf : Follows cfg (fetched m mem inst) (tableEffect m s i instr) e)
    (hpc : e.m.cpu.pc = commitNextPc s i) (retire cycles : BitVec 64) :
    Accepted (makeCommitEvent e.counted e.m.cpu.pc) (makeEvent s i retire cycles) := by
  have hwrite : (retireEffect s i).write = (tableEffect m s i instr).write :=
    congrArg Rv32e.Effect.write (heff (cpuCsrs m.cpu))
  have htrap : (retireEffect s i).trap = (tableEffect m s i instr).trap :=
    congrArg Rv32e.Effect.trap (heff (cpuCsrs m.cpu))
  have hacc : (retireEffect s i).access.isSome = (tableEffect m s i instr).access.isSome := by
    have ha := congrArg (fun ef => ef.access.isSome) (heff (cpuCsrs m.cpu))
    simpa [Effect.toIsa] using ha
  have hexc : e.s.exception = commitException s i := by
    rw [hf.exception, hret.commitException_eq hv, hacc, htrap]
  have hwen : commitWen s i = (tableEffect m s i instr).write.isSome := by
    rw [hret.commitWen_eq, hwrite]
  have hout : Rv32e.Outcome (tableEffect m s i instr) instr.dest
    (Rv32e.TargetsAligned m.cpu.gpr m.cpu.pc instr) := Rv32e.exec_outcome hi.2.2.2
  have hpc' : e.s.pc = commitPc s := hf.pc.trans hret.pc_eq.symm
  have hinst : e.s.inst = inst := hf.inst
  have hinst' : e.s.inst = commitInst s := hinst.trans hret.inst_eq.symm
  cases hx : e.s.exception with
  | true =>
    rw [event_raised _ hx]
    have hnone : (tableEffect m s i instr).write = none := by
      have hc := hf.cause hx
      rcases hout with ⟨h, -⟩ | ⟨_, -, h, -⟩
      · rw [h] at hc
        cases hc
      · exact h
    refine ⟨hpc', hinst', hpc, hx.symm.trans hexc, ?_, ?_, by simp, by simp⟩
    · intro _
      exact (hret.commitCause_eq (htrap.trans (hf.cause hx))).symm
    · change false = commitWen s i
      rw [hwen, hnone]
      rfl
  | false =>
    have hstate : e.m.state ≠ .abort := by
      rw [hf.state]
      change m.state ≠ _
      rw [hrun]
      decide
    rw [event_plain _ hx hstate]
    obtain ⟨hwb, hrd⟩ :=
      writesBack_write (Rv32e.decodeAny_of_decode hd) hout ht (hf.exception.symm.trans hx)
    rw [hinst]
    refine ⟨hpc', hinst ▸ hinst', hpc, hx.symm.trans hexc, by simp, hwb.trans hwen.symm, ?_, ?_⟩
    · intro hw
      change writesBack inst = true at hw
      rw [hwb, Option.isSome_iff_exists] at hw
      obtain ⟨⟨rd, v⟩, hw⟩ := hw
      have hc := (commit_write (hwrite.trans hw)).1
      change (Rv32e.rd inst).setWidth 8 = (commitRd s).setWidth 8
      rw [hc, hrd rd v hw]
    · intro hw
      change writesBack inst = true at hw
      change (if writesBack inst then e.m.cpu.gpr (Rv32e.rd inst) else 0#32) = commitWdata s i
      rw [if_pos hw]
      rw [hwb, Option.isSome_iff_exists] at hw
      obtain ⟨⟨rd, v⟩, hw⟩ := hw
      rw [(commit_write (hwrite.trans hw)).2, hf.gpr, hw, ← hrd rd v hw]
      exact Function.update_self rd v m.cpu.gpr

/-- From the same architectural state, one instruction of the emulator and one
retirement of the core have the same next pc, register write, stored bytes and
commit event; the CSRs agree exactly outside the corner of `KeepsLowBits`. -/
theorem dut_ref_agree (hag : Agree m s) (hrun : m.state = .running)
    (hpc : m.cpu.pc.toNat % 4 = 0) (hv : m.cpu.mtvec ≠ 0#32)
    (hret : Retiring s i m.cpu.pc inst) (hl : Npc.Core.decodeLegal inst = true)
    (hd : Rv32e.decode inst = some instr) (hi : Rv32e.Common instr)
    (hok : vaddrAccessOk cfg m.cpu.pc 4 = true)
    (hfetch : vaddrIfetch cfg m.mem m.cpu.pc 4 = .ok (inst, mem))
    (ht : Rv32e.TargetsAligned m.cpu.gpr m.cpu.pc instr)
    (hs : SeesAnswer cfg mem m.cpu.gpr (answerOf (lsuRaw s i)) instr) :
    ∃ e, execOnce cfg m = .ok e ∧ SameStep cfg m mem s i e ∧
      (cpuCsrs e.m.cpu = csrsOf (clock s i).csr ↔
        ¬ KeepsLowBits inst (regsOf s.regs (Npc.Idu.rs1 inst)) s.csr) := by
  have h0 : m.cpu.gpr 0#5 = 0#32 := by
    rw [hag.gpr 0#5 (by decide), regsOf_zero]
  have hv' : s.csr.mtvec ≠ 0#32 := by
    have hm : m.cpu.mtvec = s.csr.mtvec := congrArg Rv32e.Csrs.mtvec hag.csrs
    rwa [← hm]
  obtain ⟨e, he, hnext, hf⟩ :=
    execOnce_follows h0 hv hok hfetch (Rv32e.decodeAny_of_decode hd) hi ht hs
  change Follows cfg (fetched m mem inst) (tableEffect m s i instr) e at hf
  obtain ⟨heff, hiff⟩ := core_effect hag hpc hret hl hd
  have hwrite : (retireEffect s i).write = (tableEffect m s i instr).write :=
    congrArg Rv32e.Effect.write (heff (cpuCsrs m.cpu))
  have htrap : (retireEffect s i).trap = (tableEffect m s i instr).trap :=
    congrArg Rv32e.Effect.trap (heff (cpuCsrs m.cpu))
  have hout : Rv32e.Outcome (tableEffect m s i instr) instr.dest
    (Rv32e.TargetsAligned m.cpu.gpr m.cpu.pc instr) := Rv32e.exec_outcome hi.2.2.2
  have hcommit : e.m.cpu.pc = commitNextPc s i := by
    have hno : (retireEffect s i).trap ≠ some 0#32 := by
      rw [htrap]
      intro hz
      rcases hout with ⟨h, -⟩ | ⟨cause, h, -, hal⟩
      · rw [hz] at h
        cases h
      · rw [hz] at h
        exact (hal ht).1 (Option.some.inj h).symm
    rw [hnext, hf.dnpc, hret.commitNextPc_eq hl hno hv']
    exact (congrArg Rv32e.Effect.nextPc (heff (cpuCsrs m.cpu))).symm
  have hgpr : e.m.cpu.gpr = writeGpr m.cpu.gpr (retireEffect s i).write := by
    rw [hwrite]
    exact hf.gpr
  refine ⟨e, he, ⟨hcommit, hgpr, ?_, ?_, ?_⟩, ?_⟩
  · intro r hr
    rw [hgpr, clock_regs_of_retire hret.ready]
    apply agree_write hag.gpr _ r hr
    intro rd v hw
    change (retireEffect s i).write = some (rd, v) at hw
    rw [hwrite] at hw
    obtain ⟨rfl, hz⟩ := hout.write_dest hw
    exact ⟨hz, Rv32e.decode_regs hd (Rv32e.dest_mem_regs hz)⟩
  · have hmem := hf.memory
    change MemoryFollows cfg mem { tableEffect m s i instr with csrs := cpuCsrs m.cpu }
      e.m.mem at hmem
    rw [← heff (cpuCsrs m.cpu)] at hmem
    exact hmem
  · intro retire cycles
    rw [commitEventCompare_iff]
    exact events_accepted hrun hv' hret hd hi ht heff hf hcommit retire cycles
  · rw [← hiff, hf.csrs, clock_csr_of_retire hret.ready hret.alone]
    constructor
    · intro hc
      have hk := heff (tableEffect m s i instr).csrs
      change _ = tableEffect m s i instr at hk
      rw [← hk, hc]
      rfl
    · intro hc
      exact (congrArg Rv32e.Effect.csrs hc).symm

end Step

/-! ## Setting and clearing CSR bits -/

/-- The emulator before `csrrs x1, mtvec, x2` in the mask ROM. -/
def csrSetMachine (x2 mtvec : BitVec 32) : Machine where
  cpu := ⟨fun r => if r = 2#5 then x2 else 0#32, 0x20000000#32, 0x1800#32, mtvec, 0#32, 0#32⟩
  mem := { blankMemory with host := fun _ k => (0x305120f3#32).extractLsb' (8 * k) 8 }
  state := .running
  haltPc := 0#32
  haltRet := 0#32

/-- The core with the same instruction in W. -/
def csrSetState (x2 mtvec : BitVec 32) : State :=
  { blank with
    xwValid := true
    xw := xStage (dStage ⟨0x20000000#32, 0x305120f3#32, false⟩ x2 0#32) ⟨mtvec, 0#32, 0#32⟩
    regs := Npc.RegFile.next Npc.RegFile.reset true 2#4 x2
    csr := ⟨mtvec, 0#32, 0#32⟩ }

def idleInput : Npc.Core.Input := ⟨false, 0#32, eager 0#32 false⟩

theorem reset_zero (r : BitVec 5) (_ : r < 16#5) : 0#32 = regsOf Npc.RegFile.reset r := by
  simp [regsOf, Npc.RegFile.rdata, Npc.RegFile.reset]

theorem csrSet_agree (x2 mtvec : BitVec 32) :
    Agree (csrSetMachine x2 mtvec) (csrSetState x2 mtvec) := by
  have hw : ∀ rd v, some (2#5, x2) = some (rd, v) → rd ≠ 0#5 ∧ rd < 16#5 := by
    rintro rd v ⟨⟩
    decide
  refine ⟨?_, rfl⟩
  intro r hr
  have h := agree_write reset_zero hw r hr
  rw [writeGpr, Function.update_apply] at h
  exact h

theorem csrSet_retiring (x2 mtvec : BitVec 32) :
    Retiring (csrSetState x2 mtvec) idleInput 0x20000000#32 0x305120f3#32 := by
  refine ⟨?_, rfl, rfl, ?_, ?_⟩
  · have hmem : wMemAccess true (csrSetState x2 mtvec).xw mtvec = false := Bool.and_false _
    rw [wRetireReady_iff]
    refine ⟨rfl, rfl, rfl, ?_⟩
    change wMemReady true (csrSetState x2 mtvec).xw mtvec _ = true
    rw [wMemReady, hmem]
    rfl
  · intro _ _
    have hr := rdata_next Npc.RegFile.reset true 2#4 2#4 x2
    rw [if_pos (by decide)] at hr
    exact hr.symm
  · intro h _
    exact absurd h (by decide)

theorem dut_ref_agree_csrrs :
    let m := csrSetMachine 8#32 0x80000100#32
    let s := csrSetState 8#32 0x80000100#32
    ∃ e, execOnce refConfig m = .ok e ∧ SameStep refConfig m m.mem s idleInput e ∧
      (cpuCsrs e.m.cpu = csrsOf (clock s idleInput).csr ↔
        ¬ KeepsLowBits 0x305120f3#32 (regsOf s.regs (Npc.Idu.rs1 0x305120f3#32)) s.csr) :=
  dut_ref_agree (csrSet_agree _ _) rfl (by decide) (by decide) (csrSet_retiring _ _) (by decide)
    (show Rv32e.decode 0x305120f3#32 = some (.csr .rs 0x305#12 1#5 2#5) by decide)
    (by simp [Rv32e.Common]) (by decide) rfl trivial trivial

/-- With `x2 = 0` and a misaligned `mtvec` the emulator clears its low bits and
the core does not. -/
theorem csr_set_zero_differs :
    let m := csrSetMachine 0#32 1#32
    let s := csrSetState 0#32 1#32
    Agree m s ∧ m.cpu.mtvec ≠ 0#32 ∧ m.cpu.pc.toNat % 4 = 0 ∧
      Retiring s idleInput m.cpu.pc 0x305120f3#32 ∧ decodeLegal 0x305120f3#32 = true ∧
      vaddrIfetch refConfig m.mem m.cpu.pc 4 = .ok (0x305120f3#32, m.mem) ∧
      (∃ e, execOnce refConfig m = .ok e ∧ e.m.cpu.mtvec = 0#32) ∧
      (clock s idleInput).csr.mtvec = 1#32 := by
  refine ⟨csrSet_agree _ _, by decide, by decide, csrSet_retiring _ _, by decide, rfl, ?_,
    by decide +kernel⟩
  have hd : Rv32e.decodeAny 0x305120f3#32 = some (.csr .rs 0x305#12 1#5 2#5) := by decide
  have hok : vaddrAccessOk refConfig (csrSetMachine 0#32 1#32).cpu.pc 4 = true := by decide
  have hans : SeesAnswer refConfig (csrSetMachine 0#32 1#32).mem (csrSetMachine 0#32 1#32).cpu.gpr
    ⟨false, fun _ => 0#8⟩ (.csr .rs 0x305#12 1#5 2#5) := trivial
  obtain ⟨e, he, -, hf⟩ :=
    execOnce_follows rfl (by decide) hok rfl hd (by simp [Rv32e.Common]) trivial hans
  exact ⟨e, he, congrArg Rv32e.Csrs.mtvec hf.csrs⟩

end Difftest
