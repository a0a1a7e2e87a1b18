import AiOsoc.Npc.Datapath
import AiOsoc.Npc.Sequential

/-!
# The commit outputs of a retirement

The `commit_*` outputs of the core against the effect of the instruction in W.
They say the same, except that a commit reports the target of a jump that traps.
-/

namespace Npc.Core

set_option autoImplicit false

/-- W retires the word `inst`, fetched without an error at `pc`, with operands
from the register file. -/
structure Retiring (s : State) (i : Input) (pc inst : BitVec 32) : Prop where
  ready : wRetireReady s i = true
  alone : s.dxValid = false
  executed : s.xw = xStage (dStage ⟨pc, inst, false⟩ s.xw.rs1Data s.xw.rs2Data) s.csr
  rs1Data : OperandOk (Idu.readsRs1 inst) (Idu.rs1 inst) s.xw.rs1Data s.regs
  rs2Data : OperandOk (Idu.readsRs2 inst) (Idu.rs2 inst) s.xw.rs2Data s.regs

/-- Every retirement of a run is one, unless the fetch had failed. -/
theorem retiring_of_reachable {s : State} {i : Input} (h : Reachable s)
    (hret : wRetireReady s i = true) (he : s.xw.instError = false) :
    Retiring s i s.xw.pc s.xw.inst := by
  obtain ⟨hx, hd, _⟩ := retire_valid h.occupancy hret
  have hf := h.inFlight
  have hexe := hf.xw_executed hx
  refine ⟨hret, hd, ?_, hf.xw_rs1 hx, hf.xw_rs2 hx⟩
  rw [XW.fd, he] at hexe
  exact hexe

section Commit
variable {s : State} {i : Input} {pc inst : BitVec 32}

/-- The effect of the retiring instruction. -/
def retireEffect (s : State) (i : Input) : Effect := effect s.xw s.csr (lsuRaw s i)

variable (h : Retiring s i pc inst)
include h

theorem Retiring.valid : s.xwValid = true := (wRetireReady_iff.mp h.ready).2.2.1

theorem Retiring.mem_ready : wMemReady true s.xw s.csr.mtvec (lsuRaw s i) = true := by
  have hm := (wRetireReady_iff.mp h.ready).2.2.2
  rwa [wMemReadyNow, h.valid] at hm

theorem Retiring.pc_eq : s.xw.pc = pc := congrArg XW.pc h.executed

theorem Retiring.inst_eq : s.xw.inst = inst := congrArg XW.inst h.executed

theorem Retiring.instError_eq : s.xw.instError = false := congrArg XW.instError h.executed

theorem Retiring.effect_eq : retireEffect s i =
    fdEffect ⟨pc, inst, false⟩ (regsOf s.regs (Idu.rs1 inst)) (regsOf s.regs (Idu.rs2 inst)) s.csr
      (lsuRaw s i) := by
  have heff : retireEffect s i =
      fdEffect ⟨pc, inst, false⟩ s.xw.rs1Data s.xw.rs2Data s.csr (lsuRaw s i) :=
    congrArg (fun w => effect w s.csr (lsuRaw s i)) h.executed
  rw [heff]
  apply fdEffect_congr
  · rw [← h.executed]
    exact h.mem_ready
  · intro hl hreads
    exact h.rs1Data hreads (decodeLegal_rs1 hl hreads)
  · intro hl hreads
    exact h.rs2Data hreads (decodeLegal_rs2 hl hreads)

omit h in
theorem wMemReady_eq (w : XW) (c : Csr) (lsu : BusResp) :
    wMemReady true w c.mtvec lsu = (!(effect w c lsu).access.isSome || lsu.ready) := by
  unfold wMemReady effect
  cases wMemAccess true w c.mtvec <;> rfl

/-- The access is answered also when the operands are read from the register file. -/
theorem Retiring.operands_ready : wMemReady true (xStage (dStage ⟨pc, inst, false⟩
    (regsOf s.regs (Idu.rs1 inst)) (regsOf s.regs (Idu.rs2 inst))) s.csr) s.csr.mtvec
      (lsuRaw s i) = true := by
  have hm := h.mem_ready
  rw [wMemReady_eq] at hm ⊢
  rw [← hm]
  exact congrArg (fun ef : Effect => !ef.access.isSome || (lsuRaw s i).ready) h.effect_eq.symm

theorem Retiring.commitWen_eq : commitWen s i = (retireEffect s i).write.isSome := by
  rw [commitWen, wWbWenNow, h.valid]
  simp only [retireEffect, effect]
  split <;> simp_all

omit h in
theorem commit_write {rd : BitVec 5} {v : BitVec 32}
    (hw : (retireEffect s i).write = some (rd, v)) : commitRd s = rd ∧ commitWdata s i = v := by
  simp only [retireEffect, effect] at hw
  split at hw
  · cases hw
    exact ⟨rfl, rfl⟩
  · cases hw

theorem Retiring.commitCause_eq {cause : BitVec 32} (ht : (retireEffect s i).trap = some cause) :
    commitCause s i = cause := by
  rw [commitCause, h.valid]
  simp only [retireEffect, effect] at ht
  split at ht
  · simpa using ht
  · cases ht

/-- With a vector, the exceptions that a commit reports are the access faults. -/
theorem Retiring.commitException_eq (hv : s.csr.mtvec ≠ 0#32) : commitException s i =
    ((retireEffect s i).access.isSome && (retireEffect s i).trap.isSome) := by
  have hbad : wBadWithoutVectorNow s i = false := by
    simp [wBadWithoutVectorNow, wBadWithoutVector, hv]
  rw [commitException, hbad, h.instError_eq, h.valid]
  simp only [retireEffect, effect, Bool.false_or]
  cases ha : wMemAccess true s.xw s.csr.mtvec with
  | false => simp [wMemAccessFault, ha]
  | true =>
    -- an access is only started when nothing else asks for a trap
    have hb : wBaseTrapRequest s.xw = false := by
      simp only [wMemAccess, wCanCompleteNoMemFault, Bool.and_eq_true, Bool.not_eq_true'] at ha
      simpa [hv] using ha.1.2
    simp only [wTrapRequest, hb, Bool.false_or]
    cases wMemAccessFault true s.xw s.csr.mtvec (lsuRaw s i) <;> rfl

/-- A redirect taken in X is only overruled by a misaligned target. -/
theorem Retiring.redirect_trap (hl : decodeLegal inst = true) (hr : s.xw.redirect = true)
    {cause : BitVec 32} (ht : (retireEffect s i).trap = some cause) : cause = 0#32 := by
  have hq := redirect_quiet ⟨pc, inst, false⟩ s.xw.rs1Data s.xw.rs2Data
    ((congrArg XW.redirect h.executed).symm.trans hr)
  have hren : s.xw.memRen = false := (congrArg XW.memRen h.executed).trans hq.1
  have hwen : s.xw.memWen = false := (congrArg XW.memWen h.executed).trans hq.2.1
  have hec : s.xw.isEcall = false := (congrArg XW.isEcall h.executed).trans hq.2.2.1
  have heb : s.xw.isEbreak = false := (congrArg XW.isEbreak h.executed).trans hq.2.2.2
  have hleg : s.xw.decodeLegal = true := (congrArg XW.decodeLegal h.executed).trans hl
  have hmis : s.xw.memMisaligned = false := by
    refine (congrArg XW.memMisaligned h.executed).trans ?_
    change xMemMisaligned _ = false
    rw [xMemMisaligned, hq.1, hq.2.1]
    rfl
  simp only [retireEffect, effect] at ht
  split at ht
  · rename_i hreq
    have hp : s.xw.pcException = true := by
      simpa [wTrapRequest, wBaseTrapRequest, wMemAccessFault, wMemAccess, h.instError_eq, hleg,
        hmis, hren, hwen, hec, heb] using hreq
    have hc : wExceptionCause true s.xw s.csr.mtvec (lsuRaw s i) = 0#32 := by
      simp [wExceptionCause, h.instError_eq, hleg, hp, Exc.instAddrMisaligned]
    rw [hc] at ht
    exact (Option.some.inj ht).symm
  · cases ht

theorem Retiring.commitNextPc_eq (hl : decodeLegal inst = true)
    (ht : (retireEffect s i).trap ≠ some 0#32) (hv : s.csr.mtvec ≠ 0#32) :
    commitNextPc s i = (retireEffect s i).nextPc := by
  have hbad : wBadWithoutVector true s.xw s.csr.mtvec (lsuRaw s i) = false := by
    simp [wBadWithoutVector, hv]
  rw [commitNextPc, wNextPcNow, h.valid]
  simp only [retireEffect, effect, wNextPc, wContinues, hbad]
  cases hp : wPreciseTrap true s.xw s.csr.mtvec (lsuRaw s i) with
  | false => simp
  | true =>
    have hreq : wTrapRequest true s.xw s.csr.mtvec (lsuRaw s i) = true := by
      simp only [wPreciseTrap, Bool.and_eq_true] at hp
      exact hp.1
    have hno : s.xw.redirect = false := by
      by_contra hr
      have hsome : (retireEffect s i).trap =
          some (wExceptionCause true s.xw s.csr.mtvec (lsuRaw s i)) := by
        simp [retireEffect, effect, hreq]
      have hz := h.redirect_trap hl (by simpa using hr) hsome
      rw [hz] at hsome
      exact ht hsome
    simp [hno]

end Commit

end Npc.Core
