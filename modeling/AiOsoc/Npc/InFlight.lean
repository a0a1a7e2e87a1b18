import AiOsoc.Npc.Effect
import AiOsoc.Npc.Occupancy

/-!
# Instructions in flight

What the boundary registers hold about the instructions in flight: the pcs form
a path, the D/X and X/W registers are those computed by the D and X stages, and
every operand an instruction reads is the value the register file will have when
the instruction is the next one to retire.
-/

namespace Npc.Core

set_option autoImplicit false

/-- `v` is the value of the source register `field` in `regs`, if it is read and
is one of the sixteen. -/
def OperandOk (reads : Bool) (field : BitVec 5) (v : BitVec 32) (regs : RegFile) : Prop :=
  reads = true → field.getLsbD 4 = false → v = RegFile.rdata regs (field.extractLsb' 0 4)

/-- The fetched word an X/W or D/X register set belongs to. -/
def XW.fd (w : XW) : FD := ⟨w.pc, w.inst, w.instError⟩
def DX.fd (x : DX) : FD := ⟨x.pc, x.inst, x.instError⟩

@[simp] theorem dStage_fd (fd : FD) (r1 r2 : BitVec 32) : (dStage fd r1 r2).fd = fd := rfl

@[simp] theorem xStage_fd (x : DX) (c : Csr) : (xStage x c).fd = x.fd := rfl

structure InFlight (s : State) : Prop where
  fd_pc : s.fdValid = true → s.fPc = s.fd.pc + 4#32
  dx_pc : s.dxValid = true → s.fPc = s.dx.pc + 4#32
  dx_decoded : s.dxValid = true → s.dx = dStage s.dx.fd s.dx.rs1Data s.dx.rs2Data
  dx_rs1 : s.dxValid = true →
    OperandOk (Idu.readsRs1 s.dx.inst) (Idu.rs1 s.dx.inst) s.dx.rs1Data s.regs
  dx_rs2 : s.dxValid = true →
    OperandOk (Idu.readsRs2 s.dx.inst) (Idu.rs2 s.dx.inst) s.dx.rs2Data s.regs
  xw_executed : s.xwValid = true →
    s.xw = xStage (dStage s.xw.fd s.xw.rs1Data s.xw.rs2Data) s.csr
  xw_rs1 : s.xwValid = true →
    OperandOk (Idu.readsRs1 s.xw.inst) (Idu.rs1 s.xw.inst) s.xw.rs1Data s.regs
  xw_rs2 : s.xwValid = true →
    OperandOk (Idu.readsRs2 s.xw.inst) (Idu.rs2 s.xw.inst) s.xw.rs2Data s.regs
  xw_next : s.xwValid = true →
    (if s.fdValid then s.fd.pc else s.fPc) =
      if s.xw.redirect then s.xw.redirectPc else s.xw.pc + 4#32

section Quiet
variable {s : State} {i : Input}

/-- Without a retirement nothing is written back: a pending load is not ready. -/
theorem wWbWenNow_of_not_retire (hr : i.reset = false) (h : Occupancy s)
    (hn : wRetireReady s i = false) : wWbWenNow s i = false := by
  rw [h.wRetireReady_eq hr] at hn
  cases hx : s.xwValid with
  | false =>
    simp [wWbWenNow, wWbWen, wCompleteInst, wCanCompleteNoMemFault, hx]
  | true =>
    simp only [hx, Bool.true_and] at hn
    rw [wMemReadyNow, hx] at hn
    simp [wWbWenNow, wWbWen, hx, hn]

theorem clock_regs_of_not_retire (hr : i.reset = false) (h : Occupancy s)
    (hn : wRetireReady s i = false) : (clock s i).regs = s.regs := by
  rw [clock_regs, wWbWenNow_of_not_retire hr h hn]
  simp [RegFile.next]

theorem clock_csr_of_not_retire (hn : wRetireReady s i = false) : (clock s i).csr = s.csr := by
  simp [Csr.next, csrPort, hn]

theorem not_retire_of_xw_empty (hx : s.xwValid = false) : wRetireReady s i = false := by
  simp [wRetireReady, hx]

theorem no_wRedirect (hn : wRetireReady s i = false) : wRedirect s i = false := by
  simp [wRedirect, hn]

theorem no_xRedirect (hd : s.dxValid = false) : xRedirect s = false := by
  simp [xRedirect, hd]

/-- A valid F/D register set keeps the fetch from being captured. -/
theorem Occupancy.capture_blocked (h : Occupancy s) (hv : s.fdValid = true) :
    capture s i = false := by
  cases hc : capture s i with
  | false => rfl
  | true =>
    rw [h.ready_fd_empty (capture_ready hc)] at hv
    exact absurd hv (by decide)

/-- A valid X/W register set after the edge comes from X, or it stalls. -/
theorem Occupancy.next_xw_cases (h : Occupancy s) (hr : i.reset = false)
    (hv : (Core.clock s i).xwValid = true) :
    (s.dxValid = true ∧ s.xwValid = false ∧ s.fdValid = false ∧
      (Core.clock s i).xw = xStage s.dx s.csr) ∨
    (s.dxValid = false ∧ s.xwValid = true ∧ wRetireReady s i = false ∧ wStageStall s i = true ∧
      (Core.clock s i).xw = s.xw) := by
  rw [h.next_xwValid hr] at hv
  rw [h.next_xw]
  cases hd : s.dxValid with
  | true =>
    have hfd : s.fdValid = false := by
      by_contra hfd
      rw [h.fd_dx (by simpa using hfd)] at hd
      exact absurd hd (by decide)
    exact Or.inl ⟨rfl, h.dx_xw hd, hfd, by simp⟩
  | false =>
    simp only [hd, Bool.false_or, Bool.and_eq_true, Bool.not_eq_true'] at hv
    refine Or.inr ⟨rfl, hv.1, ?_, ?_, by simp⟩
    · simp [wRetireReady, hv]
    · simp [wStageStall, hv]

end Quiet

section Forward
variable {s : State} {i : Input}

theorem rdata_next (regs : RegFile) (wen : Bool) (waddr a : BitVec 4) (v : BitVec 32) :
    RegFile.rdata (RegFile.next regs wen waddr v) a =
      if wen = true ∧ waddr ≠ 0#4 ∧ a = waddr then v else RegFile.rdata regs a := by
  unfold RegFile.rdata RegFile.next
  by_cases hw : (wen && waddr != 0#4) = true
  · rw [if_pos hw]
    simp only [Bool.and_eq_true, bne_iff_ne] at hw
    by_cases ha : a = waddr
    · subst ha
      simp [hw]
    · simp [ha]
  · rw [if_neg hw]
    simp only [Bool.and_eq_true, bne_iff_ne] at hw
    have hn : ¬ (wen = true ∧ waddr ≠ 0#4 ∧ a = waddr) := fun hc => hw ⟨hc.1, hc.2.1⟩
    rw [if_neg hn]

/-- Two register numbers below sixteen agree if their low four bits do. -/
theorem reg_eq_of_low {a b : BitVec 5} (ha : a.getLsbD 4 = false) (hb : b.getLsbD 4 = false) :
    a = b ↔ a.extractLsb' 0 4 = b.extractLsb' 0 4 := by
  constructor
  · intro hab
    rw [hab]
  · revert a b
    decide +kernel

theorem InFlight.xw_legal (hf : InFlight s) (hx : s.xwValid = true) :
    s.xw.decodeLegal = decodeLegal s.xw.inst :=
  congrArg XW.decodeLegal (hf.xw_executed hx)

/-- A register written back is one of x1..x15, because the instruction is legal. -/
theorem InFlight.wb_rd (hf : InFlight s) (hx : s.xwValid = true) (hw : wWbWenNow s i = true) :
    s.xw.rd.getLsbD 4 = false ∧ s.xw.rd ≠ 0#5 := by
  have hrd : s.xw.rd = Idu.rd s.xw.inst := congrArg XW.rd (hf.xw_executed hx)
  have hwr : s.xw.writesRd = Idu.writesRd s.xw.inst := congrArg XW.writesRd (hf.xw_executed hx)
  simp only [wWbWenNow, wWbWen, wCompleteInst, wCanCompleteNoMemFault, Bool.and_eq_true,
    Bool.not_eq_true', bne_iff_ne] at hw
  have hl : decodeLegal s.xw.inst = true := by
    rw [← hf.xw_legal hx]
    exact hw.1.1.1.1.1.1.1.1.1.2
  rw [hwr] at hw
  rw [hrd]
  exact ⟨decodeLegal_rd hl hw.1.1.2, hrd ▸ hw.1.2⟩

/-- The bypass from W to D: the operand captured on this edge is the value the
register file holds after it. -/
theorem InFlight.forwarded (hf : InFlight s) (h : Occupancy s) (hr : i.reset = false)
    (reads : Bool) (field : BitVec 5) :
    OperandOk reads field
      (if wCanForward s i && (reads && s.xw.rd == field) then wbData s i
        else RegFile.rdata s.regs (field.extractLsb' 0 4)) (clock s i).regs := by
  intro hreads hbit
  rw [clock_regs, rdata_next]
  cases hw : wWbWenNow s i with
  | false => simp [wCanForward, hw]
  | true =>
    have hx : s.xwValid = true := by
      by_contra hx
      rw [Bool.not_eq_true] at hx
      rw [wWbWenNow_of_not_retire hr h (not_retire_of_xw_empty hx)] at hw
      exact absurd hw (by decide)
    obtain ⟨hb, hne⟩ := hf.wb_rd hx hw
    have hlow : s.xw.rd.extractLsb' 0 4 ≠ 0#4 := by
      intro h0
      exact hne ((reg_eq_of_low hb (by decide)).mpr h0)
    have hmatch : s.xw.rd = field ↔ field.extractLsb' 0 4 = s.xw.rd.extractLsb' 0 4 := by
      rw [reg_eq_of_low hb hbit, eq_comm]
    by_cases he : s.xw.rd = field
    · subst he
      simp [wCanForward, hw, hx, hr, h.xw_running hx, hreads, hlow]
    · have hn : ¬ field.extractLsb' 0 4 = s.xw.rd.extractLsb' 0 4 := fun hc => he (hmatch.mpr hc)
      simp [hn, he]

end Forward

section Preserved
variable {s : State} {i : Input} (hf : InFlight s) (h : Occupancy s) (hr : i.reset = false)
include hf h

theorem InFlight.next_fd_pc (hv : (clock s i).fdValid = true) :
    (clock s i).fPc = (clock s i).fd.pc + 4#32 := by
  rw [h.next_fdValid, Bool.or_eq_true] at hv
  rw [h.next_fPc, h.next_fd]
  rcases hv with hc | hst
  · have hred : redirect s i = false := by
      simp only [capture, Bool.and_eq_true, Bool.not_eq_true'] at hc
      exact hc.2
    simp only [redirect, Bool.or_eq_false_iff] at hred
    simp [hc, hred]
  · simp only [Bool.and_eq_true, Bool.not_eq_true', redirect, Bool.or_eq_false_iff] at hst
    simp [h.capture_blocked hst.1.1, hst.2, hf.fd_pc hst.1.1]

theorem InFlight.next_dx_pc (hv : (clock s i).dxValid = true) :
    (clock s i).fPc = (clock s i).dx.pc + 4#32 := by
  rw [h.next_dxValid] at hv
  rw [h.next_fPc, h.next_dx, hv]
  simp only [Bool.and_eq_true, Bool.not_eq_true'] at hv
  have hx := no_xRedirect (h.fd_dx hv.1.1)
  simp [h.capture_blocked hv.1.1, hx, hv.2, hf.fd_pc hv.1.1, dStage]

theorem InFlight.clock (hr : i.reset = false) : InFlight (clock s i) where
  fd_pc := hf.next_fd_pc h
  dx_pc := hf.next_dx_pc h
  dx_decoded := by
    intro hv
    rw [h.next_dxValid] at hv
    rw [h.next_dx, hv]
    rfl
  dx_rs1 := by
    intro hv
    rw [h.next_dxValid] at hv
    rw [h.next_dx, hv]
    exact hf.forwarded h hr (Idu.readsRs1 s.fd.inst) (Idu.rs1 s.fd.inst)
  dx_rs2 := by
    intro hv
    rw [h.next_dxValid] at hv
    rw [h.next_dx, hv]
    exact hf.forwarded h hr (Idu.readsRs2 s.fd.inst) (Idu.rs2 s.fd.inst)
  xw_executed := by
    intro hv
    rcases h.next_xw_cases hr hv with ⟨hd, hx, _, hxw⟩ | ⟨_, hx, hn, _, hxw⟩
    · rw [hxw, clock_csr_of_not_retire (not_retire_of_xw_empty hx)]
      exact congrArg (fun x => xStage x s.csr) (hf.dx_decoded hd)
    · rw [hxw, clock_csr_of_not_retire hn]
      exact hf.xw_executed hx
  xw_rs1 := by
    intro hv
    rcases h.next_xw_cases hr hv with ⟨hd, hx, _, hxw⟩ | ⟨_, hx, hn, _, hxw⟩
    · rw [hxw, clock_regs_of_not_retire hr h (not_retire_of_xw_empty hx)]
      exact hf.dx_rs1 hd
    · rw [hxw, clock_regs_of_not_retire hr h hn]
      exact hf.xw_rs1 hx
  xw_rs2 := by
    intro hv
    rcases h.next_xw_cases hr hv with ⟨hd, hx, _, hxw⟩ | ⟨_, hx, hn, _, hxw⟩
    · rw [hxw, clock_regs_of_not_retire hr h (not_retire_of_xw_empty hx)]
      exact hf.dx_rs2 hd
    · rw [hxw, clock_regs_of_not_retire hr h hn]
      exact hf.xw_rs2 hx
  xw_next := by
    intro hv
    rw [h.next_fdValid, h.next_fd, h.next_fPc]
    rcases h.next_xw_cases hr hv with ⟨hd, hx, hfd, hxw⟩ | ⟨hd, hx, hn, hst, hxw⟩
    · have hw : wRedirect s i = false := no_wRedirect (not_retire_of_xw_empty hx)
      have hpc := hf.dx_pc hd
      have hred : xRedirect s = xTakes s.dx := by simp [xRedirect, hd]
      rw [hxw]
      cases ht : xTakes s.dx with
      | true => simp [capture, redirect, hred, hw, ht, hfd, xStage]
      | false =>
        cases hc : capture s i <;> simp [hfd, hw, hred, ht, hpc, xStage]
    · have hw : wRedirect s i = false := no_wRedirect hn
      have hxr : xRedirect s = false := no_xRedirect hd
      have hold := hf.xw_next hx
      rw [hxw, ← hold]
      cases hc : capture s i with
      | true => simp [h.ready_fd_empty (capture_ready hc)]
      | false => simp [redirect, hw, hxr, hst]

end Preserved

theorem inFlight_reset (s : State) (i : Input) : InFlight (resetEdge s i) := by
  constructor <;> intro hv <;> exact absurd hv (by simp [resetEdge])

theorem Reachable.inFlight {s : State} (h : Reachable s) : InFlight s :=
  h.invariant inFlight_reset (fun _ _ hr hs ih => ih.clock hs.occupancy hr)

theorem Run.inFlight (r : Run) (n : Nat) : InFlight (r.state n) := (r.reachable n).inFlight

end Npc.Core
