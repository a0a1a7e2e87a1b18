import AiOsoc.Npc.InFlight

/-!
# The pipeline against the sequential machine

The sequential machine executes one instruction at a time with the D, X and W
functions of the core. Its instruction words and bus answers come from outside;
everything else it computes from its own pc, registers and CSRs. The retirements
of a run of the core are an execution of it.
-/

namespace Npc.Core

set_option autoImplicit false

/-- The architectural state. -/
structure Arch where
  pc : BitVec 32
  regs : RegFile
  csr : Csr
  halted : Bool

def Arch.boot (resetPc : BitVec 32) : Arch := ⟨resetVector resetPc, RegFile.reset, Csr.reset, false⟩

def applyWrite (regs : RegFile) : Option (BitVec 5 × BitVec 32) → RegFile
  | none => regs
  | some (rd, v) => RegFile.next regs true (rd.extractLsb' 0 4) v

/-- One instruction: the word `inst` with its fetch error at the current pc. -/
def Arch.exec (a : Arch) (inst : BitVec 32) (instError : Bool) (lsu : BusResp) : Arch :=
  let e := fdEffect ⟨a.pc, inst, instError⟩
    (RegFile.rdata a.regs ((Idu.rs1 inst).extractLsb' 0 4))
    (RegFile.rdata a.regs ((Idu.rs2 inst).extractLsb' 0 4)) a.csr lsu
  ⟨e.nextPc, applyWrite a.regs e.write, e.csr, e.halts⟩

/-- What W retires in one cycle: the X/W registers, the vector and the answer of
the LSU port. -/
structure Retirement where
  xw : XW
  mtvec : BitVec 32
  lsu : BusResp

/-- The sequential machine makes the retirement `e`: the pc, the operands and the
CSR values carried down the pipeline are its own. -/
structure Retires (a : Arch) (e : Retirement) (b : Arch) : Prop where
  running : a.halted = false
  pc : e.xw.pc = a.pc
  rs1Data : OperandOk (Idu.readsRs1 e.xw.inst) (Idu.rs1 e.xw.inst) e.xw.rs1Data a.regs
  rs2Data : OperandOk (Idu.readsRs2 e.xw.inst) (Idu.rs2 e.xw.inst) e.xw.rs2Data a.regs
  csrRdata : e.xw.csrRdata = a.csr.csrOld (Idu.csrAddr e.xw.inst)
  mepc : e.xw.isMret = true → e.xw.redirectPc = a.csr.mepc
  mtvec : e.mtvec = a.csr.mtvec
  result : b = a.exec e.xw.inst e.xw.instError e.lsu

/-- The architectural state of the core: the pc is that of the oldest instruction
that has not retired. -/
def arch (s : State) : Arch := ⟨debugPc s, s.regs, s.csr, s.halted⟩

theorem clock_regs_of_retire {s : State} {i : Input} (hret : wRetireReady s i = true) :
    (clock s i).regs = applyWrite s.regs (effect s.xw s.csr (lsuRaw s i)).write := by
  obtain ⟨hr, hh, hx, _⟩ := wRetireReady_iff.mp hret
  rw [clock_regs]
  cases hw : wWbWen true s.xw s.csr.mtvec (lsuRaw s i) <;>
    simp [effect, hw, wWbWenNow, hx, hr, hh, applyWrite, wbData, RegFile.next]

theorem clock_csr_of_retire {s : State} {i : Input} (hret : wRetireReady s i = true)
    (hd : s.dxValid = false) : (clock s i).csr = (effect s.xw s.csr (lsuRaw s i)).csr := by
  obtain ⟨_, _, hx, _⟩ := wRetireReady_iff.mp hret
  rw [clock_csr]
  simp [effect, csrPort, wCsrPort, hd, hret, wCompleteInstNow, wPreciseTrapNow, hx]

section Step
variable {s : State} {i : Input} (h : Occupancy s) (hr : i.reset = false)
include h hr

theorem arch_of_not_retire (hn : wRetireReady s i = false) : arch (clock s i) = arch s := by
  have hhalt : (clock s i).halted = s.halted := by
    rw [clock_halted]
    simp [hn]
  have hpc : debugPc (clock s i) = debugPc s := by
    have hw : wRedirect s i = false := no_wRedirect hn
    unfold debugPc
    cases hx : s.xwValid with
    | true =>
      have hd := h.dx_empty_of_xw hx
      have hm : wMemReadyNow s i = false := by
        rw [h.wRetireReady_eq hr, hx] at hn
        simpa using hn
      simp [h.next_xwValid hr, h.next_xw, hx, hd, hm]
    | false =>
      have hst : wStageStall s i = false := by simp [wStageStall, hx]
      cases hd : s.dxValid with
      | true => simp [h.next_xwValid hr, h.next_xw, hd, xStage]
      | false =>
        have hxr : xRedirect s = false := no_xRedirect hd
        cases hv : s.fdValid with
        | true =>
          simp [h.next_xwValid hr, h.next_dxValid, h.next_dx, hx, hd, hv, hst, hw, dStage]
        | false =>
          cases hc : capture s i <;>
            simp [h.next_xwValid hr, h.next_dxValid, h.next_fdValid, h.next_fd, h.next_fPc, hx, hd,
              hv, hw, hxr, hc]
  simp only [arch, hhalt, hpc, clock_regs_of_not_retire hr h hn, clock_csr_of_not_retire hn]

variable (hf : InFlight s) (hret : wRetireReady s i = true)
include hret

omit hr in
theorem retire_valid : s.xwValid = true ∧ s.dxValid = false ∧ s.halted = false := by
  obtain ⟨_, hh, hx, _⟩ := wRetireReady_iff.mp hret
  exact ⟨hx, h.dx_empty_of_xw hx, hh⟩

include hf

theorem debugPc_of_retire :
    debugPc (clock s i) = wContinues s.xw s.csr.mtvec (lsuRaw s i) := by
  obtain ⟨_, _, hx, hm⟩ := wRetireReady_iff.mp hret
  have hd := h.dx_empty_of_xw hx
  have hxr : xRedirect s = false := no_xRedirect hd
  have hst : wStageStall s i = false := by simp [wStageStall, hm]
  cases hw : wRedirect s i with
  | true =>
    have hred : redirect s i = true := by simp [redirect, hw]
    have hpc : debugPc (clock s i) = wNextPcNow s i := by
      simp [debugPc, h.next_xwValid hr, h.next_dxValid, h.next_fdValid, h.next_fPc, capture, hd,
        hm, hw, hred]
    rw [hpc, wNextPcNow, wNextPc, wContinues, hx]
    simp only [wRedirect, hret, hx, Bool.true_and, wTakes, Bool.or_eq_true] at hw
    cases hp : wPreciseTrap true s.xw s.csr.mtvec (lsuRaw s i) with
    | true => simp
    | false =>
      cases hb : wBadWithoutVector true s.xw s.csr.mtvec (lsuRaw s i) with
      | true => simp
      | false =>
        simp only [hp, hb, Bool.false_eq_true, false_or, Bool.and_eq_true] at hw
        have hfi := hw.2
        have hno : s.xw.redirect = false := by
          rw [hf.xw_executed hx] at hfi ⊢
          exact fenceI_no_redirect s.xw.fd _ _ hfi
        simp [hno]
  | false =>
    have hnext := hf.xw_next hx
    have hpc : debugPc (clock s i) = if s.fdValid then s.fd.pc else s.fPc := by
      cases hv : s.fdValid with
      | true =>
        simp [debugPc, h.next_xwValid hr, h.next_dxValid, h.next_dx, hd, hm, hv, hst, hw, dStage]
      | false =>
        cases hc : capture s i <;>
          simp [debugPc, h.next_xwValid hr, h.next_dxValid, h.next_fdValid, h.next_fd, h.next_fPc,
            hd, hm, hv, hw, hxr, hc]
    simp only [wRedirect, hret, hx, Bool.true_and, wTakes, Bool.or_eq_false_iff] at hw
    rw [hpc, hnext, wContinues, hw.1.1, hw.1.2, wPcPlus4]
    simp

/-- The edge of a retirement has the effect of the instruction in W. -/
theorem arch_of_retire :
    arch (clock s i) =
      let e := effect s.xw s.csr (lsuRaw s i)
      ⟨e.nextPc, applyWrite s.regs e.write, e.csr, e.halts⟩ := by
  obtain ⟨hx, hd, hh⟩ := retire_valid h hret
  have hhalt : (clock s i).halted = (effect s.xw s.csr (lsuRaw s i)).halts := by
    rw [clock_halted]
    cases hb : wBadWithoutVector true s.xw s.csr.mtvec (lsuRaw s i) <;>
      simp [hh, hret, effect, wBadWithoutVectorNow, hx, hb]
  simp only [arch, debugPc_of_retire h hr hf hret, clock_regs_of_retire hret,
    clock_csr_of_retire hret hd, hhalt]
  rfl

omit h hr hret in
theorem InFlight.effect_eq (hx : s.xwValid = true) (lsu : BusResp)
    (hm : wMemReady true s.xw s.csr.mtvec lsu = true) :
    effect s.xw s.csr lsu =
      fdEffect s.xw.fd (RegFile.rdata s.regs ((Idu.rs1 s.xw.inst).extractLsb' 0 4))
        (RegFile.rdata s.regs ((Idu.rs2 s.xw.inst).extractLsb' 0 4)) s.csr lsu := by
  have hexe := hf.xw_executed hx
  have heff : effect s.xw s.csr lsu =
      fdEffect s.xw.fd s.xw.rs1Data s.xw.rs2Data s.csr lsu :=
    congrArg (fun w => effect w s.csr lsu) hexe
  rw [heff]
  apply fdEffect_congr
  · rw [← hexe]
    exact hm
  · intro hl hreads
    exact hf.xw_rs1 hx hreads (decodeLegal_rs1 hl hreads)
  · intro hl hreads
    exact hf.xw_rs2 hx hreads (decodeLegal_rs2 hl hreads)

theorem retires_of_retire :
    Retires (arch s) ⟨s.xw, s.csr.mtvec, lsuRaw s i⟩ (arch (clock s i)) := by
  obtain ⟨hx, _, hh⟩ := retire_valid h hret
  have hpc : debugPc s = s.xw.pc := by simp [debugPc, hx]
  have hm : wMemReady true s.xw s.csr.mtvec (lsuRaw s i) = true := by
    have hm := (wRetireReady_iff.mp hret).2.2.2
    rwa [wMemReadyNow, hx] at hm
  refine ⟨hh, hpc.symm, hf.xw_rs1 hx, hf.xw_rs2 hx, congrArg XW.csrRdata (hf.xw_executed hx), ?_,
    rfl, ?_⟩
  · intro hmret
    have hred : s.xw.redirectPc =
        xRedirectPc (dStage s.xw.fd s.xw.rs1Data s.xw.rs2Data) s.csr.mepc :=
      congrArg XW.redirectPc (hf.xw_executed hx)
    have hmret' : (dStage s.xw.fd s.xw.rs1Data s.xw.rs2Data).isMret = true :=
      (congrArg XW.isMret (hf.xw_executed hx)).symm.trans hmret
    rw [xRedirectPc, hmret'] at hred
    exact hred
  · rw [arch_of_retire h hr hf hret, hf.effect_eq hx _ hm]
    simp only [Arch.exec, arch, hpc]
    rfl

end Step

/-! ## Runs -/

/-- The instruction words held by the pipeline, oldest first. -/
def words (s : State) : List FD :=
  (if s.xwValid then [s.xw.fd] else []) ++ (if s.dxValid then [s.dx.fd] else []) ++
    (if s.fdValid then [s.fd] else [])

/-- One edge retires the oldest word and takes in at most one; a redirect from W
may lose the word in F/D. -/
theorem words_clock {s : State} {i : Input} (h : Occupancy s) (hr : i.reset = false) :
    ((if wRetireReady s i then [s.xw.fd] else []) ++ words (clock s i)).Sublist
      (words s ++ if capture s i then [⟨s.fPc, ifuInst s i, ifuInstError s i⟩] else []) := by
  unfold words
  rw [h.next_xwValid hr, h.next_xw, h.next_dxValid, h.next_dx, h.next_fdValid, h.next_fd]
  cases hx : s.xwValid with
  | true =>
    have hd := h.dx_empty_of_xw hx
    have hxr : xRedirect s = false := no_xRedirect hd
    rw [h.wRetireReady_eq hr, hx]
    cases hm : wMemReadyNow s i with
    | true =>
      cases hv : s.fdValid with
      | true =>
        cases hw : wRedirect s i <;> simp [hd, hm, h.capture_blocked hv, wStageStall]
      | false => cases hc : capture s i <;> simp [hd]
    | false =>
      have hw : wRedirect s i = false := by simp [wRedirect, wRetireReady, hm]
      cases hv : s.fdValid with
      | true => simp [hd, hx, hm, hw, hxr, h.capture_blocked hv, wStageStall, redirect]
      | false => cases hc : capture s i <;> simp [hd]
  | false =>
    have hn : wRetireReady s i = false := not_retire_of_xw_empty hx
    have hst : wStageStall s i = false := by simp [wStageStall, hx]
    have hw : wRedirect s i = false := no_wRedirect hn
    cases hd : s.dxValid with
    | true =>
      have hv : s.fdValid = false := by
        by_contra hv
        rw [h.fd_dx (by simpa using hv)] at hd
        exact absurd hd (by decide)
      cases hc : capture s i <;> simp [hn, hv]
    | false =>
      cases hv : s.fdValid with
      | true => simp [hn, hst, hw, h.capture_blocked hv]
      | false => cases hc : capture s i <;> simp [hn]

namespace Run
variable (r : Run)

/-- The retirement of cycle `n`, if there is one. -/
def retired (n : Nat) : List Retirement :=
  if wRetireReady (r.state n) (r.input n) then
    [⟨(r.state n).xw, (r.state n).csr.mtvec, lsuRaw (r.state n) (r.input n)⟩] else []

/-- The word captured into F/D in cycle `n`, if there is one. -/
def captured (n : Nat) : List FD :=
  if capture (r.state n) (r.input n) then
    [⟨(r.state n).fPc, ifuInst (r.state n) (r.input n), ifuInstError (r.state n) (r.input n)⟩]
  else []

theorem matched (n : Nat) :
    Clocked.Trace Retires (arch (r.state n)) (r.retired n) (arch (r.state (n + 1))) := by
  rw [r.state_succ]
  unfold retired
  split
  · rename_i hret
    exact .snoc (.nil _) (retires_of_retire (r.occupancy n) rfl (r.inFlight n) hret)
  · rename_i hn
    rw [arch_of_not_retire (r.occupancy n) rfl (by simpa using hn)]
    exact .nil _

theorem retired_sublist (n : Nat) :
    ((Clocked.log r.retired n).map (fun e => e.xw.fd) ++ words (r.state n)).Sublist
      (Clocked.log r.captured n) := by
  induction n with
  | zero => exact List.Sublist.refl []
  | succ n ih =>
    have hstep := words_clock (r.occupancy n) (i := r.input n) rfl
    have hret : (r.retired n).map (fun e => e.xw.fd) =
        if wRetireReady (r.state n) (r.input n) then [(r.state n).xw.fd] else [] := by
      unfold retired
      split <;> rfl
    rw [← hret] at hstep
    simp only [Clocked.log, List.map_append, List.append_assoc, r.state_succ]
    have hkeep :=
      (List.Sublist.refl ((Clocked.log r.retired n).map (fun e => e.xw.fd))).append hstep
    refine hkeep.trans ?_
    rw [← List.append_assoc]
    exact ih.append (List.Sublist.refl _)

/-- Pipelining is invisible: for every slave the retirements up to any cycle are
an execution of the sequential machine from the reset vector, on words captured
into F/D in this order, and nothing but a retirement changes a register. -/
theorem pipelining_invisible (n : Nat) :
    Clocked.Trace Retires (Arch.boot r.resetPc) (Clocked.log r.retired n) (arch (r.state n)) ∧
    ((Clocked.log r.retired n).map (fun e => e.xw.fd)).Sublist (Clocked.log r.captured n) ∧
    (wRetireReady (r.state n) (r.input n) = false →
      (r.state (n + 1)).regs = (r.state n).regs ∧ (r.state (n + 1)).csr = (r.state n).csr) := by
  refine ⟨Clocked.simulation (fun n => arch (r.state n)) r.matched n, ?_, ?_⟩
  · exact (List.sublist_append_left _ _).trans (r.retired_sublist n)
  · intro hn
    have harch := arch_of_not_retire (r.occupancy n) (i := r.input n) rfl hn
    exact ⟨congrArg Arch.regs harch, congrArg Arch.csr harch⟩

/-- `addi x1, x0, 5` followed by a `lui x2` whose immediate has a 1 where other
formats have `rs1`. -/
def staleRun : Run := ⟨blank, 0#32, fun n =>
  if n = 3 then eager 0x00500093#32 false
  else if n = 4 then eager 0x00008137#32 false
  else eager 0x00000013#32 (n = 6)⟩

/-- The bypass looks at the registers the instruction reads only: the `rs1` value
carried by the `lui` is that of x1 before the `addi`. -/
theorem unread_operand_stale :
    wRetireReady (staleRun.state 11) (staleRun.input 11) = true ∧
    (staleRun.state 11).xw.inst = 0x00008137#32 ∧
    (staleRun.state 11).xw.rs1Data ≠
      RegFile.rdata (staleRun.state 11).regs ((Idu.rs1 0x00008137#32).extractLsb' 0 4) := by
  decide +kernel

/-! ## The commit trace -/

/-- Two retirements with none between them. -/
structure Consecutive (t1 t2 : Nat) : Prop where
  lt : t1 < t2
  first : wRetireReady (r.state t1) (r.input t1) = true
  second : wRetireReady (r.state t2) (r.input t2) = true
  between : ∀ m, t1 < m → m < t2 → wRetireReady (r.state m) (r.input m) = false

variable {r} in
theorem Consecutive.arch_eq {t1 t2 : Nat} (hc : r.Consecutive t1 t2) :
    arch (r.state t2) = arch (r.state (t1 + 1)) := by
  refine Clocked.stays (P := fun m => arch (r.state m) = arch (r.state (t1 + 1)))
    (D := fun m => wRetireReady (r.state m) (r.input m) = true) hc.lt rfl ?_ ?_
  · intro m hm hlt
    rw [hc.between m hm hlt]
    decide
  · intro m hP hn
    rw [← hP, r.state_succ]
    exact arch_of_not_retire (r.occupancy m) rfl (by simpa using hn)

/-- A commit reports the pc of the next one unless it both redirected in X and
traps in W, to a vector that is not its target. -/
theorem commit_path_iff {t1 t2 : Nat} (hc : r.Consecutive t1 t2) :
    commitPc (r.state t2) = commitNextPc (r.state t1) (r.input t1) ↔
      ¬ ((r.state t1).xw.redirect = true ∧ wPreciseTrapNow (r.state t1) (r.input t1) = true ∧
        (r.state t1).xw.redirectPc ≠ (r.state t1).csr.mtvec) := by
  obtain ⟨hx1, _, _⟩ := retire_valid (r.occupancy t1) hc.first
  obtain ⟨hx2, _, hh2⟩ := retire_valid (r.occupancy t2) hc.second
  have harch : arch (r.state t2) = arch (clock (r.state t1) (r.input t1)) := hc.arch_eq
  have hret := arch_of_retire (r.occupancy t1) rfl (r.inFlight t1) hc.first
  have hpc : commitPc (r.state t2) =
      wContinues (r.state t1).xw (r.state t1).csr.mtvec (lsuRaw (r.state t1) (r.input t1)) := by
    have hold : commitPc (r.state t2) = debugPc (r.state t2) := by simp [commitPc, debugPc, hx2]
    rw [hold]
    exact congrArg Arch.pc (harch.trans hret)
  have hgood : wBadWithoutVector true (r.state t1).xw (r.state t1).csr.mtvec
      (lsuRaw (r.state t1) (r.input t1)) = false :=
    (congrArg Arch.halted (harch.trans hret)).symm.trans hh2
  rw [hpc, commitNextPc, wNextPcNow, wNextPc, wPreciseTrapNow, wContinues, hx1, hgood]
  cases hp : wPreciseTrap true (r.state t1).xw (r.state t1).csr.mtvec
    (lsuRaw (r.state t1) (r.input t1)) with
  | false => simp
  | true => cases hred : (r.state t1).xw.redirect <;> simp [eq_comm]

/-- `csrrwi x0, mtvec, 4` followed by a jump to a misaligned target. -/
def trapRun : Run := ⟨blank, 0#32, fun n =>
  if n = 3 then eager 0x30525073#32 false
  else if n = 4 then eager 0x0020006f#32 false
  else eager 0x00000013#32 (n = 6 || n = 18)⟩

theorem commit_path_csr_jump :
    trapRun.Consecutive 9 11 ∧
    (commitPc (trapRun.state 11) = commitNextPc (trapRun.state 9) (trapRun.input 9) ↔
      ¬ ((trapRun.state 9).xw.redirect = true ∧
        wPreciseTrapNow (trapRun.state 9) (trapRun.input 9) = true ∧
        (trapRun.state 9).xw.redirectPc ≠ (trapRun.state 9).csr.mtvec)) := by
  have hc : trapRun.Consecutive 9 11 := by
    refine ⟨by decide, by decide +kernel, by decide +kernel, ?_⟩
    intro m h1 h2
    obtain rfl : m = 10 := by omega
    decide +kernel
  exact ⟨hc, trapRun.commit_path_iff hc⟩

/-- The jump reports its misaligned target; the next commit is at the vector. -/
theorem commit_path_broken :
    trapRun.Consecutive 11 21 ∧
    commitNextPc (trapRun.state 11) (trapRun.input 11) = 0x20000006#32 ∧
    commitPc (trapRun.state 21) = 0x00000004#32 := by
  refine ⟨⟨by decide, by decide +kernel, by decide +kernel, ?_⟩, by decide +kernel,
    by decide +kernel⟩
  have hall : ∀ m, m < 21 → 11 < m →
      wRetireReady (trapRun.state m) (trapRun.input m) = false := by decide +kernel
  intro m h1 h2
  exact hall m h2 h1

end Run

end Npc.Core
