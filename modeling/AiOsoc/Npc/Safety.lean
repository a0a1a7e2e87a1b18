import AiOsoc.Npc.InFlight
import AiOsoc.Npc.Slave

/-!
# Halting and alignment

Two safety properties of whole runs, against any slave. A halted core is silent
for ever: the refill that may still be in flight is dropped whenever it ends.
And no fetch starts at a misaligned pc, although `f_pc` may hold one for a cycle.
-/

namespace Npc.Core

set_option autoImplicit false

/-! ## Halt -/

/-- The core in `t`, with inputs `i`, is stopped and holds the architectural
state of `s`. -/
structure Stopped (s t : State) (i : Input) : Prop where
  halted : t.halted = true
  trapStatus : t.trapStatus = s.trapStatus
  fd_empty : t.fdValid = false
  dx_empty : t.dxValid = false
  xw_empty : t.xwValid = false
  no_retire : wRetireReady t i = false
  no_lsu : lsuRawValid t i = false
  no_clint : lsuIsClint t i = false
  no_bus : (lsuReq t i).valid = false
  no_fetch : ifuFetchValid t i = false
  no_capture : capture t i = false
  regs : t.regs = s.regs
  mtvec : t.csr.mtvec = s.csr.mtvec
  mepc : t.csr.mepc = s.csr.mepc
  mcause : t.csr.mcause = s.csr.mcause

theorem clock_trapStatus (s : State) (i : Input) : (clock s i).trapStatus =
    if !s.halted && wRetireReady s i && wBadWithoutVectorNow s i then .bad else s.trapStatus := by
  simp only [clock, updUnits, updXW, updDX, updHalt, updFetch, updPending,
    apply_ite State.trapStatus, ite_self]

theorem Occupancy.stopped {s : State} (h : Occupancy s) (hh : s.halted = true) (i : Input) :
    Stopped s s i := by
  obtain ⟨hf, hd, hx, _⟩ := h.halted_empty hh
  have hl : lsuRawValid s i = false := by simp [lsuRawValid, lsuRen, lsuWen, hh]
  exact {
    halted := hh
    trapStatus := rfl
    fd_empty := hf
    dx_empty := hd
    xw_empty := hx
    no_retire := not_retire_of_xw_empty hx
    no_lsu := hl
    no_clint := by simp [lsuIsClint, hl]
    no_bus := by simp [lsuReq, lsuArbValid, hl]
    no_fetch := by simp [ifuFetchValid, hh]
    no_capture := h.halted_captures_nothing hh
    regs := rfl
    mtvec := rfl
    mepc := rfl
    mcause := rfl }

/-- One clock edge of a halted core. -/
theorem halted_clock {s : State} {i : Input} (h : Occupancy s) (hr : i.reset = false)
    (hh : s.halted = true) :
    (clock s i).halted = true ∧ (clock s i).trapStatus = s.trapStatus ∧
      (clock s i).regs = s.regs ∧ (clock s i).csr = s.csr := by
  have hn := (h.stopped hh i).no_retire
  refine ⟨?_, ?_, clock_regs_of_not_retire hr h hn, clock_csr_of_not_retire hn⟩
  · simp [clock_halted, hh]
  · simp [clock_trapStatus, hh]

theorem halted_state {s : State} (hs : Reachable s) (hh : s.halted = true) (input : Nat → Input)
    (m : Nat) (hr : ∀ k, k < m → (input k).reset = false) :
    Reachable (Clocked.state step s input m) ∧ (Clocked.state step s input m).halted = true ∧
      (Clocked.state step s input m).trapStatus = s.trapStatus ∧
      (Clocked.state step s input m).regs = s.regs ∧
      (Clocked.state step s input m).csr = s.csr := by
  induction m with
  | zero => exact ⟨hs, hh, rfl, rfl, rfl⟩
  | succ m ih =>
    obtain ⟨hreach, hhm, htrap, hregs, hcsr⟩ := ih (fun k hk => hr k (Nat.lt_succ_of_lt hk))
    have hrm := hr m (Nat.lt_succ_self m)
    obtain ⟨h1, h2, h3, h4⟩ := halted_clock hreach.occupancy hrm hhm
    have hstep : Clocked.state step s input (m + 1) =
        clock (Clocked.state step s input m) (input m) := by
      simp [Clocked.state, step, hrm]
    refine ⟨.step _ _ hreach, ?_⟩
    rw [hstep]
    exact ⟨h1, h2.trans htrap, h3.trans hregs, h4.trans hcsr⟩

/-- Halt is final, whatever the slave drives and whenever a refill ends that was
in flight when the core halted. -/
theorem halt_final {s : State} (hs : Reachable s) (hh : s.halted = true) (input : Nat → Input)
    (m : Nat) (hr : ∀ k, k ≤ m → (input k).reset = false) :
    Stopped s (Clocked.state step s input m) (input m) := by
  obtain ⟨hreach, hhm, htrap, hregs, hcsr⟩ :=
    halted_state hs hh input m (fun k hk => hr k (Nat.le_of_lt hk))
  have hst := hreach.occupancy.stopped hhm (input m)
  exact { hst with
    trapStatus := htrap
    regs := hregs
    mtvec := congrArg Csr.mtvec hcsr
    mepc := congrArg Csr.mepc hcsr
    mcause := congrArg Csr.mcause hcsr }

/-- The first line ends in an `ebreak`: the core halts on it while the next line
is being refilled. -/
def haltRun : Run := ⟨blank, 0#32, fun n =>
  if n = 6 then eager 0x00100073#32 true else eager 0x00000013#32 (n = 20)⟩

theorem halt_final_refill :
    (haltRun.state 16).halted = true ∧ (haltRun.state 16).ifu.state = .refill ∧
    (haltRun.state 21).ifu.state = .idle ∧
    Stopped (haltRun.state 16)
      (Clocked.state step (haltRun.state 16) (fun k => haltRun.input (16 + k)) 6)
      (haltRun.input 22) := by
  have hh : (haltRun.state 16).halted = true := by decide +kernel
  refine ⟨hh, by decide +kernel, by decide +kernel, ?_⟩
  exact halt_final (haltRun.reachable 16) hh (fun k => haltRun.input (16 + k)) 6 (fun _ _ => rfl)

/-! ## Alignment -/

/-- The two low bits are zero. -/
def AlignedPc (pc : BitVec 32) : Prop := pc.extractLsb' 0 2 = 0b00#2

instance (pc : BitVec 32) : Decidable (AlignedPc pc) := inferInstanceAs (Decidable (_ = _))

theorem alignedPc_mask2 (v : BitVec 32) : AlignedPc (Csr.mask2 v) := by
  unfold AlignedPc Csr.mask2
  apply BitVec.eq_of_getLsbD_eq
  intro k hk
  simp only [BitVec.getLsbD_extractLsb', BitVec.getLsbD_append, BitVec.getLsbD_zero, Nat.zero_add]
  rw [if_pos hk, Bool.and_false]

theorem AlignedPc.add_four {pc : BitVec 32} (h : AlignedPc pc) : AlignedPc (pc + 4#32) := by
  unfold AlignedPc at h ⊢
  have h2 := congrArg BitVec.toNat h
  apply BitVec.eq_of_toNat_eq
  simp only [BitVec.extractLsb'_toNat, BitVec.toNat_add, BitVec.toNat_ofNat, Nat.shiftRight_zero]
    at h2 ⊢
  omega

theorem csr_next_aligned {c : Csr} {p : Csr.Port} (ht : AlignedPc c.mtvec) (he : AlignedPc c.mepc) :
    AlignedPc (Csr.next c p).mtvec ∧ AlignedPc (Csr.next c p).mepc := by
  unfold Csr.next
  split_ifs
  · exact ⟨ht, alignedPc_mask2 _⟩
  · unfold Csr.write
    split_ifs
    · exact ⟨alignedPc_mask2 _, he⟩
    · exact ⟨ht, alignedPc_mask2 _⟩
    · exact ⟨ht, he⟩
    · exact ⟨ht, he⟩
  · exact ⟨ht, he⟩

/-- The instruction in W traps before any memory access, so it redirects in its
first cycle there. -/
def XW.Diverts (w : XW) : Prop :=
  w.instError = true ∨ w.decodeLegal = false ∨ w.pcException = true

/-- The alignment invariant. A misaligned `f_pc` is one that the instruction now
in W left there on its way through X. -/
structure PcsAligned (s : State) : Prop where
  mtvec : AlignedPc s.csr.mtvec
  mepc : AlignedPc s.csr.mepc
  fd : s.fdValid = true → AlignedPc s.fd.pc
  dx : s.dxValid = true → AlignedPc s.dx.pc
  xw : s.xwValid = true → AlignedPc s.xw.pc
  fetch : AlignedPc s.fPc ∨ (s.xwValid = true ∧ s.xw.Diverts)

theorem XW.Diverts.traps {w : XW} (hd : w.Diverts) : wBaseTrapRequest w = true := by
  rcases hd with h | h | h <;> simp [wBaseTrapRequest, h]

theorem XW.Diverts.no_access {w : XW} (hd : w.Diverts) (valid : Bool) (mtvec : BitVec 32) :
    wMemAccess valid w mtvec = false := by
  rcases hd with h | h | h <;> simp [wMemAccess, wCanCompleteNoMemFault, h]

section Step
variable {s : State} {i : Input} (h : Occupancy s) (hr : i.reset = false)
include h hr

theorem XW.Diverts.redirects (hx : s.xwValid = true) (hd : s.xw.Diverts) :
    wRedirect s i = true := by
  have hret : wRetireReady s i = true := by
    rw [h.wRetireReady_eq hr, hx]
    simp [wMemReadyNow, wMemReady, hd.no_access]
  have ht : wTrapRequest s.xwValid s.xw s.csr.mtvec (lsuRaw s i) = true := by
    simp [wTrapRequest, hd.traps]
  have htakes : wTakes s.xwValid s.xw s.csr.mtvec (lsuRaw s i) = true := by
    cases hv : s.csr.mtvec == 0#32 <;>
      simp [wTakes, wPreciseTrap, wBadWithoutVector, ht, bne, hv]
  simp [wRedirect, hret, htakes]

variable (ha : PcsAligned s)
include ha

/-- Without a redirect from W the fetch pc is aligned. -/
theorem PcsAligned.fPc_of_no_redirect (hn : wRedirect s i = false) : AlignedPc s.fPc := by
  rcases ha.fetch with hf | ⟨hx, hd⟩
  · exact hf
  · rw [hd.redirects h hr hx] at hn
    exact absurd hn (by decide)

theorem PcsAligned.fPc_of_capture (hc : capture s i = true) : AlignedPc s.fPc := by
  simp only [capture, redirect, Bool.and_eq_true, Bool.not_eq_true', Bool.or_eq_false_iff] at hc
  exact ha.fPc_of_no_redirect h hr hc.2.2

omit h hr in
/-- What X leaves in `f_pc`: an aligned pc, or the instruction diverts from W. -/
theorem PcsAligned.redirect_target (hx : xTakes s.dx = true) :
    AlignedPc (xRedirectPc s.dx s.csr.mepc) ∨ (xStage s.dx s.csr).Diverts := by
  by_cases hal : AlignedPc (xRedirectPc s.dx s.csr.mepc)
  · exact Or.inl hal
  · right
    cases hl : s.dx.decodeLegal with
    | false => exact Or.inr (Or.inl hl)
    | true =>
      refine Or.inr (Or.inr ?_)
      show xPcException s.dx = true
      cases hm : s.dx.isMret with
      | true =>
        rw [xRedirectPc, if_pos hm] at hal
        exact absurd ha.mepc hal
      | false =>
        simp only [xTakes, hm, Bool.false_or, Bool.or_eq_true] at hx
        cases hj : s.dx.isJalr with
        | true =>
          simp only [xRedirectPc, hm, hj, AlignedPc, Bool.false_eq_true, if_false, if_true] at hal
          simp [xPcException, hl, hj, hal]
        | false =>
          simp only [xRedirectPc, hm, hj, AlignedPc, Bool.false_eq_true, if_false] at hal
          rcases hx with (hx | hx) | hx
          · rw [hj] at hx
            exact absurd hx (by decide)
          · simp [xPcException, hl, hx, hal]
          · simp [xPcException, hl, hx, hal]

omit h hr in
theorem PcsAligned.nextPc (hx : s.xwValid = true) : AlignedPc (wNextPcNow s i) := by
  unfold wNextPcNow wNextPc
  split_ifs
  · exact ha.mtvec
  · exact ha.xw hx
  · exact (ha.xw hx).add_four

theorem PcsAligned.clock : PcsAligned (clock s i) where
  mtvec := (csr_next_aligned ha.mtvec ha.mepc).1
  mepc := (csr_next_aligned ha.mtvec ha.mepc).2
  fd := by
    intro hv
    rw [h.next_fd]
    cases hc : capture s i with
    | true => exact ha.fPc_of_capture h hr hc
    | false =>
      rw [h.next_fdValid, hc, Bool.false_or, Bool.and_eq_true, Bool.and_eq_true] at hv
      exact ha.fd hv.1.1
  dx := by
    intro hv
    rw [h.next_dxValid] at hv
    rw [h.next_dx, if_pos hv]
    simp only [Bool.and_eq_true] at hv
    exact ha.fd hv.1.1
  xw := by
    intro hv
    rcases h.next_xw_cases hr hv with ⟨hd, _, _, hw⟩ | ⟨_, hx, _, _, hw⟩
    · rw [hw]
      exact ha.dx hd
    · rw [hw]
      exact ha.xw hx
  fetch := by
    rw [h.next_fPc]
    split_ifs with hw hx hc
    · exact Or.inl (ha.nextPc (wRetireReady_iff.mp (wRedirect_retires hw)).2.2.1)
    · -- the redirecting instruction is in W after this edge
      have hd := xRedirect_valid hx
      have htakes : xTakes s.dx = true := by
        simpa [xRedirect, hd] using hx
      rcases ha.redirect_target htakes with hal | hdiv
      · exact Or.inl hal
      · right
        rw [h.next_xwValid hr, h.next_xw, if_pos hd, hd]
        exact ⟨rfl, hdiv⟩
    · exact Or.inl (ha.fPc_of_capture h hr hc).add_four
    · exact Or.inl (ha.fPc_of_no_redirect h hr (by simpa using hw))

end Step

theorem PcsAligned.reset {i : Input} (s : State) (hp : AlignedPc (resetVector i.resetPc)) :
    PcsAligned (resetEdge s i) where
  mtvec := show AlignedPc 0#32 by decide
  mepc := show AlignedPc 0#32 by decide
  fd := by simp [resetEdge]
  dx := by simp [resetEdge]
  xw := by simp [resetEdge]
  fetch := Or.inl hp

namespace Run
variable (r : Run)

theorem pcsAligned (hp : AlignedPc (resetVector r.resetPc)) (n : Nat) : PcsAligned (r.state n) := by
  induction n with
  | zero => exact PcsAligned.reset r.boot hp
  | succ n ih =>
    rw [state_succ]
    exact ih.clock (r.occupancy n) rfl

/-- The fetch pc of cycle `n` is the misaligned target of the instruction in W. -/
def StrayFetchPc (n : Nat) : Prop :=
  ¬ AlignedPc (r.state n).fPc ∧ (r.state n).xwValid = true ∧ (r.state n).xw.redirect = true ∧
    (r.state n).xw.redirectPc = (r.state n).fPc

instance (n : Nat) : Decidable (r.StrayFetchPc n) := inferInstanceAs (Decidable (_ ∧ _ ∧ _ ∧ _))

/-- A line whose first word is `word`, answered with `resp`, and `nop` words after it. -/
def jumpRun (word : BitVec 32) (resp : BitVec 2) : Run := ⟨blank, 0#32, fun n =>
  if n = 3 then { eager word false with rresp := resp }
  else eager 0x00000013#32 (n = 6)⟩

end Run

/-- Only aligned instructions are fetched, retired and recorded, although `f_pc`
passes through misaligned targets: of a jump, of a jump to an unusable register
and of a word whose fetch failed. -/
theorem fetch_aligned :
    (∀ (r : Run) (n : Nat), AlignedPc (resetVector r.resetPc) →
      (ifuFetchValid (r.state n) (r.input n) = true → AlignedPc (r.state n).fPc) ∧
      (wRetireReady (r.state n) (r.input n) = true → AlignedPc (commitPc (r.state n))) ∧
      AlignedPc (r.state n).csr.mtvec ∧ AlignedPc (r.state n).csr.mepc) ∧
    (∃ (r : Run) (n : Nat), AlignedPc (resetVector r.resetPc) ∧ r.StrayFetchPc n ∧
      (r.state n).xw.decodeLegal = true ∧ (r.state n).xw.instError = false) ∧
    (∃ (r : Run) (n : Nat), AlignedPc (resetVector r.resetPc) ∧ r.StrayFetchPc n ∧
      (r.state n).xw.decodeLegal = false) ∧
    (∃ (r : Run) (n : Nat), AlignedPc (resetVector r.resetPc) ∧ r.StrayFetchPc n ∧
      (r.state n).xw.instError = true) := by
  refine ⟨?_, ?_, ?_, ?_⟩
  · intro r n hp
    have ha := r.pcsAligned hp n
    refine ⟨?_, ?_, ha.mtvec, ha.mepc⟩
    · intro hf
      have hn : wRedirect (r.state n) (r.input n) = false := by
        simp only [ifuFetchValid, redirect, Bool.and_eq_true, Bool.not_eq_true',
          Bool.or_eq_false_iff] at hf
        exact hf.2.2
      exact ha.fPc_of_no_redirect (r.occupancy n) rfl hn
    · intro hret
      exact ha.xw (wRetireReady_iff.mp hret).2.2.1
  · exact ⟨Run.jumpRun 0x0020006f#32 0#2, 9, by decide +kernel⟩
  · exact ⟨Run.jumpRun 0x0020086f#32 0#2, 9, by decide +kernel⟩
  · exact ⟨Run.jumpRun 0x0020006f#32 2#2, 9, by decide +kernel⟩

theorem fetch_aligned_jump :
    AlignedPc (resetVector (Run.jumpRun 0x0020006f#32 0#2).resetPc) ∧
    wRetireReady ((Run.jumpRun 0x0020006f#32 0#2).state 9)
      ((Run.jumpRun 0x0020006f#32 0#2).input 9) = true ∧
    AlignedPc (commitPc ((Run.jumpRun 0x0020006f#32 0#2).state 9)) := by
  have hret : wRetireReady ((Run.jumpRun 0x0020006f#32 0#2).state 9)
      ((Run.jumpRun 0x0020006f#32 0#2).input 9) = true := by decide +kernel
  exact ⟨by decide, hret, (fetch_aligned.1 _ 9 (by decide)).2.1 hret⟩

end Npc.Core
