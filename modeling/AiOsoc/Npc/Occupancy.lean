import AiOsoc.Npc.Run

/-!
# Stage occupancy

Which registers one clock edge loads, read off the `always` block field by
field, and the occupancy invariant under which these equations collapse: the
core never holds instructions in two neighbouring stages, and a refill is
pending exactly while the fetch unit is refilling.
-/

namespace Npc.Core

set_option autoImplicit false

section Fields
variable (s : State) (i : Input)

theorem clock_halted : (clock s i).halted =
    if !s.halted && wRetireReady s i && wBadWithoutVectorNow s i then true else s.halted := by
  simp only [clock, updUnits, updXW, updDX, updHalt, updFetch, updPending,
    apply_ite State.halted, ite_self]

theorem clock_ifuPending : (clock s i).ifuPending =
    if ifuInstReady s i then false else if ifuFetchValid s i then true else s.ifuPending := by
  simp only [clock, updUnits, updXW, updDX, updHalt, updFetch, updPending,
    apply_ite State.ifuPending, ite_self]

theorem clock_fPc : (clock s i).fPc =
    if wRedirect s i then wNextPcNow s i
    else if xRedirect s then xRedirectPc s.dx s.csr.mepc
    else if ifuInstReady s i && s.dropFetchResponse then s.fPc
    else if ifuInstReady s i && fdCanAccept s i then s.fPc + 4#32 else s.fPc := by
  simp only [clock, updUnits, updXW, updDX, updHalt, updFetch, updPending,
    apply_ite State.fPc, ite_self]

theorem clock_drop : (clock s i).dropFetchResponse =
    if redirect s i then s.ifuPending && !ifuInstReady s i
    else if ifuInstReady s i && s.dropFetchResponse then false else s.dropFetchResponse := by
  simp only [clock, updUnits, updXW, updDX, updHalt, updFetch, updPending,
    apply_ite State.dropFetchResponse, ite_self]
  cases hw : wRedirect s i <;> cases hx : xRedirect s <;> simp [redirect, hw, hx]

theorem clock_fdValid : (clock s i).fdValid =
    if redirect s i then false
    else if ifuInstReady s i && s.dropFetchResponse then s.fdValid
    else if ifuInstReady s i && fdCanAccept s i then true
    else if dCanAdvance s i then false else s.fdValid := by
  simp only [clock, updUnits, updXW, updDX, updHalt, updFetch, updPending,
    apply_ite State.fdValid, ite_self]
  cases hw : wRedirect s i <;> cases hx : xRedirect s <;> simp [redirect, hw, hx]

theorem clock_fd : (clock s i).fd =
    if redirect s i then s.fd
    else if ifuInstReady s i && s.dropFetchResponse then s.fd
    else if ifuInstReady s i && fdCanAccept s i then ⟨s.fPc, ifuInst s i, ifuInstError s i⟩
    else s.fd := by
  simp only [clock, updUnits, updXW, updDX, updHalt, updFetch, updPending,
    apply_ite State.fd, ite_self]
  cases hw : wRedirect s i <;> cases hx : xRedirect s <;> simp [redirect, hw, hx]

theorem clock_dxValid : (clock s i).dxValid =
    if redirect s i then false
    else if wStageStall s i || loadUseStall s i then s.dxValid
    else if dCanAdvance s i then true
    else if xCanAdvance s i then false else s.dxValid := by
  simp only [clock, updUnits, updXW, updDX, updHalt, updFetch, updPending,
    apply_ite State.dxValid, ite_self]
  cases hw : wRedirect s i <;> cases hx : xRedirect s <;> simp [redirect, hw, hx]

theorem clock_dx : (clock s i).dx =
    if redirect s i then s.dx
    else if wStageStall s i || loadUseStall s i then s.dx
    else if dCanAdvance s i then dStage s.fd (dRs1Data s i) (dRs2Data s i) else s.dx := by
  simp only [clock, updUnits, updXW, updDX, updHalt, updFetch, updPending,
    apply_ite State.dx, ite_self]
  cases hw : wRedirect s i <;> cases hx : xRedirect s <;> simp [redirect, hw, hx]

theorem clock_xwValid : (clock s i).xwValid =
    if wRedirect s i then false
    else if wStageStall s i then s.xwValid
    else if xCanAdvance s i then true
    else if wRetireReady s i then false else s.xwValid := by
  simp only [clock, updUnits, updXW, updDX, updHalt, updFetch, updPending,
    apply_ite State.xwValid, ite_self]
  cases wRedirect s i <;> rfl

theorem clock_xw : (clock s i).xw =
    if wRedirect s i then s.xw
    else if wStageStall s i then s.xw
    else if xCanAdvance s i then { xStage s.dx s.csr with csrRdata := csrRdata s i }
    else s.xw := by
  simp only [clock, updUnits, updXW, updDX, updHalt, updFetch, updPending,
    apply_ite State.xw, ite_self]

@[simp] theorem clock_ifu : (clock s i).ifu = Ifu.next s.ifu (ifuPort s i) := rfl

@[simp] theorem clock_csr : (clock s i).csr = Csr.next s.csr (csrPort s i) := rfl

@[simp] theorem clock_axi : (clock s i).axi = AxiMaster.next s.axi (axiReq s i) i.axi := rfl

@[simp] theorem clock_regs : (clock s i).regs =
    RegFile.next s.regs (!i.reset && !s.halted && wWbWenNow s i)
      (s.xw.rd.extractLsb' 0 4) (wbData s i) := rfl

end Fields

/-- The occupancy invariant. The first five fields bound the stages against each
other and against the fetch unit; the last two say what is in flight behind a
dropped fetch and in a halted core. -/
structure Occupancy (s : State) : Prop where
  fd_dx : s.fdValid = true → s.dxValid = false
  dx_xw : s.dxValid = true → s.xwValid = false
  pending : s.ifuPending = true ↔ s.ifu.state = .refill
  fd_idle : s.fdValid = true → s.ifu.state = .idle
  dx_idle : s.dxValid = true → s.ifu.state = .idle
  drop_refill : s.dropFetchResponse = true → s.ifu.state = .refill ∧ s.xwValid = false
  halted_empty : s.halted = true → s.fdValid = false ∧ s.dxValid = false ∧ s.xwValid = false ∧
    (s.ifu.state = .refill → s.dropFetchResponse = true)

section Wires
variable {s : State} {i : Input}

theorem loadUseStall_stalls (h : loadUseStall s i = true) : wStageStall s i = true := by
  simp only [loadUseStall, wLoadWaiting, Bool.and_eq_true] at h
  simp only [wStageStall, Bool.and_eq_true]
  exact ⟨h.1.1.1.1, h.1.1.2⟩

theorem no_loadUseStall (h : wStageStall s i = false) : loadUseStall s i = false := by
  by_contra hl
  rw [loadUseStall_stalls (by simpa using hl)] at h
  exact absurd h (by decide)

theorem wRedirect_retires (h : wRedirect s i = true) : wRetireReady s i = true := by
  simp only [wRedirect, Bool.and_eq_true] at h
  exact h.1

theorem wRetireReady_iff : wRetireReady s i = true ↔
    i.reset = false ∧ s.halted = false ∧ s.xwValid = true ∧ wMemReadyNow s i = true := by
  simp [wRetireReady, and_assoc]

theorem xRedirect_valid (h : xRedirect s = true) : s.dxValid = true := by
  simp only [xRedirect, Bool.and_eq_true] at h
  exact h.1

theorem ifuInstReady_cases (h : ifuInstReady s i = true) :
    (s.ifu.state = .idle ∧ ifuFetchValid s i = true ∧ Ifu.hit s.ifu (ifuPort s i) = true) ∨
    (s.ifu.state = .refill ∧ Ifu.refillLast s.ifu (ifuPort s i) = true) := by
  simp only [ifuInstReady, Ifu.instReady, Bool.or_eq_true, Bool.and_eq_true, decide_eq_true_eq] at h
  rcases h with ⟨⟨hs, hf⟩, hh⟩ | hl
  · exact Or.inl ⟨hs, hf, hh⟩
  · have hs := hl
    simp only [Ifu.refillLast, Ifu.refillFire, Bool.and_eq_true, decide_eq_true_eq] at hs
    exact Or.inr ⟨hs.1.1, hl⟩

theorem ifuFetchValid_iff : ifuFetchValid s i = true ↔
    s.halted = false ∧ i.reset = false ∧ s.fdValid = false ∧ s.dropFetchResponse = false ∧
      redirect s i = false := by
  simp [ifuFetchValid, and_assoc]

theorem ifu_idle_or_refill (f : Ifu.State) : f.state = .idle ∨ f.state = .refill := by
  cases f.state with
  | idle => exact Or.inl rfl
  | refill => exact Or.inr rfl

theorem ifu_next_of_idle {f : Ifu.State} {p : Ifu.Port} (hf : f.state = .idle) :
    (Ifu.next f p).state = if p.fetchValid && !Ifu.hit f p then .refill else .idle := by
  simp only [Ifu.next, hf, apply_ite Ifu.State.state]

theorem ifu_next_of_refill {f : Ifu.State} {p : Ifu.Port} (hf : f.state = .refill) :
    (Ifu.next f p).state = if Ifu.refillLast f p then .idle else .refill := by
  simp only [Ifu.next, hf, apply_ite Ifu.State.state]
  cases hl : Ifu.refillFire f p <;> simp [Ifu.refillLast, hl]

theorem fetch_blocked_by_fd (hf : s.fdValid = true) : ifuFetchValid s i = false := by
  simp [ifuFetchValid, hf]

/-- The word delivered this cycle is taken into F/D. -/
def capture (s : State) (i : Input) : Bool :=
  ifuInstReady s i && !s.dropFetchResponse && !redirect s i

theorem capture_ready (hc : capture s i = true) : ifuInstReady s i = true := by
  simp only [capture, Bool.and_eq_true] at hc
  exact hc.1.1

theorem fetch_blocked_by_redirect (hw : redirect s i = true) : ifuFetchValid s i = false := by
  simp [ifuFetchValid, hw]

/-- Where the fetch unit is after the edge. -/
theorem clock_refill_iff :
    (clock s i).ifu.state = .refill ↔
      (s.ifu.state = .idle ∧ ifuFetchValid s i = true ∧ ifuInstReady s i = false) ∨
      (s.ifu.state = .refill ∧ ifuInstReady s i = false) := by
  have hport : (ifuPort s i).fetchValid = ifuFetchValid s i := rfl
  rcases ifu_idle_or_refill s.ifu with hs | hs
  · rw [clock_ifu, ifu_next_of_idle hs, hport]
    cases hf : ifuFetchValid s i <;> cases hh : Ifu.hit s.ifu (ifuPort s i) <;>
      simp [hs, hf, hh, ifuInstReady, Ifu.instReady, hport, Ifu.refillLast, Ifu.refillFire]
  · rw [clock_ifu, ifu_next_of_refill hs]
    cases hl : Ifu.refillLast s.ifu (ifuPort s i) <;> simp [hs, hl, ifuInstReady, Ifu.instReady]

theorem clock_idle_of_no_fetch (hs : s.ifu.state = .idle)
    (hf : ifuFetchValid s i = false) : (clock s i).ifu.state = .idle := by
  rcases ifu_idle_or_refill (clock s i).ifu with hn | hn
  · exact hn
  · rcases clock_refill_iff.mp hn with ⟨_, hf', _⟩ | ⟨hs', _⟩
    · rw [hf] at hf'; exact absurd hf' (by decide)
    · rw [hs] at hs'; exact absurd hs' (by decide)

theorem clock_idle_of_ready (hi : ifuInstReady s i = true) :
    (clock s i).ifu.state = .idle := by
  rcases ifu_idle_or_refill (clock s i).ifu with hn | hn
  · exact hn
  · rcases clock_refill_iff.mp hn with ⟨_, _, hi'⟩ | ⟨_, hi'⟩ <;>
      rw [hi] at hi' <;> exact absurd hi' (by decide)

end Wires

/-! ## The collapsed clock edge

With the invariant in hand every control wire has a two-term form. -/

section Collapsed
variable {s : State} {i : Input} (h : Occupancy s) (hr : i.reset = false)
include h

theorem Occupancy.xw_running (hx : s.xwValid = true) : s.halted = false := by
  by_contra hh
  rw [(h.halted_empty (by simpa using hh)).2.2.1] at hx
  exact absurd hx (by decide)

theorem Occupancy.dx_empty_of_xw (hx : s.xwValid = true) : s.dxValid = false := by
  by_contra hd
  rw [h.dx_xw (by simpa using hd)] at hx
  exact absurd hx (by decide)

theorem Occupancy.dx_empty_of_refill (hs : s.ifu.state = .refill) : s.dxValid = false := by
  by_contra hd
  rw [h.dx_idle (by simpa using hd)] at hs
  exact absurd hs (by decide)

theorem Occupancy.fd_empty_of_refill (hs : s.ifu.state = .refill) : s.fdValid = false := by
  by_contra hd
  rw [h.fd_idle (by simpa using hd)] at hs
  exact absurd hs (by decide)

theorem Occupancy.not_pending_of_idle (hs : s.ifu.state = .idle) : s.ifuPending = false := by
  by_contra hp
  rw [h.pending.mp (by simpa using hp)] at hs
  exact absurd hs (by decide)

theorem Occupancy.not_drop_of_idle (hs : s.ifu.state = .idle) : s.dropFetchResponse = false := by
  by_contra hd
  rw [(h.drop_refill (by simpa using hd)).1] at hs
  exact absurd hs (by decide)

theorem Occupancy.ready_fd_empty (hi : ifuInstReady s i = true) : s.fdValid = false := by
  rcases ifuInstReady_cases hi with ⟨_, hf, _⟩ | ⟨hs, _⟩
  · exact (ifuFetchValid_iff.mp hf).2.2.1
  · exact h.fd_empty_of_refill hs

theorem Occupancy.xw_of_dx (hd : s.dxValid = true) :
    s.xwValid = false ∧ wStageStall s i = false ∧ wRetireReady s i = false ∧
      wRedirect s i = false := by
  have hx := h.dx_xw hd
  simp [hx, wStageStall, wRetireReady, wRedirect]

theorem Occupancy.xCanAdvance_eq : xCanAdvance s i = s.dxValid := by
  cases hd : s.dxValid with
  | false => simp [xCanAdvance, hd]
  | true =>
    obtain ⟨hx, hst, _, _⟩ := h.xw_of_dx (i := i) hd
    simp [xCanAdvance, hd, hx, hst]

theorem Occupancy.dCanAdvance_eq : dCanAdvance s i = (s.fdValid && !wStageStall s i) := by
  cases hf : s.fdValid with
  | false => simp [dCanAdvance, hf]
  | true =>
    have hd := h.fd_dx hf
    cases hst : wStageStall s i with
    | true => simp [dCanAdvance, hst]
    | false =>
      have hl := no_loadUseStall hst
      simp [dCanAdvance, hf, hd, hst, hl]

theorem Occupancy.fdCanAccept_of_ready (hi : ifuInstReady s i = true) : fdCanAccept s i = true := by
  simp [fdCanAccept, h.ready_fd_empty hi]

include hr in
theorem Occupancy.wRetireReady_eq : wRetireReady s i = (s.xwValid && wMemReadyNow s i) := by
  cases hx : s.xwValid with
  | false => simp [wRetireReady, hx]
  | true => simp [wRetireReady, hx, hr, h.xw_running hx]

/-- `x_redirect` meets an idle fetch unit, so it never leaves a fetch to drop. -/
theorem Occupancy.xRedirect_pending (hx : xRedirect s = true) : s.ifuPending = false :=
  h.not_pending_of_idle (h.dx_idle (xRedirect_valid hx))

include hr in
theorem Occupancy.next_xwValid :
    (clock s i).xwValid = (s.dxValid || (s.xwValid && !wMemReadyNow s i)) := by
  rw [clock_xwValid, h.xCanAdvance_eq]
  cases hd : s.dxValid with
  | true =>
    obtain ⟨_, hst, _, hw⟩ := h.xw_of_dx (i := i) hd
    simp [hst, hw]
  | false =>
    cases hx : s.xwValid with
    | false => simp [wStageStall, wRetireReady, hx, wRedirect]
    | true =>
      cases hm : wMemReadyNow s i with
      | false => simp [wStageStall, wRedirect, wRetireReady, hx, hm]
      | true => simp [wStageStall, h.wRetireReady_eq hr, hx, hm]

theorem Occupancy.next_xw :
    (clock s i).xw = if s.dxValid then xStage s.dx s.csr else s.xw := by
  rw [clock_xw, h.xCanAdvance_eq]
  cases hd : s.dxValid with
  | true =>
    obtain ⟨_, hst, _, hw⟩ := h.xw_of_dx (i := i) hd
    simp [hst, hw, csrRdata, csrPort, hd, xStage]
  | false => simp

theorem Occupancy.next_dxValid :
    (clock s i).dxValid = (s.fdValid && !wStageStall s i && !wRedirect s i) := by
  rw [clock_dxValid, h.xCanAdvance_eq, h.dCanAdvance_eq]
  cases hf : s.fdValid with
  | true =>
    have hd := h.fd_dx hf
    cases hst : wStageStall s i <;> cases hw : wRedirect s i <;>
      cases hl : loadUseStall s i <;> simp [redirect, xRedirect, hd, hw]
    exact absurd (loadUseStall_stalls hl) (by simp [hst])
  | false =>
    cases hd : s.dxValid with
    | false => simp
    | true =>
      obtain ⟨_, hst, _, hw⟩ := h.xw_of_dx (i := i) hd
      have hl := no_loadUseStall hst
      simp [hst, hl]

theorem Occupancy.next_dx :
    (clock s i).dx = if s.fdValid && !wStageStall s i && !wRedirect s i then
      dStage s.fd (dRs1Data s i) (dRs2Data s i) else s.dx := by
  rw [clock_dx, h.dCanAdvance_eq]
  cases hf : s.fdValid with
  | true =>
    have hd := h.fd_dx hf
    cases hst : wStageStall s i <;> cases hw : wRedirect s i <;>
      cases hl : loadUseStall s i <;> simp [redirect, xRedirect, hd, hw]
    exact absurd (loadUseStall_stalls hl) (by simp [hst])
  | false => simp

theorem Occupancy.next_fdValid :
    (clock s i).fdValid = (capture s i || (s.fdValid && wStageStall s i && !redirect s i)) := by
  rw [clock_fdValid, h.dCanAdvance_eq, capture]
  cases hi : ifuInstReady s i with
  | true =>
    have hf := h.ready_fd_empty hi
    have ha := h.fdCanAccept_of_ready hi
    cases hd : s.dropFetchResponse <;> cases hw : redirect s i <;> simp [hf, ha]
  | false =>
    cases hw : redirect s i <;> cases hf : s.fdValid <;> cases hst : wStageStall s i <;> simp

theorem Occupancy.next_fd :
    (clock s i).fd =
      if capture s i then ⟨s.fPc, ifuInst s i, ifuInstError s i⟩ else s.fd := by
  rw [clock_fd, capture]
  cases hi : ifuInstReady s i with
  | true =>
    have ha := h.fdCanAccept_of_ready hi
    cases hd : s.dropFetchResponse <;> cases hw : redirect s i <;> simp [ha]
  | false => simp

theorem Occupancy.next_fPc :
    (clock s i).fPc =
      if wRedirect s i then wNextPcNow s i
      else if xRedirect s then xRedirectPc s.dx s.csr.mepc
      else if capture s i then s.fPc + 4#32 else s.fPc := by
  rw [clock_fPc, capture]
  cases hi : ifuInstReady s i with
  | true =>
    have ha := h.fdCanAccept_of_ready hi
    cases hd : s.dropFetchResponse <;> cases hw : wRedirect s i <;> cases hx : xRedirect s <;>
      simp [ha, redirect, hw, hx]
  | false => simp

theorem Occupancy.next_drop :
    (clock s i).dropFetchResponse =
      if wRedirect s i then s.ifuPending && !ifuInstReady s i
      else s.dropFetchResponse && !ifuInstReady s i := by
  rw [clock_drop]
  cases hw : wRedirect s i with
  | true => simp [redirect, hw]
  | false =>
    cases hx : xRedirect s with
    | true =>
      have hp := h.xRedirect_pending hx
      have hd := h.not_drop_of_idle (h.dx_idle (xRedirect_valid hx))
      simp [redirect, hw, hx, hp, hd]
    | false => cases hi : ifuInstReady s i <;> cases hd : s.dropFetchResponse <;>
        simp [redirect, hw, hx]

/-- A halted core captures nothing: a refill still in flight is dropped. -/
theorem Occupancy.halted_captures_nothing (hh : s.halted = true) : capture s i = false := by
  obtain ⟨_, _, _, hd⟩ := h.halted_empty hh
  cases hc : capture s i with
  | false => rfl
  | true =>
    simp only [capture, Bool.and_eq_true, Bool.not_eq_true'] at hc
    rcases ifuInstReady_cases hc.1.1 with ⟨_, hf, _⟩ | ⟨hs, _⟩
    · rw [(ifuFetchValid_iff.mp hf).1] at hh; exact absurd hh (by decide)
    · rw [hd hs] at hc; exact absurd hc.1.2 (by decide)

include hr in
theorem Occupancy.empty_of_halted (hold : s.halted = true) :
    (clock s i).fdValid = false ∧ (clock s i).dxValid = false ∧ (clock s i).xwValid = false ∧
      ((clock s i).ifu.state = .refill → (clock s i).dropFetchResponse = true) := by
  rw [h.next_fdValid, h.next_dxValid, h.next_xwValid hr, h.next_drop, clock_refill_iff]
  obtain ⟨hf, hd, hx, hdrop⟩ := h.halted_empty hold
  have hw : wRedirect s i = false := by simp [wRedirect, wRetireReady, hx]
  have hnf : ifuFetchValid s i = false := by simp [ifuFetchValid, hold]
  simp only [h.halted_captures_nothing hold, hf, hd, hx, hw, hnf]
  refine ⟨rfl, rfl, rfl, ?_⟩
  rintro (⟨_, hf', _⟩ | ⟨hs, hi⟩)
  · exact absurd hf' (by decide)
  · simp [hdrop hs, hi]

include hr in
/-- The edge on which the core halts: the trap without a vector redirects from W. -/
theorem Occupancy.empty_of_halting (hready : wRetireReady s i = true)
    (hbad : wBadWithoutVectorNow s i = true) :
    (clock s i).fdValid = false ∧ (clock s i).dxValid = false ∧ (clock s i).xwValid = false ∧
      ((clock s i).ifu.state = .refill → (clock s i).dropFetchResponse = true) := by
  rw [h.next_fdValid, h.next_dxValid, h.next_xwValid hr, h.next_drop, clock_refill_iff]
  have hw : wRedirect s i = true := by
    have hb : wBadWithoutVector s.xwValid s.xw s.csr.mtvec (lsuRaw s i) = true := hbad
    simp [wRedirect, wTakes, hready, hb]
  have hret := wRetireReady_iff.mp hready
  have hdx := h.dx_empty_of_xw hret.2.2.1
  have hred : redirect s i = true := by simp [redirect, hw]
  simp only [capture, hred, hw, hdx, hret.2.2.2, fetch_blocked_by_redirect hred]
  refine ⟨by simp, by simp, by simp, ?_⟩
  rintro (⟨_, hf', _⟩ | ⟨hs, hi⟩)
  · exact absurd hf' (by decide)
  · simp [h.pending.mpr hs, hi]

include hr in
theorem Occupancy.clock : Occupancy (clock s i) where
  fd_dx := by
    intro hf
    rw [h.next_fdValid, Bool.or_eq_true] at hf
    rw [h.next_dxValid]
    rcases hf with hc | hst
    · simp [h.ready_fd_empty (capture_ready hc)]
    · simp only [Bool.and_eq_true] at hst
      simp [hst.1.2]
  dx_xw := by
    intro hd
    rw [h.next_dxValid] at hd
    simp only [Bool.and_eq_true, Bool.not_eq_true'] at hd
    rw [h.next_xwValid hr, h.fd_dx hd.1.1, Bool.false_or]
    exact hd.1.2
  pending := by
    rw [clock_refill_iff, clock_ifuPending]
    rcases ifu_idle_or_refill s.ifu with hs | hs
    · have hp := h.not_pending_of_idle hs
      cases hi : ifuInstReady s i <;> cases hf : ifuFetchValid s i <;> simp [hs, hp]
    · have hp := h.pending.mpr hs
      cases hi : ifuInstReady s i <;> cases hf : ifuFetchValid s i <;> simp [hs, hp]
  fd_idle := by
    intro hf
    rw [h.next_fdValid, Bool.or_eq_true] at hf
    rcases hf with hc | hst
    · exact clock_idle_of_ready (capture_ready hc)
    · simp only [Bool.and_eq_true] at hst
      exact clock_idle_of_no_fetch (h.fd_idle hst.1.1) (fetch_blocked_by_fd hst.1.1)
  dx_idle := by
    intro hd
    rw [h.next_dxValid] at hd
    simp only [Bool.and_eq_true] at hd
    exact clock_idle_of_no_fetch (h.fd_idle hd.1.1) (fetch_blocked_by_fd hd.1.1)
  drop_refill := by
    intro hd
    rw [h.next_drop] at hd
    rw [clock_refill_iff, h.next_xwValid hr]
    cases hw : wRedirect s i with
    | true =>
      simp only [hw, if_true, Bool.and_eq_true, Bool.not_eq_true'] at hd
      have hret := wRetireReady_iff.mp (wRedirect_retires hw)
      have hdx := h.dx_empty_of_xw hret.2.2.1
      refine ⟨Or.inr ⟨h.pending.mp hd.1, hd.2⟩, ?_⟩
      simp [hdx, hret.2.2.2]
    | false =>
      simp only [hw, Bool.false_eq_true, if_false, Bool.and_eq_true, Bool.not_eq_true'] at hd
      obtain ⟨href, hxw⟩ := h.drop_refill hd.1
      have hdx := h.dx_empty_of_refill href
      refine ⟨Or.inr ⟨href, hd.2⟩, ?_⟩
      simp [hdx, hxw]
  halted_empty := by
    intro hh
    rw [clock_halted] at hh
    cases hold : s.halted with
    | true => exact h.empty_of_halted hr hold
    | false =>
      simp only [hold, Bool.not_false, Bool.true_and, Bool.and_eq_true] at hh
      have hbad : wRetireReady s i = true ∧ wBadWithoutVectorNow s i = true := by
        by_contra hn
        rw [if_neg hn] at hh
        exact absurd hh (by decide)
      exact h.empty_of_halting hr hbad.1 hbad.2

end Collapsed

theorem occupancy_reset (s : State) (i : Input) : Occupancy (resetEdge s i) where
  fd_dx := by simp [resetEdge]
  dx_xw := by simp [resetEdge]
  pending := by simp [resetEdge, Ifu.reset]
  fd_idle := by simp [resetEdge]
  dx_idle := by simp [resetEdge]
  drop_refill := by simp [resetEdge]
  halted_empty := by simp [resetEdge]

theorem Reachable.occupancy {s : State} (h : Reachable s) : Occupancy s :=
  h.invariant occupancy_reset (fun _ _ hr _ ih => ih.clock hr)

theorem Run.occupancy (r : Run) (n : Nat) : Occupancy (r.state n) := (r.reachable n).occupancy

/-- Nothing in the source states it: neighbouring stages are never both
occupied. The missing X to D forwarding, the flush of `x_redirect` that ignores
stalls and the shared port of `Csr` are all safe because of it. -/
theorem stage_occupancy {s : State} (hs : Reachable s) (i : Input) :
    ¬ (s.fdValid = true ∧ s.dxValid = true) ∧
    ¬ (s.dxValid = true ∧ s.xwValid = true) ∧
    (s.ifuPending = true ↔ s.ifu.state = .refill) ∧
    (s.fdValid = true → s.ifu.state = .idle) ∧
    (s.dropFetchResponse = true → s.ifu.state = .refill ∧ s.fdValid = false) ∧
    (ifuInstReady s i = true → fdCanAccept s i = true) ∧
    (xRedirect s = true → xCanAdvance s i = true) ∧
    ((csrPort s i).commitEn = true ∨ (csrPort s i).trapEn = true →
      (csrPort s i).addr = s.xw.csrAddr ∧ (csrPort s i).cmd = s.xw.csrCmd ∧
      (csrPort s i).rs1Data = s.xw.rs1Data ∧ (csrPort s i).uimm = s.xw.csrUimm) := by
  have h := hs.occupancy
  refine ⟨?_, ?_, h.pending, h.fd_idle, ?_, h.fdCanAccept_of_ready, ?_, ?_⟩
  · rintro ⟨hf, hd⟩
    rw [h.fd_dx hf] at hd
    exact absurd hd (by decide)
  · rintro ⟨hd, hx⟩
    rw [h.dx_xw hd] at hx
    exact absurd hx (by decide)
  · intro hd
    exact ⟨(h.drop_refill hd).1, h.fd_empty_of_refill (h.drop_refill hd).1⟩
  · intro hx
    rw [h.xCanAdvance_eq]
    exact xRedirect_valid hx
  · intro hen
    have hret : wRetireReady s i = true := by
      simp only [csrPort, Bool.and_eq_true] at hen
      rcases hen with hen | hen
      · exact hen.1.1
      · exact hen.1
    have hdx := h.dx_empty_of_xw (wRetireReady_iff.mp hret).2.2.1
    simp [csrPort, hdx]

theorem stage_occupancy_nop :
    (Run.nopRun.state 8).dxValid = true ∧
    ¬ ((Run.nopRun.state 8).dxValid = true ∧ (Run.nopRun.state 8).xwValid = true) :=
  ⟨by decide +kernel, (stage_occupancy (Run.nopRun.reachable 8) (Run.nopRun.input 8)).2.1⟩

end Npc.Core
