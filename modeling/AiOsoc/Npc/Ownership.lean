import AiOsoc.Npc.InFlight
import AiOsoc.Npc.Slave

/-!
# Bus ownership

The arbiter has no ownership latch: it forwards whatever the LSU and the fetch
unit request in the cycle. The pipeline makes up for it. While the master is
busy the unit whose request it latched keeps requesting the same thing, and the
other one is not selected.
-/

namespace Npc.Core

set_option autoImplicit false

/-- The master serves the refill of the fetch unit; nothing is in flight. -/
structure IfuOwns (s : State) : Prop where
  refill : s.ifu.state = .refill
  xw_empty : s.xwValid = false
  phase : (s.axi.state = .readAddr ∧ s.ifu.refillBeatQ = 0#2) ∨ s.axi.state = .readData
  addr : s.axi.addrQ = s.ifu.missLineAddrQ
  len : s.axi.lenQ = 3#8
  beat : s.axi.readBeatQ = s.ifu.refillBeatQ.setWidth 8

/-- The master serves the access of the instruction in W. -/
structure LsuOwns (s : State) (i : Input) : Prop where
  valid : lsuArbValid s i = true
  phase : if lsuWen s i then s.axi.state = .writeReq ∨ s.axi.state = .writeResp
    else s.axi.state = .readAddr ∨ s.axi.state = .readData
  addr : s.axi.addrQ = (lsuReq s i).addr
  len : s.axi.lenQ = 0#8
  beat : s.axi.readBeatQ = 0#8
  wdata : s.axi.wdataQ = (lsuReq s i).wdata
  wmask : s.axi.wmaskQ = (lsuReq s i).wmask

/-- A refill that has not got the bus has not received a beat. -/
def Untouched (s : State) : Prop := s.ifu.state = .refill → s.ifu.refillBeatQ = 0#2

inductive Ownership (s : State) (i : Input) : Prop where
  | idle (hi : s.axi.state = .idle) (hu : Untouched s)
  | ifu (ho : IfuOwns s)
  | lsu (ho : LsuOwns s i) (hu : Untouched s)

theorem Ownership.untouched_of_idle {s : State} {i : Input} (ho : Ownership s i)
    (hi : s.axi.state = .idle) : Untouched s := by
  cases ho with
  | idle _ hu => exact hu
  | lsu _ hu => exact hu
  | ifu ho =>
    rcases ho.phase with hp | hp
    · rw [hp.1] at hi; exact absurd hi (by decide)
    · rw [hp] at hi; exact absurd hi (by decide)

section Wires
variable {s : State} {i : Input}

theorem lsuArbValid_xw (hl : lsuArbValid s i = true) : s.xwValid = true := by
  simp only [lsuArbValid, lsuRawValid, lsuRen, lsuWen, wLsuWen, wCanCompleteNoMemFault,
    Bool.and_eq_true, Bool.or_eq_true] at hl
  rcases hl.1 with hv | hv
  · exact hv.1.2.1.1.1.1.1.1
  · exact hv.2.1.1.1.1.1.1.1

theorem not_lsuArbValid (hx : s.xwValid = false) : lsuArbValid s i = false := by
  cases hl : lsuArbValid s i with
  | false => rfl
  | true =>
    rw [lsuArbValid_xw hl] at hx
    exact absurd hx (by decide)

theorem lsuRaw_of_arb (hl : lsuArbValid s i = true) : lsuRaw s i = lsuArbResp s i := by
  simp only [lsuArbValid, Bool.and_eq_true, Bool.not_eq_true'] at hl
  simp [lsuRaw, hl.2]

theorem lsuReq_valid : (lsuReq s i).valid = lsuArbValid s i := rfl

theorem ifuReq_valid : (ifuReq s).valid = decide (s.ifu.state = .refill) := rfl

theorem ifu_unselected (hl : lsuArbValid s i = true) : (ifuBusResp s i).ready = false := by
  simp [ifuBusResp, AxiArbiter.ifuResp, AxiArbiter.useIfu, lsuReq_valid, hl]

theorem ifu_idle_bus (hi : s.axi.state = .idle) : (ifuBusResp s i).ready = false := by
  have hresp : (axiResp s i).ready = false := AxiMaster.resp_idle hi
  simp [ifuBusResp, AxiArbiter.ifuResp, hresp]

/-- An access on the bus holds W until the master answers. -/
theorem wMemReadyNow_of_arb (hl : lsuArbValid s i = true) :
    wMemReadyNow s i = (axiResp s i).ready := by
  have hx := lsuArbValid_xw hl
  have hacc : wMemAccess s.xwValid s.xw s.csr.mtvec = true := by
    simp only [lsuArbValid, lsuRawValid, lsuRen, lsuWen, wLsuWen, Bool.and_eq_true,
      Bool.or_eq_true] at hl
    rcases hl.1 with hv | hv
    · simp [wMemAccess, hv.1.2, hv.2]
    · simp [wMemAccess, hv.2.1, hv.2.2]
  simp [wMemReadyNow, wMemReady, hacc, lsuRaw_of_arb hl, lsuArbResp, AxiArbiter.lsuResp,
    AxiArbiter.useLsu, lsuReq_valid, hl]

/-- Everything else in W is ready at once: the CLINT answers in the same cycle. -/
theorem wMemReadyNow_of_not_arb (hr : i.reset = false) (hh : s.halted = false)
    (hl : lsuArbValid s i = false) : wMemReadyNow s i = true := by
  cases hacc : wMemAccess s.xwValid s.xw s.csr.mtvec with
  | false => simp [wMemReadyNow, wMemReady, hacc]
  | true =>
    have hraw : lsuRawValid s i = true := by
      simp only [wMemAccess, Bool.and_eq_true, Bool.or_eq_true] at hacc
      rcases hacc with ⟨hc, hm | hm⟩ <;>
        simp [lsuRawValid, lsuRen, lsuWen, wLsuWen, hr, hh, hc, hm]
    have hclint : lsuIsClint s i = true := by
      simpa [lsuArbValid, hraw] using hl
    simp [wMemReadyNow, wMemReady, lsuRaw, hclint]

/-- A request of an instruction that stays in W stays as it is. -/
theorem lsuReq_stall {j : Input} (h : Occupancy s) (hr : i.reset = false) (hj : j.reset = false)
    (hx : s.xwValid = true) (hn : wRetireReady s i = false) :
    lsuReq (clock s i) j = lsuReq s i := by
  have hd := h.dx_empty_of_xw hx
  have hm : wMemReadyNow s i = false := by
    rw [h.wRetireReady_eq hr, hx] at hn
    simpa using hn
  have hx' : (clock s i).xwValid = s.xwValid := by rw [h.next_xwValid hr, hx, hd, hm]; rfl
  have hxw : (clock s i).xw = s.xw := by rw [h.next_xw, hd]; rfl
  have hh : (clock s i).halted = s.halted := by rw [clock_halted]; simp [hn]
  have hc : (clock s i).csr = s.csr := clock_csr_of_not_retire hn
  simp only [lsuReq, lsuArbValid, lsuRawValid, lsuRen, lsuWen, wLsuWen, lsuIsClint, lsuRawAddr,
    hx', hxw, hh, hc, hr, hj]

theorem untouched_clock (hu : Untouched s) (hq : (ifuBusResp s i).ready = false) :
    Untouched (clock s i) := by
  intro hs
  rcases clock_refill_iff.mp hs with ⟨hidle, hf, hn⟩ | ⟨href, _⟩
  · have hh : Ifu.hit s.ifu (ifuPort s i) = false := by
      simpa [ifuInstReady, Ifu.instReady, hidle, ifuPort, hf, Ifu.refillLast, Ifu.refillFire]
        using hn
    have hp : (ifuPort s i).fetchValid = true := hf
    rw [clock_ifu]
    simp [Ifu.next, hidle, hp, hh]
  · have hb := hu href
    have hp : (ifuPort s i).bus.ready = false := hq
    rw [clock_ifu]
    simp [Ifu.next, href, Ifu.refillFire, hp, hb]

end Wires

section Step
variable {s : State} {i j : Input} (h : Occupancy s) (hr : i.reset = false)
include h hr

/-- The access of W goes first; it stalls because an idle master answers nothing. -/
theorem idle_lsu_step (hj : j.reset = false) (hi : s.axi.state = .idle)
    (hl : lsuArbValid s i = true) :
    LsuOwns (clock s i) j ∧ lsuReq (clock s i) j = lsuReq s i := by
  have hresp : (axiResp s i).ready = false := AxiMaster.resp_idle hi
  have hx := lsuArbValid_xw hl
  have hn : wRetireReady s i = false := by
    simp [wRetireReady, wMemReadyNow_of_arb hl, hresp]
  have hsame := lsuReq_stall (j := j) h hr hj hx hn
  have hw : lsuWen (clock s i) j = lsuWen s i := congrArg BusReq.write hsame
  refine ⟨⟨(congrArg BusReq.valid hsame).trans hl, ?_, ?_, ?_, ?_, ?_, ?_⟩, hsame⟩
  all_goals
    try rw [hsame]
    try rw [hw]
    rw [clock_axi]
    cases hwen : lsuWen s i <;>
      simp [AxiMaster.next, hi, AxiMaster.startRead, AxiMaster.startWrite, axiReq, AxiArbiter.bus,
        AxiArbiter.useLsu, lsuReq, hl, hwen]

/-- Without an access in W an idle master takes the refill. -/
theorem idle_ifu_step (hi : s.axi.state = .idle) (hu : Untouched s)
    (hl : lsuArbValid s i = false) (hs : s.ifu.state = .refill) :
    IfuOwns (clock s i) ∧ ifuReq (clock s i) = ifuReq s := by
  have hd := h.dx_empty_of_refill hs
  have hb := hu hs
  have hp : (ifuPort s i).bus.ready = false := ifu_idle_bus hi
  have hxw : (clock s i).xwValid = false := by
    rw [h.next_xwValid hr, hd]
    cases hx : s.xwValid with
    | false => rfl
    | true => simp [wMemReadyNow_of_not_arb hr (h.xw_running hx) hl]
  refine ⟨⟨?_, hxw, ?_, ?_, ?_, ?_⟩, ?_⟩
  all_goals
    simp [AxiMaster.next, hi, AxiMaster.startRead, AxiMaster.startWrite, axiReq, AxiArbiter.bus,
      AxiArbiter.useLsu, AxiArbiter.useIfu, lsuReq_valid, hl, hs, Ifu.next, hb,
      Ifu.refillFire, hp, ifuReq, Ifu.busReq]

omit h hr in
theorem idle_idle_step (hi : s.axi.state = .idle) (hl : lsuArbValid s i = false)
    (hs : s.ifu.state = .idle) : (clock s i).axi.state = .idle := by
  simp [AxiMaster.next, hi, AxiMaster.startRead, AxiMaster.startWrite, axiReq, AxiArbiter.bus,
    AxiArbiter.useLsu, AxiArbiter.useIfu, lsuReq_valid, ifuReq_valid, hl, hs]

omit h hr in
theorem LsuOwns.busy (ho : LsuOwns s i) : s.axi.state ≠ .idle := by
  have hp := ho.phase
  intro hi
  cases hw : lsuWen s i <;> simp [hw, hi] at hp

theorem LsuOwns.stay (ho : LsuOwns s i) (hj : j.reset = false) (hn : (axiResp s i).ready = false) :
    LsuOwns (clock s i) j ∧ lsuReq (clock s i) j = lsuReq s i := by
  have hx := lsuArbValid_xw ho.valid
  have hret : wRetireReady s i = false := by
    simp [wRetireReady, wMemReadyNow_of_arb ho.valid, hn]
  have hsame := lsuReq_stall (j := j) h hr hj hx hret
  have hw : lsuWen (clock s i) j = lsuWen s i := congrArg BusReq.write hsame
  obtain ⟨ha, hlen, hb, hwd, hwm⟩ := AxiMaster.next_keeps (axiReq s i) ho.busy hn
  refine ⟨⟨(congrArg BusReq.valid hsame).trans ho.valid, ?_, ?_, ?_, ?_, ?_, ?_⟩, hsame⟩
  · have hp := ho.phase
    rw [hw, clock_axi]
    cases hwen : lsuWen s i with
    | false =>
      simp only [hwen, Bool.false_eq_true, if_false] at hp ⊢
      exact AxiMaster.next_reading hp hn
    | true =>
      simp only [hwen, if_true] at hp ⊢
      exact AxiMaster.next_writing hp hn
  · rw [hsame, ← ho.addr]
    exact ha
  · exact hlen.trans ho.len
  · exact hb.trans ho.beat
  · rw [hsame, ← ho.wdata]
    exact hwd
  · rw [hsame, ← ho.wmask]
    exact hwm

theorem LsuOwns.answered (ho : LsuOwns s i) (hresp : (axiResp s i).ready = true) :
    wRetireReady s i = true ∧ (clock s i).axi.state = .idle ∧ (clock s i).xwValid = false := by
  have hx := lsuArbValid_xw ho.valid
  have hm : wMemReadyNow s i = true := (wMemReadyNow_of_arb ho.valid).trans hresp
  refine ⟨?_, ?_, ?_⟩
  · rw [h.wRetireReady_eq hr, hx, hm]
    rfl
  · refine AxiMaster.next_answered hresp ?_
    intro _
    simp [ho.beat, ho.len]
  · rw [h.next_xwValid hr, h.dx_empty_of_xw hx, hm]
    simp

omit h hr in
theorem IfuOwns.not_arb (ho : IfuOwns s) : lsuArbValid s i = false := not_lsuArbValid ho.xw_empty

omit h hr in
theorem IfuOwns.busResp (ho : IfuOwns s) : (ifuBusResp s i).ready = (axiResp s i).ready := by
  simp [ifuBusResp, AxiArbiter.ifuResp, AxiArbiter.useIfu, lsuReq_valid, ifuReq_valid, ho.not_arb,
    ho.refill]

omit h hr in
theorem IfuOwns.busy (ho : IfuOwns s) : s.axi.state ≠ .idle := by
  intro hi
  rcases ho.phase with hp | hp
  · rw [hp.1] at hi; exact absurd hi (by decide)
  · rw [hp] at hi; exact absurd hi (by decide)

theorem IfuOwns.next_xw_empty (ho : IfuOwns s) : (clock s i).xwValid = false := by
  rw [h.next_xwValid hr, h.dx_empty_of_refill ho.refill, ho.xw_empty]
  rfl

theorem IfuOwns.wait (ho : IfuOwns s) (hresp : (axiResp s i).ready = false) :
    IfuOwns (clock s i) ∧ ifuReq (clock s i) = ifuReq s := by
  have hq : (ifuPort s i).bus.ready = false := ho.busResp.trans hresp
  obtain ⟨ha, hlen, hbeat, _, _⟩ := AxiMaster.next_keeps (axiReq s i) ho.busy hresp
  have hs : (clock s i).ifu.state = .refill := by
    rw [clock_ifu]
    simp [Ifu.next, ho.refill, Ifu.refillFire, hq]
  have hb : (clock s i).ifu.refillBeatQ = s.ifu.refillBeatQ := by
    rw [clock_ifu]
    simp [Ifu.next, ho.refill, Ifu.refillFire, hq]
  have hm : (clock s i).ifu.missLineAddrQ = s.ifu.missLineAddrQ := by
    rw [clock_ifu]
    simp [Ifu.next, ho.refill, Ifu.refillFire, hq]
  refine ⟨⟨hs, ho.next_xw_empty h hr, ?_, ?_, ?_, ?_⟩, ?_⟩
  · rw [clock_axi, hb]
    rcases ho.phase with hp | hp
    · cases har : i.axi.arready <;> simp [AxiMaster.next, hp, har]
    · exact Or.inr (AxiMaster.next_waiting hp hresp)
  · rw [hm, ← ho.addr]
    exact ha
  · exact hlen.trans ho.len
  · rw [hb, ← ho.beat]
    exact hbeat
  · simp only [ifuReq, Ifu.busReq, hs, hm, ho.refill]

omit h hr in
theorem beat_last (b : BitVec 2) : (b.setWidth 8 == 3#8) = (b == 3#2) := by
  revert b
  decide

omit h hr in
theorem beat_succ (b : BitVec 2) (hb : (b == 3#2) = false) :
    b.setWidth 8 + 1#8 = (b + 1#2).setWidth 8 := by
  revert b
  decide

/-- A beat moves the counters of the fetch unit and of the master together, so
both see the same last beat. -/
theorem IfuOwns.beat_step (ho : IfuOwns s) (hresp : (axiResp s i).ready = true)
    (hlast : AxiMaster.readFire s.axi i.axi = true → i.axi.rlast = true →
      s.axi.readBeatQ = s.axi.lenQ) :
    if s.ifu.refillBeatQ == 3#2 then
      (clock s i).axi.state = .idle ∧ (clock s i).ifu.state = .idle
    else IfuOwns (clock s i) ∧ ifuReq (clock s i) = ifuReq s := by
  have hq : (ifuPort s i).bus.ready = true := ho.busResp.trans hresp
  have hp : s.axi.state = .readData := by
    rcases AxiMaster.resp_phase hresp with hp | hp
    · exact hp
    · rcases ho.phase with hp' | hp'
      · rw [hp'.1] at hp; exact absurd hp (by decide)
      · exact hp'
  have hf : AxiMaster.readFire s.axi i.axi = true := by
    simpa [axiResp, AxiMaster.resp, AxiMaster.writeDone, hp] using hresp
  have hrl : AxiMaster.readLast s.axi i.axi = (s.ifu.refillBeatQ == 3#2) := by
    rw [AxiMaster.readLast, hf, Bool.true_and, ← beat_last, ← ho.beat, ← ho.len]
    cases hl : i.axi.rlast with
    | false => simp
    | true => simp [hlast hf hl]
  have hrf : Ifu.refillFire s.ifu (ifuPort s i) = true := by
    simp [Ifu.refillFire, ho.refill, hq]
  cases hb : s.ifu.refillBeatQ == 3#2 with
  | true =>
    rw [hb] at hrl
    simp [AxiMaster.next, hp, hf, hrl, Ifu.next, ho.refill, hrf, Ifu.refillLast, hb]
  | false =>
    rw [hb] at hrl
    have hs : (clock s i).ifu.state = .refill := by
      simp [Ifu.next, ho.refill, hrf, Ifu.refillLast, hb]
    have hm : (clock s i).ifu.missLineAddrQ = s.ifu.missLineAddrQ := by
      simp [Ifu.next, ho.refill, hrf]
    refine ⟨⟨hs, ho.next_xw_empty h hr, ?_, ?_, ?_, ?_⟩, ?_⟩
    · right
      simp [AxiMaster.next, hp, hf, hrl]
    · rw [hm, ← ho.addr]
      simp [AxiMaster.next, hp, hf]
    · rw [← ho.len]
      simp [AxiMaster.next, hp, hf]
    · simp [AxiMaster.next, hp, hf, Ifu.next, ho.refill, hrf, ho.beat, beat_succ _ hb]
    · simp only [ifuReq, Ifu.busReq, hs, hm, ho.refill]

/-- The master is idle or serves one unit, provided the slave does not end a
read early. -/
theorem Ownership.clock (ho : Ownership s i) (hj : j.reset = false)
    (hlast : AxiMaster.readFire s.axi i.axi = true → i.axi.rlast = true →
      s.axi.readBeatQ = s.axi.lenQ) : Ownership (clock s i) j := by
  cases ho with
  | idle hi hu =>
    have hu' := untouched_clock hu (ifu_idle_bus (i := i) hi)
    cases hl : lsuArbValid s i with
    | true => exact .lsu (idle_lsu_step h hr hj hi hl).1 hu'
    | false =>
      rcases ifu_idle_or_refill s.ifu with hs | hs
      · exact .idle (idle_idle_step hi hl hs) hu'
      · exact .ifu (idle_ifu_step h hr hi hu hl hs).1
  | ifu ho =>
    cases hresp : (axiResp s i).ready with
    | false => exact .ifu (ho.wait h hr hresp).1
    | true =>
      have hstep := ho.beat_step h hr hresp hlast
      split at hstep
      · refine .idle hstep.1 ?_
        intro hs
        rw [hstep.2] at hs
        exact absurd hs (by decide)
      · exact .ifu hstep.1
  | lsu ho hu =>
    have hu' := untouched_clock hu (ifu_unselected ho.valid)
    cases hresp : (axiResp s i).ready with
    | false => exact .lsu (ho.stay h hr hj hresp).1 hu'
    | true => exact .idle (ho.answered h hr hresp).2.1 hu'

end Step

namespace Run
variable {r : Run}

theorem Conforming.not_early (hc : r.Conforming) (n : Nat)
    (hf : AxiMaster.readFire (r.state n).axi (r.input n).axi = true)
    (hl : (r.input n).axi.rlast = true) :
    (r.state n).axi.readBeatQ = (r.state n).axi.lenQ := (hc.rlast_iff hf).mp hl

theorem Conforming.ownership (hc : r.Conforming) (n : Nat) :
    Ownership (r.state n) (r.input n) := by
  induction n with
  | zero => exact .idle rfl (fun hs => absurd hs (by intro hf; cases hf))
  | succ n ih => exact ih.clock (r.occupancy n) rfl rfl (hc.not_early n)

/-- Cycle `b` belongs to the transaction the master started in cycle `a`. -/
structure Busy (r : Run) (a b : Nat) : Prop where
  lt : a < b
  start : (r.state a).axi.state = .idle
  busy : ∀ m, a < m → m ≤ b → (r.state m).axi.state ≠ .idle

/-- The owner of the master in cycle `m`, seen from the cycle `a` it was started in. -/
def OwnerKept (r : Run) (a m : Nat) : Prop :=
  if lsuArbValid (r.state a) (r.input a) then
    LsuOwns (r.state m) (r.input m) ∧
      lsuReq (r.state m) (r.input m) = lsuReq (r.state a) (r.input a)
  else IfuOwns (r.state m) ∧ ifuReq (r.state m) = ifuReq (r.state a)

theorem Conforming.owner_start (hc : r.Conforming) {a : Nat}
    (hi : (r.state a).axi.state = .idle) (hb : (r.state (a + 1)).axi.state ≠ .idle) :
    r.OwnerKept a (a + 1) := by
  have h := r.occupancy a
  have hu := (hc.ownership a).untouched_of_idle hi
  unfold OwnerKept
  split
  · rename_i hl
    exact idle_lsu_step h rfl rfl hi hl
  · rename_i hl
    rw [Bool.not_eq_true] at hl
    rcases ifu_idle_or_refill (r.state a).ifu with hs | hs
    · exact absurd (idle_idle_step hi hl hs) hb
    · exact idle_ifu_step h rfl hi hu hl hs

theorem Conforming.owner_step (hc : r.Conforming) {a m : Nat} (ho : r.OwnerKept a m)
    (hb : (r.state (m + 1)).axi.state ≠ .idle) : r.OwnerKept a (m + 1) := by
  have h := r.occupancy m
  unfold OwnerKept at ho ⊢
  split at ho
  · rename_i hl
    rw [if_pos hl]
    cases hresp : (axiResp (r.state m) (r.input m)).ready with
    | false =>
      obtain ⟨hown, hsame⟩ := ho.1.stay h rfl (j := r.input (m + 1)) rfl hresp
      exact ⟨hown, hsame.trans ho.2⟩
    | true => exact absurd (ho.1.answered h rfl hresp).2.1 hb
  · rename_i hl
    rw [if_neg hl]
    cases hresp : (axiResp (r.state m) (r.input m)).ready with
    | false =>
      obtain ⟨hown, hsame⟩ := ho.1.wait h rfl hresp
      exact ⟨hown, hsame.trans ho.2⟩
    | true =>
      have hstep := ho.1.beat_step h rfl hresp (hc.not_early m)
      split at hstep
      · exact absurd hstep.1 hb
      · exact ⟨hstep.1, hstep.2.trans ho.2⟩

theorem Conforming.owner (hc : r.Conforming) {a b : Nat} (hb : r.Busy a b) : r.OwnerKept a b := by
  refine Clocked.stays (P := r.OwnerKept a) (D := fun m => (r.state (m + 1)).axi.state = .idle)
    hb.lt (hc.owner_start hb.start (hb.busy (a + 1) (Nat.lt_succ_self a) hb.lt)) ?_ ?_
  · intro m h1 h2
    exact hb.busy (m + 1) (Nat.lt_succ_of_lt h1) h2
  · intro m ho hd
    exact hc.owner_step ho hd

/-- Bus responses reach their requester: as long as the master is busy the
arbiter selects the unit it selected when the master left idle, the request of
this unit is unchanged and is what the master latched, and every response goes
to it and to it only. -/
theorem responses_delivered (hc : r.Conforming) {a b : Nat} (hb : r.Busy a b) :
    (lsuArbValid (r.state b) (r.input b) = lsuArbValid (r.state a) (r.input a)) ∧
    (axiReq (r.state b) (r.input b) = axiReq (r.state a) (r.input a)) ∧
    (lsuArbValid (r.state a) (r.input a) = true →
      lsuReq (r.state b) (r.input b) = lsuReq (r.state a) (r.input a) ∧
      (r.state b).axi.wdataQ = (lsuReq (r.state a) (r.input a)).wdata ∧
      (r.state b).axi.wmaskQ = (lsuReq (r.state a) (r.input a)).wmask) ∧
    (r.state b).axi.addrQ = (axiReq (r.state a) (r.input a)).addr ∧
    (r.state b).axi.lenQ = (axiReq (r.state a) (r.input a)).len ∧
    ((axiResp (r.state b) (r.input b)).ready = true →
      (lsuArbResp (r.state b) (r.input b)).ready = lsuArbValid (r.state a) (r.input a) ∧
      (ifuBusResp (r.state b) (r.input b)).ready = !lsuArbValid (r.state a) (r.input a)) := by
  have ho := hc.owner hb
  unfold OwnerKept at ho
  split at ho
  · rename_i hl
    obtain ⟨hown, hsame⟩ := ho
    have hlb := hown.valid
    have hreq : axiReq (r.state b) (r.input b) = axiReq (r.state a) (r.input a) := by
      simp only [axiReq, AxiArbiter.bus, AxiArbiter.useLsu, AxiArbiter.useIfu, hsame, lsuReq_valid,
        hl]
      simp
    refine ⟨hlb.trans hl.symm, hreq, fun _ => ⟨hsame, ?_, ?_⟩, ?_, ?_, ?_⟩
    · rw [hown.wdata, hsame]
    · rw [hown.wmask, hsame]
    · rw [hown.addr, hsame]
      simp [axiReq, AxiArbiter.bus, AxiArbiter.useLsu, lsuReq_valid, hl]
    · rw [hown.len]
      simp [axiReq, AxiArbiter.bus, AxiArbiter.useLsu, lsuReq_valid, hl]
    · intro hresp
      simp [lsuArbResp, AxiArbiter.lsuResp, ifuBusResp, AxiArbiter.ifuResp, AxiArbiter.useLsu,
        AxiArbiter.useIfu, lsuReq_valid, hl, hlb, hresp]
  · rename_i hl
    rw [Bool.not_eq_true] at hl
    obtain ⟨hown, hsame⟩ := ho
    have hlb : lsuArbValid (r.state b) (r.input b) = false := hown.not_arb
    have hreq : axiReq (r.state b) (r.input b) = axiReq (r.state a) (r.input a) := by
      simp [axiReq, AxiArbiter.bus, AxiArbiter.useLsu, AxiArbiter.useIfu, hsame, lsuReq_valid,
        hl, hlb]
    have haddr : (r.state b).ifu.missLineAddrQ = (r.state a).ifu.missLineAddrQ :=
      congrArg BusReq.addr hsame
    refine ⟨hlb.trans hl.symm, hreq, ?_, ?_, ?_, ?_⟩
    · intro hl'
      rw [hl] at hl'
      exact absurd hl' (by decide)
    · rw [hown.addr]
      simp [axiReq, AxiArbiter.bus, AxiArbiter.useLsu, lsuReq_valid, hl, haddr, ifuReq, Ifu.busReq]
    · rw [hown.len]
      simp [axiReq, AxiArbiter.bus, AxiArbiter.useLsu, lsuReq_valid, hl, ifuReq, Ifu.busReq]
    · intro hresp
      rw [hown.busResp, hresp]
      simp [lsuArbResp, AxiArbiter.lsuResp, AxiArbiter.useLsu, lsuReq_valid, hl, hlb]

theorem responses_delivered_refill :
    nopRun.Busy 1 4 ∧
    (axiResp (nopRun.state 4) (nopRun.input 4)).ready = true ∧
    (ifuBusResp (nopRun.state 4) (nopRun.input 4)).ready =
      !lsuArbValid (nopRun.state 1) (nopRun.input 1) := by
  have hb : nopRun.Busy 1 4 := by
    have hall : ∀ m, m < 5 → 1 < m → (nopRun.state m).axi.state ≠ .idle := by decide +kernel
    refine ⟨by decide, by decide +kernel, ?_⟩
    intro m h1 h2
    exact hall m (Nat.lt_succ_of_le h2) h1
  have hr : (axiResp (nopRun.state 4) (nopRun.input 4)).ready = true := by decide +kernel
  exact ⟨hb, hr, ((responses_delivered nopRun_conforming hb).2.2.2.2.2 hr).2⟩

end Run

end Npc.Core
