import AiOsoc.Npc.Transactions
import AiOsoc.Npc.Sequential

/-!
# Progress

The core never gets stuck: against a slave that answers every request it
retires instruction after instruction, unless it halts. Each stage hands its
instruction on, W waits for its access only, and a refill ends after its four
beats, also when its first word is thrown away behind a redirect.
-/

namespace Npc.Core

set_option autoImplicit false

open Clocked

/-- The stages behind the fetch unit are empty. -/
structure Drained (s : State) : Prop where
  fd : s.fdValid = false
  dx : s.dxValid = false
  xw : s.xwValid = false

section Step
variable {s : State} {i : Input} (h : Occupancy s) (hr : i.reset = false)
include h

theorem IfuOwns.drained (ho : IfuOwns s) : Drained s :=
  ⟨h.fd_empty_of_refill ho.refill, h.dx_empty_of_refill ho.refill, ho.xw_empty⟩

omit h in
theorem Drained.no_redirect (hd : Drained s) : redirect s i = false := by
  simp [redirect, no_xRedirect hd.dx, no_wRedirect (not_retire_of_xw_empty hd.xw)]

/-- Without a word for F/D the stages stay empty. -/
theorem Drained.clock (hd : Drained s) (hr : i.reset = false) (hc : capture s i = false) :
    Drained (clock s i) := by
  refine ⟨?_, ?_, ?_⟩
  · simp [h.next_fdValid, hc, hd.fd]
  · simp [h.next_dxValid, hd.fd]
  · simp [h.next_xwValid hr, hd.dx, hd.xw]

omit h in
theorem Drained.halted_clock (hd : Drained s) : (Core.clock s i).halted = s.halted := by
  rw [clock_halted, not_retire_of_xw_empty hd.xw]
  simp

theorem Drained.drop_clock (hd : Drained s) :
    (Core.clock s i).dropFetchResponse = (s.dropFetchResponse && !ifuInstReady s i) := by
  rw [h.next_drop, no_wRedirect (not_retire_of_xw_empty hd.xw)]
  simp

end Step

namespace Run
variable {r : Run}

/-! ## W -/

/-- What retires or what stands still. -/
def Moves (r : Run) (n : Nat) : Prop :=
  wRetireReady (r.state n) (r.input n) = true ∨ (r.state n).halted = true

theorem retire_of_not_arb {n : Nat} (hx : (r.state n).xwValid = true)
    (hl : lsuArbValid (r.state n) (r.input n) = false) :
    wRetireReady (r.state n) (r.input n) = true := by
  have h := r.occupancy n
  have hm := wMemReadyNow_of_not_arb (i := r.input n) rfl (h.xw_running hx) hl
  rw [h.wRetireReady_eq rfl, hx, hm]
  rfl

/-- An instruction in W retires: its access gets the bus, because a refill that
holds the bus has let no instruction into W. -/
theorem w_leads (hc : r.Conforming) (hr : r.Responsive) :
    LeadsTo (fun n => (r.state n).xwValid = true) r.Moves := by
  have howned : LeadsTo (fun n => LsuOwns (r.state n) (r.input n)) r.Moves := by
    intro n ho
    obtain ⟨t, hw, hresp⟩ := hr.answered ho
    exact ⟨t, hw.le, Or.inl (hw.owns.answered (r.occupancy t) rfl hresp).1⟩
  intro n hx
  have h := r.occupancy n
  cases hl : lsuArbValid (r.state n) (r.input n) with
  | false => exact ⟨n, Nat.le_refl n, Or.inl (retire_of_not_arb hx hl)⟩
  | true =>
    cases hc.ownership n with
    | lsu ho _ => exact howned n ho
    | ifu ho =>
      rw [ho.xw_empty] at hx
      exact absurd hx (by decide)
    | idle hi _ =>
      have ho := (idle_lsu_step h rfl (j := r.input (n + 1)) rfl hi hl).1
      obtain ⟨t, ht, hm⟩ := howned (n + 1) ho
      exact ⟨t, by omega, hm⟩

/-! ## X and D -/

theorem x_to_w {n : Nat} (hd : (r.state n).dxValid = true) :
    (r.state (n + 1)).xwValid = true := by
  rw [r.state_succ, (r.occupancy n).next_xwValid rfl, hd]
  rfl

theorem d_to_x {n : Nat} (hf : (r.state n).fdValid = true) (hx : (r.state n).xwValid = false) :
    (r.state (n + 1)).dxValid = true := by
  rw [r.state_succ, (r.occupancy n).next_dxValid, hf]
  simp [wStageStall, hx, no_wRedirect (not_retire_of_xw_empty hx)]

theorem x_leads (hc : r.Conforming) (hr : r.Responsive) :
    LeadsTo (fun n => (r.state n).dxValid = true) r.Moves := by
  refine LeadsTo.trans ?_ (w_leads hc hr)
  intro n hd
  exact ⟨n + 1, Nat.le_succ n, x_to_w hd⟩

theorem d_leads (hc : r.Conforming) (hr : r.Responsive) :
    LeadsTo (fun n => (r.state n).fdValid = true) r.Moves := by
  intro n hf
  cases hx : (r.state n).xwValid with
  | true => exact w_leads hc hr n hx
  | false =>
    obtain ⟨m, hm, hmove⟩ := x_leads hc hr (n + 1) (d_to_x hf hx)
    exact ⟨m, by omega, hmove⟩

/-! ## Refills -/

def answers (r : Run) (n : Nat) : Prop := (axiResp (r.state n) (r.input n)).ready = true

theorem no_answer_of_readAddr {n : Nat} (hp : (r.state n).axi.state = .readAddr) :
    ¬ r.answers n := by
  simp [answers, axiResp, AxiMaster.resp, AxiMaster.readFire, AxiMaster.writeDone, hp]

theorem answers_of_readData {n : Nat} (hp : (r.state n).axi.state = .readData) :
    r.answers n ↔ (r.axi n).rvalid = true := by
  simp [answers, axiResp, AxiMaster.resp, AxiMaster.readFire, AxiMaster.writeDone, hp, input]

theorem refill_wait {n : Nat} (ho : IfuOwns (r.state n)) (hn : ¬ r.answers n) :
    IfuOwns (r.state (n + 1)) :=
  (ho.wait (r.occupancy n) rfl (Bool.eq_false_iff.mpr hn)).1

/-- The slave answers the refill some time. -/
theorem refill_answered (hr : r.Responsive) :
    LeadsTo (fun n => IfuOwns (r.state n)) r.answers := by
  have hdata : LeadsTo (fun n => IfuOwns (r.state n) ∧ (r.state n).axi.state = .readData)
      r.answers := by
    rintro n ⟨ho, hp⟩
    have hev := hr.read n (by simp [AxiMaster.rready, hp])
    have hkeep : ∀ m, IfuOwns (r.state m) ∧ (r.state m).axi.state = .readData →
        ¬ (r.axi m).rvalid = true →
        IfuOwns (r.state (m + 1)) ∧ (r.state (m + 1)).axi.state = .readData := by
      rintro m ⟨hom, hpm⟩ hv
      have hn : ¬ r.answers m := fun ha => hv ((answers_of_readData hpm).mp ha)
      exact ⟨refill_wait hom hn, AxiMaster.next_waiting hpm (Bool.eq_false_iff.mpr hn)⟩
    obtain ⟨m, hnm, ⟨_, hpm⟩, hv⟩ := leads ⟨ho, hp⟩ hkeep hev
    exact ⟨m, hnm, (answers_of_readData hpm).mpr hv⟩
  have haddr : LeadsTo (fun n => IfuOwns (r.state n) ∧ (r.state n).axi.state = .readAddr)
      (fun n => IfuOwns (r.state n) ∧ (r.state n).axi.state = .readData) := by
    refine LeadsTo.wait (D := fun n => (r.axi n).arready = true) ?_ ?_ ?_
    · rintro n ⟨_, hp⟩
      exact hr.ar n (by simp [AxiMaster.arvalid, hp])
    · rintro n ⟨ho, hp⟩ hv
      refine ⟨refill_wait ho (no_answer_of_readAddr hp), ?_⟩
      rw [r.state_axi_succ]
      simp [AxiMaster.next, hp, hv]
    · rintro n ⟨ho, hp⟩ hv
      refine ⟨refill_wait ho (no_answer_of_readAddr hp), ?_⟩
      rw [r.state_axi_succ]
      simp [AxiMaster.next, hp, hv]
  intro n ho
  rcases ho.phase with hp | hp
  · exact (haddr.trans hdata) n ⟨ho, hp.1⟩
  · exact hdata n ⟨ho, hp⟩

/-- A refill that the master serves, `left` beats before its last one. -/
structure Filling (r : Run) (drop : Bool) (left : Nat) (n : Nat) : Prop where
  owns : IfuOwns (r.state n)
  drop : (r.state n).dropFetchResponse = drop
  left : (r.state n).ifu.refillBeatQ.toNat + left = 3

theorem Filling.ready_iff {drop : Bool} {left n : Nat} (hf : r.Filling drop left n) :
    ifuInstReady (r.state n) (r.input n) = true ↔ r.answers n ∧ left = 0 := by
  have hbus : (ifuPort (r.state n) (r.input n)).bus.ready =
      (axiResp (r.state n) (r.input n)).ready := hf.owns.busResp
  have hbeat : (r.state n).ifu.refillBeatQ = 3#2 ↔ left = 0 := by
    have hleft := hf.left
    constructor
    · intro he
      rw [he] at hleft
      simpa using hleft
    · intro hz
      apply BitVec.eq_of_toNat_eq
      simpa [hz] using hleft
  simp [ifuInstReady, Ifu.instReady, Ifu.refillLast, Ifu.refillFire, hf.owns.refill, hbus, hbeat,
    answers]

theorem Filling.not_ready {drop : Bool} {left n : Nat} (hf : r.Filling drop left n)
    (hn : ¬ (r.answers n ∧ left = 0)) :
    (r.state (n + 1)).dropFetchResponse = drop := by
  have hnr : ifuInstReady (r.state n) (r.input n) = false := by
    rw [Bool.eq_false_iff, Ne, hf.ready_iff]
    exact hn
  have h := r.occupancy n
  rw [r.state_succ, (hf.owns.drained h).drop_clock h, hnr, hf.drop]
  simp

theorem Filling.wait {drop : Bool} {left n : Nat} (hf : r.Filling drop left n)
    (hn : ¬ r.answers n) : r.Filling drop left (n + 1) := by
  have hbus : (ifuPort (r.state n) (r.input n)).bus.ready = false :=
    hf.owns.busResp.trans (Bool.eq_false_iff.mpr hn)
  have hbeat : (r.state (n + 1)).ifu.refillBeatQ = (r.state n).ifu.refillBeatQ := by
    rw [r.state_succ, clock_ifu]
    simp [Ifu.next, hf.owns.refill, Ifu.refillFire, hbus]
  exact ⟨refill_wait hf.owns hn, hf.not_ready (fun hc => hn hc.1), by rw [hbeat, hf.left]⟩

theorem Filling.beat (hc : r.Conforming) {drop : Bool} {left n : Nat}
    (hf : r.Filling drop (left + 1) n) (ha : r.answers n) : r.Filling drop left (n + 1) := by
  have hleft := hf.left
  have hne : ((r.state n).ifu.refillBeatQ == 3#2) = false := by
    rw [beq_eq_false_iff_ne]
    intro he
    rw [he] at hleft
    simp at hleft
  have hstep := hf.owns.beat_step (r.occupancy n) rfl ha (hc.not_early n)
  rw [hne] at hstep
  have hbus : (ifuPort (r.state n) (r.input n)).bus.ready = true := hf.owns.busResp.trans ha
  have hbeat : (r.state (n + 1)).ifu.refillBeatQ = (r.state n).ifu.refillBeatQ + 1#2 := by
    rw [r.state_succ, clock_ifu]
    simp [Ifu.next, hf.owns.refill, Ifu.refillFire, hbus]
  refine ⟨hstep.1, hf.not_ready (by simp), ?_⟩
  rw [hbeat, BitVec.toNat_add]
  simp only [BitVec.toNat_ofNat]
  omega

/-- A refill delivers its word. -/
theorem filling_leads (hc : r.Conforming) (hr : r.Responsive) (drop : Bool) (left : Nat) :
    LeadsTo (r.Filling drop left)
      (fun n => r.Filling drop 0 n ∧ r.answers n) := by
  induction left with
  | zero =>
    intro n hf
    obtain ⟨m, hnm, hfm, ha⟩ := leads hf (fun m hm hn => hm.wait hn) (refill_answered hr n hf.owns)
    exact ⟨m, hnm, hfm, ha⟩
  | succ left ih =>
    refine LeadsTo.trans (LeadsTo.wait (D := r.answers) ?_ ?_ ?_) ih
    · intro n hf
      exact refill_answered hr n hf.owns
    · intro n hf hn
      exact hf.wait hn
    · intro n hf ha
      exact hf.beat hc ha

/-! ## Fetches -/

/-- Nothing but a refill is going on. -/
def Refilling (r : Run) (drop : Bool) (n : Nat) : Prop :=
  Drained (r.state n) ∧ (r.state n).ifu.state = .refill ∧ (r.state n).dropFetchResponse = drop

theorem filling_of_owns {n : Nat} (ho : IfuOwns (r.state n)) :
    ∃ left, r.Filling (r.state n).dropFetchResponse left n := by
  have hlt := (r.state n).ifu.refillBeatQ.isLt
  exact ⟨3 - (r.state n).ifu.refillBeatQ.toNat, ho, rfl, by omega⟩

/-- With empty stages the refill has the bus, or it gets it on this edge. -/
theorem Refilling.filling (hc : r.Conforming) {drop : Bool} {n : Nat} (hf : r.Refilling drop n) :
    (∃ left, r.Filling drop left n) ∨ ∃ left, r.Filling drop left (n + 1) := by
  obtain ⟨hdr, hs, hd⟩ := hf
  have h := r.occupancy n
  have hl : lsuArbValid (r.state n) (r.input n) = false := not_lsuArbValid hdr.xw
  cases hc.ownership n with
  | ifu ho =>
    rw [← hd]
    exact Or.inl (filling_of_owns ho)
  | lsu ho _ =>
    rw [ho.valid] at hl
    exact absurd hl (by decide)
  | idle hi hu =>
    have hbus : (ifuPort (r.state n) (r.input n)).bus.ready = false := ifu_idle_bus hi
    have hnr : ifuInstReady (r.state n) (r.input n) = false := by
      simp [ifuInstReady, Ifu.instReady, Ifu.refillLast, Ifu.refillFire, hs, hbus]
    have hd' : (r.state (n + 1)).dropFetchResponse = drop := by
      rw [r.state_succ, hdr.drop_clock h, hnr, hd]
      simp
    rw [← hd']
    exact Or.inr (filling_of_owns (idle_ifu_step h rfl hi hu hl hs).1)

/-- After a refill its word is in F/D, or the fetch unit is free for the fetch
behind the redirect. -/
def Refilled (r : Run) (drop : Bool) (n : Nat) : Prop :=
  if drop then Drained (r.state n) ∧ (r.state n).ifu.state = .idle
  else (r.state n).fdValid = true

theorem Filling.ends {drop : Bool} {n : Nat} (hf : r.Filling drop 0 n) (ha : r.answers n) :
    r.Refilled drop (n + 1) := by
  have h := r.occupancy n
  have hdr := hf.owns.drained h
  have hready := hf.ready_iff.mpr ⟨ha, rfl⟩
  have hno := hdr.no_redirect (i := r.input n)
  cases drop with
  | true =>
    have hcap : capture (r.state n) (r.input n) = false := by simp [capture, hf.drop]
    exact ⟨hdr.clock h rfl hcap, clock_idle_of_ready hready⟩
  | false =>
    have hcap : capture (r.state n) (r.input n) = true := by
      simp [capture, hf.drop, hready, hno]
    rw [Refilled, if_neg (by decide), r.state_succ, h.next_fdValid, hcap]
    rfl

theorem refilling_ends (hc : r.Conforming) (hr : r.Responsive) (drop : Bool) :
    LeadsTo (r.Refilling drop) (r.Refilled drop) := by
  have hfill : ∀ left, LeadsTo (r.Filling drop left) (r.Refilled drop) := by
    intro left n hf
    obtain ⟨m, hnm, hfm, ha⟩ := filling_leads hc hr drop left n hf
    exact ⟨m + 1, by omega, hfm.ends ha⟩
  intro n hf
  rcases hf.filling hc with ⟨left, hl⟩ | ⟨left, hl⟩
  · exact hfill left n hl
  · obtain ⟨m, hm, hq⟩ := hfill left (n + 1) hl
    exact ⟨m, by omega, hq⟩

/-- One cycle of a free fetch unit: a hit is captured, a miss starts a refill. -/
theorem fetch_step {n : Nat} (hdr : Drained (r.state n)) (hs : (r.state n).ifu.state = .idle)
    (hh : (r.state n).halted = false) :
    (r.state (n + 1)).fdValid = true ∨ r.Refilling false (n + 1) := by
  have h := r.occupancy n
  have hno := hdr.no_redirect (i := r.input n)
  have hdrop := h.not_drop_of_idle hs
  have hfv : ifuFetchValid (r.state n) (r.input n) = true :=
    ifuFetchValid_iff.mpr ⟨hh, rfl, hdr.fd, hdrop, hno⟩
  cases hready : ifuInstReady (r.state n) (r.input n) with
  | true =>
    left
    rw [r.state_succ, h.next_fdValid]
    simp [capture, hready, hdrop, hno]
  | false =>
    right
    have hcap : capture (r.state n) (r.input n) = false := by simp [capture, hready]
    refine ⟨hdr.clock h rfl hcap, clock_refill_iff.mpr (Or.inl ⟨hs, hfv, hready⟩), ?_⟩
    rw [r.state_succ, hdr.drop_clock h, hdrop]
    rfl

theorem fetch_leads (hc : r.Conforming) (hr : r.Responsive) :
    LeadsTo (r.Refilled true)
      (fun n => (r.state n).fdValid = true ∨ (r.state n).halted = true) := by
  rintro n ⟨hdr, hs⟩
  cases hh : (r.state n).halted with
  | true => exact ⟨n, Nat.le_refl n, Or.inr hh⟩
  | false =>
    rcases fetch_step hdr hs hh with hf | hf
    · exact ⟨n + 1, Nat.le_succ n, Or.inl hf⟩
    · obtain ⟨m, hm, hfm⟩ := refilling_ends hc hr false (n + 1) hf
      exact ⟨m, by omega, Or.inl hfm⟩

/-- What the core is doing in a cycle: an instruction is in a stage, a refill is
under way, or the fetch unit is free. -/
theorem activity (r : Run) (n : Nat) :
    (r.state n).fdValid = true ∨ (r.state n).dxValid = true ∨ (r.state n).xwValid = true ∨
      (∃ drop, r.Refilling drop n) ∨ r.Refilled true n := by
  cases hf : (r.state n).fdValid with
  | true => exact Or.inl rfl
  | false =>
    cases hd : (r.state n).dxValid with
    | true => exact Or.inr (Or.inl rfl)
    | false =>
      cases hx : (r.state n).xwValid with
      | true => exact Or.inr (Or.inr (Or.inl rfl))
      | false =>
        rcases ifu_idle_or_refill (r.state n).ifu with hs | hs
        · exact Or.inr (Or.inr (Or.inr (Or.inr ⟨⟨hf, hd, hx⟩, hs⟩)))
        · exact Or.inr (Or.inr (Or.inr (Or.inl ⟨_, ⟨hf, hd, hx⟩, hs, rfl⟩)))

/-- From every cycle on an instruction retires, or the core has halted. -/
theorem always_moves (hc : r.Conforming) (hr : r.Responsive) (n : Nat) :
    ∃ m, n ≤ m ∧ r.Moves m := by
  have hfd : LeadsTo (fun n => (r.state n).fdValid = true ∨ (r.state n).halted = true) r.Moves := by
    rintro k (hf | hh)
    · exact d_leads hc hr k hf
    · exact ⟨k, Nat.le_refl k, Or.inr hh⟩
  have hidle := (fetch_leads hc hr).trans hfd
  rcases r.activity n with hf | hd | hx | ⟨drop, hf⟩ | hi
  · exact d_leads hc hr n hf
  · exact x_leads hc hr n hd
  · exact w_leads hc hr n hx
  · cases drop with
    | true => exact ((refilling_ends hc hr true).trans hidle) n hf
    | false => exact ((refilling_ends hc hr false).trans (d_leads hc hr)) n hf
  · exact hidle n hi

theorem retired_length (n : Nat) : (log r.retired (n + 1)).length = (log r.retired n).length +
    if wRetireReady (r.state n) (r.input n) then 1 else 0 := by
  simp only [log, List.length_append, retired]
  split <;> rfl

theorem count_reached (hc : r.Conforming) (hr : r.Responsive) (k : Nat) : ∃ n,
    (log r.retired n).length = k ∨
      ((log r.retired n).length < k ∧ (r.state n).halted = true) := by
  induction k with
  | zero => exact ⟨0, Or.inl rfl⟩
  | succ k ih =>
    obtain ⟨n, hn | ⟨hlt, hh⟩⟩ := ih
    · -- no instruction retires before the first move after cycle `n`
      have hkeep : ∀ m, (log r.retired m).length = k → ¬ r.Moves m →
          (log r.retired (m + 1)).length = k := by
        intro m hm hno
        rw [retired_length, if_neg (fun hret => hno (Or.inl hret)), hm, Nat.add_zero]
      obtain ⟨m, _, hm, hmove⟩ := leads (P := fun m => (log r.retired m).length = k) hn hkeep
        (always_moves hc hr n)
      rcases hmove with hret | hh
      · refine ⟨m + 1, Or.inl ?_⟩
        rw [retired_length, if_pos hret, hm]
      · exact ⟨m, Or.inr ⟨by omega, hh⟩⟩
    · exact ⟨n, Or.inr ⟨by omega, hh⟩⟩

/-- The pipeline makes progress. For every number of instructions there is a
cycle before which exactly that many have retired, unless the core halts earlier;
and what has retired is an execution of the sequential machine. -/
theorem retires_forever (hc : r.Conforming) (hr : r.Responsive) (k : Nat) : ∃ n,
    Trace Retires (Arch.boot r.resetPc) (log r.retired n) (arch (r.state n)) ∧
      ((log r.retired n).length = k ∨
        ((log r.retired n).length < k ∧ (r.state n).halted = true)) := by
  obtain ⟨n, hn⟩ := count_reached hc hr k
  exact ⟨n, simulation (fun n => arch (r.state n)) r.matched n, hn⟩

theorem retires_forever_store : ∃ n, (log storeRun.retired n).length = 5 ∨
    ((log storeRun.retired n).length < 5 ∧ (storeRun.state n).halted = true) := by
  obtain ⟨n, _, hn⟩ := retires_forever (r := storeRun) (eagerRun_conforming _ _)
    (eagerRun_responsive _ _) 5
  exact ⟨n, hn⟩

/-! ## A prompt slave -/

/-- A slave that answers every request in the cycle in which it is made. -/
structure Prompt (r : Run) : Prop where
  ar : ∀ n, AxiMaster.arvalid (r.state n).axi = true → (r.axi n).arready = true
  read : ∀ n, AxiMaster.rready (r.state n).axi = true → (r.axi n).rvalid = true
  aw : ∀ n, AxiMaster.awvalid (r.state n).axi = true → (r.axi n).awready = true
  w : ∀ n, AxiMaster.wvalid (r.state n).axi = true → (r.axi n).wready = true
  b : ∀ n, AxiMaster.bready (r.state n).axi = true → (r.axi n).bvalid = true

theorem Prompt.responsive (hp : r.Prompt) : r.Responsive where
  ar n h := ⟨n, Nat.le_refl n, hp.ar n h⟩
  read n h := ⟨n, Nat.le_refl n, hp.read n h⟩
  aw n h := ⟨n, Nat.le_refl n, hp.aw n h⟩
  w n h := ⟨n, Nat.le_refl n, hp.w n h⟩
  b n h := ⟨n, Nat.le_refl n, hp.b n h⟩

section Prompt
variable (hc : r.Conforming) (hp : r.Prompt)
include hp

theorem Prompt.answers_read {n : Nat} (hs : (r.state n).axi.state = .readData) : r.answers n :=
  (answers_of_readData hs).mpr (hp.read n (by simp [AxiMaster.rready, hs]))

theorem Prompt.answers_write {n : Nat} (hs : (r.state n).axi.state = .writeResp) : r.answers n := by
  have hv := hp.b n (by simp [AxiMaster.bready, hs])
  simp [answers, axiResp, AxiMaster.resp, AxiMaster.writeDone, hs, input, hv]

theorem Prompt.readAddr_next {n : Nat} (hs : (r.state n).axi.state = .readAddr) :
    (r.state (n + 1)).axi.state = .readData := by
  have hv := hp.ar n (by simp [AxiMaster.arvalid, hs])
  rw [r.state_axi_succ]
  simp [AxiMaster.next, hs, hv]

theorem Prompt.writeReq_next {n : Nat} (hs : (r.state n).axi.state = .writeReq) :
    (r.state (n + 1)).axi.state = .writeResp := by
  have haw : ((r.state n).axi.awDone || (r.axi n).awready) = true := by
    cases hd : (r.state n).axi.awDone with
    | true => rfl
    | false => simp [hp.aw n (by simp [AxiMaster.awvalid, hs, hd])]
  have hw : ((r.state n).axi.wDone || (r.axi n).wready) = true := by
    cases hd : (r.state n).axi.wDone with
    | true => rfl
    | false => simp [hp.w n (by simp [AxiMaster.wvalid, hs, hd])]
  rw [r.state_axi_succ, (AxiMaster.next_writeReq _ (r.axi n) hs).2.2, haw, hw]
  rfl

/-- An access that has the bus is answered in this cycle or in the next one. -/
theorem Prompt.lsu_within : Within 1 (fun n => LsuOwns (r.state n) (r.input n)) r.Moves := by
  intro n ho
  have h := r.occupancy n
  by_cases ha : r.answers n
  · exact ⟨n, Nat.le_refl n, by omega, Or.inl (ho.answered h rfl ha).1⟩
  · have hnext := (ho.stay h rfl (j := r.input (n + 1)) rfl (Bool.eq_false_iff.mpr ha)).1
    have hanswer : r.answers (n + 1) := by
      have hq := ho.phase
      split at hq
      · rcases hq with hq | hq
        · exact hp.answers_write (hp.writeReq_next hq)
        · exact absurd (hp.answers_write hq) ha
      · rcases hq with hq | hq
        · exact hp.answers_read (hp.readAddr_next hq)
        · exact absurd (hp.answers_read hq) ha
    exact ⟨n + 1, Nat.le_succ n, Nat.le_refl _,
      Or.inl (hnext.answered (r.occupancy (n + 1)) rfl hanswer).1⟩

include hc

theorem Prompt.w_within : Within 2 (fun n => (r.state n).xwValid = true) r.Moves := by
  intro n hx
  have h := r.occupancy n
  cases hl : lsuArbValid (r.state n) (r.input n) with
  | false => exact ⟨n, Nat.le_refl n, by omega, Or.inl (retire_of_not_arb hx hl)⟩
  | true =>
    cases hc.ownership n with
    | lsu ho _ => exact (hp.lsu_within.mono (by decide)) n ho
    | ifu ho =>
      rw [ho.xw_empty] at hx
      exact absurd hx (by decide)
    | idle hi _ =>
      have ho := (idle_lsu_step h rfl (j := r.input (n + 1)) rfl hi hl).1
      obtain ⟨m, h1, h2, hm⟩ := hp.lsu_within (n + 1) ho
      exact ⟨m, by omega, by omega, hm⟩

theorem Prompt.d_within : Within 4 (fun n => (r.state n).fdValid = true) r.Moves := by
  intro n hf
  cases hx : (r.state n).xwValid with
  | true => exact ((hp.w_within hc).mono (by decide)) n hx
  | false =>
    obtain ⟨m, h1, h2, hm⟩ := hp.w_within hc (n + 2) (x_to_w (d_to_x hf hx))
    exact ⟨m, by omega, by omega, hm⟩

omit hc in
theorem Prompt.data_within (hc : r.Conforming) {drop : Bool} (left : Nat) {n : Nat}
    (hf : r.Filling drop left n) (hs : (r.state n).axi.state = .readData) :
    r.Filling drop 0 (n + left) ∧ r.answers (n + left) := by
  induction left generalizing n with
  | zero => exact ⟨hf, hp.answers_read hs⟩
  | succ left ih =>
    have hnext := hf.beat hc (hp.answers_read hs)
    have hs' : (r.state (n + 1)).axi.state = .readData := by
      rcases hnext.owns.phase with hq | hq
      · -- beat zero is behind
        have h1 := hf.left
        have h2 := hnext.left
        rw [hq.2] at h2
        simp only [BitVec.toNat_ofNat] at h2
        omega
      · exact hq
    have hlast := ih hnext hs'
    have hidx : n + (left + 1) = n + 1 + left := by omega
    rw [hidx]
    exact hlast

theorem Prompt.refill_within (drop : Bool) : Within 6 (r.Refilling drop) (r.Refilled drop) := by
  have hfill : ∀ left n, r.Filling drop left n → ∃ m, n ≤ m ∧ m ≤ n + 5 ∧ r.Refilled drop m := by
    intro left n hf
    have hle := hf.left
    rcases hf.owns.phase with hq | hq
    · have hnext := hf.wait (no_answer_of_readAddr hq.1)
      obtain ⟨hl, ha⟩ := hp.data_within hc left hnext (hp.readAddr_next hq.1)
      exact ⟨n + 1 + left + 1, by omega, by omega, hl.ends ha⟩
    · obtain ⟨hl, ha⟩ := hp.data_within hc left hf hq
      exact ⟨n + left + 1, by omega, by omega, hl.ends ha⟩
  intro n hf
  rcases hf.filling hc with ⟨left, hl⟩ | ⟨left, hl⟩
  · obtain ⟨m, h1, h2, hq⟩ := hfill left n hl
    exact ⟨m, h1, by omega, hq⟩
  · obtain ⟨m, h1, h2, hq⟩ := hfill left (n + 1) hl
    exact ⟨m, by omega, by omega, hq⟩

theorem Prompt.fetch_within : Within 11 (r.Refilled true) r.Moves := by
  have hrefill := (hp.refill_within hc false).trans (hp.d_within hc)
  rintro n ⟨hdr, hs⟩
  cases hh : (r.state n).halted with
  | true => exact ⟨n, Nat.le_refl n, by omega, Or.inr hh⟩
  | false =>
    rcases fetch_step hdr hs hh with hf | hf
    · obtain ⟨m, h1, h2, hm⟩ := hp.d_within hc (n + 1) hf
      exact ⟨m, by omega, by omega, hm⟩
    · obtain ⟨m, h1, h2, hm⟩ := hrefill (n + 1) hf
      exact ⟨m, by omega, by omega, hm⟩

/-- Against a prompt slave the longest wait is that for a dropped refill, a
refill, and an access behind it. -/
theorem Prompt.moves_within (n : Nat) : ∃ m, n ≤ m ∧ m ≤ n + 17 ∧ r.Moves m := by
  have hd := (hp.d_within hc).mono (by decide : 4 ≤ 17)
  rcases r.activity n with hf | hx | hx | ⟨drop, hf⟩ | hi
  · exact hd n hf
  · obtain ⟨m, h1, h2, hm⟩ := hp.w_within hc (n + 1) (x_to_w hx)
    exact ⟨m, by omega, by omega, hm⟩
  · exact ((hp.w_within hc).mono (by decide)) n hx
  · cases drop with
    | true => exact ((hp.refill_within hc true).trans (hp.fetch_within hc)) n hf
    | false => exact (((hp.refill_within hc false).trans (hp.d_within hc)).mono (by decide)) n hf
  · exact ((hp.fetch_within hc).mono (by decide)) n hi

end Prompt

end Run

end Npc.Core
