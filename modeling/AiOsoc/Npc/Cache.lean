import AiOsoc.Npc.Ownership

/-!
# The instruction cache

Where the words in the cache come from. The history of a run records which word
the bus returned for which beat of which refill; a valid line that is not being
overwritten holds such words, all of them younger than the last `fence.i`.
-/

namespace Npc

set_option autoImplicit false

namespace Ifu

/-- Tag and index determine the line. -/
theorem lineAddr_congr {p q : BitVec 32} (ht : tag p = tag q) (hi : index p = index q) :
    lineAddr p = lineAddr q := by
  have hbits : p.extractLsb' 4 28 = q.extractLsb' 4 28 := by
    apply BitVec.eq_of_getLsbD_eq
    intro i hlt
    rw [BitVec.getLsbD_extractLsb', BitVec.getLsbD_extractLsb']
    rcases Nat.eq_zero_or_pos i with rfl | hpos
    · simpa [index] using hi
    · have hb := congrArg (fun t => t.getLsbD (i - 1)) ht
      simp only [tag, BitVec.getLsbD_extractLsb'] at hb
      have h1 : i - 1 < 27 := by omega
      have h2 : 5 + (i - 1) = 4 + i := by omega
      simpa [h1, h2, hlt] using hb
  simp only [lineAddr, hbits]

section Edge
variable {f : State} {p : Port}

theorem next_line : (next f p).line = nextLine f p := by
  cases hs : f.state with
  | idle => cases hm : p.fetchValid && !hit f p <;> simp [next, hs, hm]
  | refill => cases hf : refillFire f p <;> simp [next, hs, hf]

theorem nextLine_quiet (hf : refillFire f p = false) (hi : p.invalidate = false) :
    nextLine f p = f.line := by
  simp [nextLine, hf, hi]

theorem nextLine_invalidate (hf : refillFire f p = false) (hi : p.invalidate = true) (k : Bool) :
    (nextLine f p k).valid = false := by
  simp [nextLine, hf, hi, clearValid]

theorem nextLine_other (hi : p.invalidate = false) {k : Bool} (hk : k ≠ f.missIndexQ) :
    nextLine f p k = f.line k := by
  cases hf : refillFire f p with
  | false => simp [nextLine, hf, hi]
  | true =>
    cases hl : refillLast f p && !refillError f p <;>
      simp [nextLine, hf, hi, hl, writeBeat, setTag, hk]

/-- A beat goes into its flop and into no other. -/
theorem nextLine_data (hf : refillFire f p = true) (hi : p.invalidate = false) (o : BitVec 2) :
    (nextLine f p f.missIndexQ).data o =
      if o = f.refillBeatQ then p.bus.rdata else (f.line f.missIndexQ).data o := by
  cases hl : refillLast f p && !refillError f p <;>
    simp [nextLine, hf, hi, hl, writeBeat, setTag]

/-- Only a last beat without any error changes the tag and sets the valid bit. -/
theorem nextLine_tag (hf : refillFire f p = true) (hi : p.invalidate = false) :
    (nextLine f p f.missIndexQ).valid =
        (refillLast f p && !refillError f p || (f.line f.missIndexQ).valid) ∧
      (nextLine f p f.missIndexQ).tag =
        if refillLast f p && !refillError f p then f.missTagQ else (f.line f.missIndexQ).tag := by
  cases hl : refillLast f p && !refillError f p <;>
    simp [nextLine, hf, hi, hl, writeBeat, setTag]

theorem next_refill_quiet (hs : f.state = .refill) (hf : refillFire f p = false) :
    (next f p).state = .refill ∧ (next f p).missIndexQ = f.missIndexQ ∧
      (next f p).missOffsetQ = f.missOffsetQ ∧ (next f p).missTagQ = f.missTagQ ∧
      (next f p).missLineAddrQ = f.missLineAddrQ ∧ (next f p).refillBeatQ = f.refillBeatQ ∧
      (next f p).refillErrorQ = f.refillErrorQ := by
  simp [next, hs, hf]

theorem next_refill_beat (hs : f.state = .refill) (hf : refillFire f p = true) :
    (next f p).state = (if refillLast f p then .idle else .refill) ∧
      (next f p).missIndexQ = f.missIndexQ ∧
      (next f p).missOffsetQ = f.missOffsetQ ∧ (next f p).missTagQ = f.missTagQ ∧
      (next f p).missLineAddrQ = f.missLineAddrQ ∧
      (next f p).refillBeatQ = f.refillBeatQ + 1#2 ∧
      (next f p).refillErrorQ = refillError f p := by
  simp [next, hs, hf]

theorem next_idle_miss (hs : f.state = .idle) (hm : (p.fetchValid && !hit f p) = true) :
    (next f p).state = .refill ∧ (next f p).missIndexQ = index p.pc ∧
      (next f p).missOffsetQ = offset p.pc ∧ (next f p).missTagQ = tag p.pc ∧
      (next f p).missLineAddrQ = lineAddr p.pc ∧ (next f p).refillBeatQ = 0#2 := by
  simp [next, hs, hm]

end Edge

end Ifu

namespace Core

/-- The registers of a miss belong to the address being fetched, as long as its
word is still wanted. -/
structure MissPc (s : State) : Prop where
  line : s.ifu.state = .refill → ∀ pc, Ifu.index pc = s.ifu.missIndexQ →
    Ifu.tag pc = s.ifu.missTagQ → Ifu.lineAddr pc = s.ifu.missLineAddrQ
  fetch : s.ifu.state = .refill → s.dropFetchResponse = false →
    Ifu.index s.fPc = s.ifu.missIndexQ ∧ Ifu.offset s.fPc = s.ifu.missOffsetQ ∧
      Ifu.tag s.fPc = s.ifu.missTagQ

/-- The miss registers of a refill that goes on, and of one that begins. -/
theorem clock_refill_regs {s : State} {i : Input} (hs : (clock s i).ifu.state = .refill) :
    (s.ifu.state = .idle ∧ ifuFetchValid s i = true ∧
      (clock s i).ifu.missIndexQ = Ifu.index s.fPc ∧
      (clock s i).ifu.missOffsetQ = Ifu.offset s.fPc ∧
      (clock s i).ifu.missTagQ = Ifu.tag s.fPc ∧
      (clock s i).ifu.missLineAddrQ = Ifu.lineAddr s.fPc ∧
      (clock s i).ifu.refillBeatQ = 0#2) ∨
    (s.ifu.state = .refill ∧
      (clock s i).ifu.missIndexQ = s.ifu.missIndexQ ∧
      (clock s i).ifu.missOffsetQ = s.ifu.missOffsetQ ∧
      (clock s i).ifu.missTagQ = s.ifu.missTagQ ∧
      (clock s i).ifu.missLineAddrQ = s.ifu.missLineAddrQ) := by
  rcases clock_refill_iff.mp hs with ⟨hidle, hf, hn⟩ | ⟨href, _⟩
  · left
    have hm : ((ifuPort s i).fetchValid && !Ifu.hit s.ifu (ifuPort s i)) = true := by
      have hp : (ifuPort s i).fetchValid = true := hf
      simpa [ifuInstReady, Ifu.instReady, hidle, hp, Ifu.refillLast, Ifu.refillFire] using hn
    obtain ⟨_, h1, h2, h3, h4, h5⟩ := Ifu.next_idle_miss hidle hm
    exact ⟨hidle, hf, h1, h2, h3, h4, h5⟩
  · right
    cases hfire : Ifu.refillFire s.ifu (ifuPort s i) with
    | false =>
      obtain ⟨_, h1, h2, h3, h4, _⟩ := Ifu.next_refill_quiet href hfire
      exact ⟨href, h1, h2, h3, h4⟩
    | true =>
      obtain ⟨_, h1, h2, h3, h4, _⟩ := Ifu.next_refill_beat href hfire
      exact ⟨href, h1, h2, h3, h4⟩

theorem MissPc.clock {s : State} {i : Input} (hm : MissPc s) (h : Occupancy s) :
    MissPc (clock s i) where
  line := by
    intro hs pc hidx htag
    rcases clock_refill_regs hs with ⟨_, _, h1, _, h3, h4, _⟩ | ⟨href, h1, _, h3, h4⟩
    · rw [h4]
      exact Ifu.lineAddr_congr (htag.trans h3) (hidx.trans h1)
    · rw [h4]
      exact hm.line href pc (hidx.trans h1) (htag.trans h3)
  fetch := by
    intro hs hdrop
    have hn : ifuInstReady s i = false := by
      rcases clock_refill_iff.mp hs with ⟨_, _, hn⟩ | ⟨_, hn⟩ <;> exact hn
    have hc : capture s i = false := by simp [capture, hn]
    rcases clock_refill_regs hs with ⟨_, hf, h1, h2, h3, _, _⟩ | ⟨href, h1, h2, h3, _⟩
    · have hred := (ifuFetchValid_iff.mp hf).2.2.2.2
      simp only [redirect, Bool.or_eq_false_iff] at hred
      have hpc : (Core.clock s i).fPc = s.fPc := by rw [h.next_fPc]; simp [hred, hc]
      rw [hpc, h1, h2, h3]
      exact ⟨rfl, rfl, rfl⟩
    · -- a redirect from W would have marked the refill as dropped
      have hx : xRedirect s = false := no_xRedirect (h.dx_empty_of_refill href)
      rw [h.next_drop, h.pending.mpr href, hn] at hdrop
      have hw : wRedirect s i = false := by
        cases hw : wRedirect s i with
        | false => rfl
        | true => simp [hw] at hdrop
      have hd : s.dropFetchResponse = false := by simpa [hw] using hdrop
      have hpc : (Core.clock s i).fPc = s.fPc := by rw [h.next_fPc]; simp [hw, hx, hc]
      rw [hpc, h1, h2, h3]
      exact hm.fetch href hd

theorem Reachable.missPc {s : State} (h : Reachable s) : MissPc s := by
  refine h.invariant ?_ (fun _ _ _ hs ih => ih.clock hs.occupancy)
  intro s i
  constructor <;> intro hs <;> exact absurd hs (by simp [resetEdge, Ifu.reset])

namespace Run
variable (r : Run)

/-- In cycle `m` the bus returned `v`, without error, as beat `o` of a refill of
the line at `a`. -/
def Returned (m : Nat) (a : BitVec 32) (o : BitVec 2) (v : BitVec 32) : Prop :=
  r.rFire m = true ∧ (r.axi m).rresp = 0b00#2 ∧ (r.axi m).rdata = v ∧ (r.burst m).addr = a ∧
    (r.burst m).len = 3 ∧ (r.burst m).beat = o.toNat

instance (m : Nat) (a : BitVec 32) (o : BitVec 2) (v : BitVec 32) :
    Decidable (r.Returned m a o v) := inferInstanceAs (Decidable (_ ∧ _))

/-- The cycle after the last `fence.i` retired, or the first one. -/
def lastFence : Nat → Nat
  | 0 => 0
  | n + 1 => if ifuInvalidate (r.state n) (r.input n) then n + 1 else lastFence n

theorem lastFence_le (n : Nat) : r.lastFence n ≤ n := by
  induction n with
  | zero => exact Nat.le_refl 0
  | succ n ih =>
    unfold lastFence
    split
    · exact Nat.le_refl _
    · exact Nat.le_succ_of_le ih

/-- Returned before cycle `n` and not before the last `fence.i`. -/
def Fetched (n : Nat) (a : BitVec 32) (o : BitVec 2) (v : BitVec 32) : Prop :=
  ∃ m, r.lastFence n ≤ m ∧ m < n ∧ r.Returned m a o v

variable {r}

theorem Fetched.mono {n : Nat} {a : BitVec 32} {o : BitVec 2} {v : BitVec 32}
    (h : r.Fetched n a o v) (hi : ifuInvalidate (r.state n) (r.input n) = false) :
    r.Fetched (n + 1) a o v := by
  obtain ⟨m, h1, h2, h3⟩ := h
  refine ⟨m, ?_, Nat.lt_succ_of_lt h2, h3⟩
  simpa [lastFence, hi] using h1

theorem Returned.fetched {n : Nat} {a : BitVec 32} {o : BitVec 2} {v : BitVec 32}
    (h : r.Returned n a o v) (hi : ifuInvalidate (r.state n) (r.input n) = false) :
    r.Fetched (n + 1) a o v := by
  refine ⟨n, ?_, Nat.lt_succ_self n, h⟩
  have hle := r.lastFence_le n
  simpa [lastFence, hi] using hle

/-- The fetch unit takes a beat only while it owns the bus. -/
theorem Conforming.owns_of_fire (hc : r.Conforming) {n : Nat}
    (hf : Ifu.refillFire (r.state n).ifu (ifuPort (r.state n) (r.input n)) = true) :
    IfuOwns (r.state n) := by
  have hb : (ifuBusResp (r.state n) (r.input n)).ready = true := by
    simp only [Ifu.refillFire, Bool.and_eq_true] at hf
    exact hf.2
  cases hc.ownership n with
  | idle hi _ =>
    rw [ifu_idle_bus hi] at hb
    exact absurd hb (by decide)
  | ifu ho => exact ho
  | lsu ho _ =>
    rw [ifu_unselected ho.valid] at hb
    exact absurd hb (by decide)

theorem Conforming.no_fire (hc : r.Conforming) {n : Nat} (hx : (r.state n).xwValid = true) :
    Ifu.refillFire (r.state n).ifu (ifuPort (r.state n) (r.input n)) = false := by
  cases hf : Ifu.refillFire (r.state n).ifu (ifuPort (r.state n) (r.input n)) with
  | false => rfl
  | true =>
    rw [(hc.owns_of_fire hf).xw_empty] at hx
    exact absurd hx (by decide)

theorem Conforming.untouched_of_xw (hc : r.Conforming) {n : Nat}
    (hx : (r.state n).xwValid = true) : Untouched (r.state n) := by
  cases hc.ownership n with
  | idle _ hu => exact hu
  | lsu _ hu => exact hu
  | ifu ho =>
    rw [ho.xw_empty] at hx
    exact absurd hx (by decide)

theorem Conforming.no_invalidate (hc : r.Conforming) {n : Nat}
    (hf : Ifu.refillFire (r.state n).ifu (ifuPort (r.state n) (r.input n)) = true) :
    ifuInvalidate (r.state n) (r.input n) = false := by
  simp [ifuInvalidate, wRetireReady, (hc.owns_of_fire hf).xw_empty]

theorem Conforming.fire_phase (hc : r.Conforming) {n : Nat}
    (hf : Ifu.refillFire (r.state n).ifu (ifuPort (r.state n) (r.input n)) = true) :
    (r.state n).axi.state = .readData ∧
      AxiMaster.readFire (r.state n).axi (r.axi n) = true := by
  have ho := hc.owns_of_fire hf
  have hready : (axiResp (r.state n) (r.input n)).ready = true := by
    rw [← ho.busResp]
    simp only [Ifu.refillFire, Bool.and_eq_true] at hf
    exact hf.2
  have hp : (r.state n).axi.state = .readData := by
    rcases AxiMaster.resp_phase hready with hp | hp
    · exact hp
    · rcases ho.phase with hp' | hp'
      · rw [hp'.1] at hp; exact absurd hp (by decide)
      · exact hp'
  refine ⟨hp, ?_⟩
  simpa [axiResp, AxiMaster.resp, AxiMaster.writeDone, hp, input] using hready

/-- A beat taken without error is a word of the line of the miss. -/
theorem Conforming.beat_returned (hc : r.Conforming) {n : Nat}
    (hf : Ifu.refillFire (r.state n).ifu (ifuPort (r.state n) (r.input n)) = true)
    (he : (ifuPort (r.state n) (r.input n)).bus.error = false) :
    r.Returned n (r.state n).ifu.missLineAddrQ (r.state n).ifu.refillBeatQ
      (ifuPort (r.state n) (r.input n)).bus.rdata := by
  have ho := hc.owns_of_fire hf
  obtain ⟨hp, hfire⟩ := hc.fire_phase hf
  have hready : (axiResp (r.state n) (r.input n)).ready = true := by
    simp [axiResp, AxiMaster.resp, hfire, input]
  have ht := r.burst_tracked n hp
  have huse : AxiArbiter.useIfu (ifuReq (r.state n)) (lsuReq (r.state n) (r.input n)) = true := by
    simp [AxiArbiter.useIfu, lsuReq_valid, ifuReq_valid, ho.not_arb, ho.refill]
  refine ⟨hfire, ?_, ?_, ?_, ?_, ?_⟩
  · have he' : (axiResp (r.state n) (r.input n)).error = false := by
      simpa [ifuPort, ifuBusResp, AxiArbiter.ifuResp, huse, hready] using he
    simp only [axiResp, AxiMaster.resp, input, hfire, Bool.true_and, Bool.or_eq_false_iff,
      bne_eq_false_iff_eq] at he'
    exact he'.1.2
  · simp [ifuPort, ifuBusResp, AxiArbiter.ifuResp, axiResp, AxiMaster.resp, hfire, input]
  · exact ht.addr.trans ho.addr
  · rw [ht.len, ho.len]
    rfl
  · have hlt := (r.state n).ifu.refillBeatQ.isLt
    rw [ht.beat, ho.beat, BitVec.toNat_setWidth]
    omega

/-- Where the words of the cache come from. The words of a line that a refill is
overwriting are accounted for by the refill, and only if it has seen no error. -/
structure Provenance (r : Run) (n : Nat) : Prop where
  lines : ∀ k, ((r.state n).ifu.line k).valid = true →
    ¬ ((r.state n).ifu.state = .refill ∧ (r.state n).ifu.missIndexQ = k ∧
      (r.state n).ifu.refillBeatQ ≠ 0#2) →
    ∀ pc, Ifu.index pc = k → Ifu.tag pc = ((r.state n).ifu.line k).tag →
    ∀ o, r.Fetched n (Ifu.lineAddr pc) o (((r.state n).ifu.line k).data o)
  beats : (r.state n).ifu.state = .refill → (r.state n).ifu.refillErrorQ = false →
    ∀ o, o.toNat < (r.state n).ifu.refillBeatQ.toNat →
    r.Fetched n (r.state n).ifu.missLineAddrQ o
      (((r.state n).ifu.line (r.state n).ifu.missIndexQ).data o)

theorem provenance_zero : r.Provenance 0 := by
  constructor
  · intro k hv
    exact absurd hv (by simp [state, Clocked.state, step, resetEdge, Ifu.reset])
  · intro hs
    exact absurd hs (by simp [state, Clocked.state, step, resetEdge, Ifu.reset])

/-- The defect of the refill is not met: a refill that ends with an error finds
its line invalid. -/
def NoStaleOverwrite (r : Run) : Prop :=
  ∀ n, Ifu.refillLast (r.state n).ifu (ifuPort (r.state n) (r.input n)) = true →
    Ifu.refillError (r.state n).ifu (ifuPort (r.state n) (r.input n)) = true →
    ((r.state n).ifu.line (r.state n).ifu.missIndexQ).valid = false

theorem state_ifu_succ (r : Run) (n : Nat) : (r.state (n + 1)).ifu =
    Ifu.next (r.state n).ifu (ifuPort (r.state n) (r.input n)) := rfl

theorem not_refill_of_idle {n : Nat} (hs : (r.state n).ifu.state = .idle) (k : Bool) :
    ¬ ((r.state n).ifu.state = .refill ∧ (r.state n).ifu.missIndexQ = k ∧
      (r.state n).ifu.refillBeatQ ≠ 0#2) := by
  rw [hs]
  exact fun hc => absurd hc.1 (by decide)

/-- A `fence.i` empties the cache, and a refill pending then has no beat yet. -/
theorem Provenance.fence {n : Nat} (hc : r.Conforming)
    (hi : ifuInvalidate (r.state n) (r.input n) = true) : r.Provenance (n + 1) := by
  have hret : wRetireReady (r.state n) (r.input n) = true := by
    simp only [ifuInvalidate, Bool.and_eq_true] at hi
    exact hi.1.1
  have hx := (wRetireReady_iff.mp hret).2.2.1
  have hf := hc.no_fire hx
  constructor
  · intro k hv
    rw [r.state_ifu_succ, Ifu.next_line, Ifu.nextLine_invalidate hf hi k] at hv
    exact absurd hv (by decide)
  · intro hs _ o ho
    have hq : (ifuBusResp (r.state n) (r.input n)).ready = false := by
      cases hc.ownership n with
      | idle hi _ => exact ifu_idle_bus hi
      | lsu ho _ => exact ifu_unselected ho.valid
      | ifu ho => rw [ho.xw_empty] at hx; exact absurd hx (by decide)
    have hb : (r.state (n + 1)).ifu.refillBeatQ = 0#2 :=
      untouched_clock (i := r.input n) (hc.untouched_of_xw hx) hq hs
    rw [hb] at ho
    exact absurd ho (Nat.not_lt_zero _)

theorem Provenance.quiet {n : Nat} (h : r.Provenance n)
    (hf : Ifu.refillFire (r.state n).ifu (ifuPort (r.state n) (r.input n)) = false)
    (hi : ifuInvalidate (r.state n) (r.input n) = false) : r.Provenance (n + 1) := by
  have hline : (r.state (n + 1)).ifu.line = (r.state n).ifu.line := by
    rw [r.state_ifu_succ, Ifu.next_line, Ifu.nextLine_quiet hf hi]
  constructor
  · intro k hv hb pc hidx htag o
    rw [hline] at hv htag ⊢
    refine (h.lines k hv ?_ pc hidx htag o).mono hi
    rintro ⟨hs, hk, hne⟩
    obtain ⟨h1, h2, _, _, _, h6, _⟩ := Ifu.next_refill_quiet hs hf
    rw [r.state_ifu_succ] at hb
    exact hb ⟨h1, h2.trans hk, by rw [h6]; exact hne⟩
  · intro hs he o ho
    rcases clock_refill_regs (s := r.state n) (i := r.input n) hs with
      ⟨_, _, _, _, _, _, hb⟩ | ⟨href, _⟩
    · have hb' : (r.state (n + 1)).ifu.refillBeatQ = 0#2 := hb
      rw [hb'] at ho
      exact absurd ho (Nat.not_lt_zero _)
    · obtain ⟨_, h2, _, _, h5, h6, h7⟩ := Ifu.next_refill_quiet href hf
      rw [hline, r.state_ifu_succ, h2, h5]
      rw [r.state_ifu_succ] at he ho
      rw [h6] at ho
      rw [h7] at he
      exact (h.beats href he o ho).mono hi

/-- A beat that is not the last fills one more word of the refill. -/
theorem Provenance.beat {n : Nat} (h : r.Provenance n) (hc : r.Conforming)
    (hf : Ifu.refillFire (r.state n).ifu (ifuPort (r.state n) (r.input n)) = true)
    (hl : Ifu.refillLast (r.state n).ifu (ifuPort (r.state n) (r.input n)) = false) :
    r.Provenance (n + 1) := by
  have hs := (hc.owns_of_fire hf).refill
  have hi := hc.no_invalidate hf
  have hlast : (r.state n).ifu.refillBeatQ ≠ 3#2 := by
    simpa [Ifu.refillLast, hf] using hl
  obtain ⟨h1, h2, _, _, h5, h6, h7⟩ := Ifu.next_refill_beat hs hf
  rw [hl] at h1
  have hbeat : ((r.state n).ifu.refillBeatQ + 1#2).toNat =
      (r.state n).ifu.refillBeatQ.toNat + 1 := by
    revert hlast
    generalize (r.state n).ifu.refillBeatQ = b
    revert b
    decide
  constructor
  · intro k hv hb pc hidx htag o
    rw [r.state_ifu_succ] at hv hb htag ⊢
    have hk : k ≠ (r.state n).ifu.missIndexQ := by
      rintro rfl
      refine hb ⟨h1, h2, ?_⟩
      rw [h6]
      intro h0
      rw [h0] at hbeat
      exact absurd hbeat (by simp)
    rw [Ifu.next_line, Ifu.nextLine_other hi hk] at hv htag ⊢
    refine (h.lines k hv ?_ pc hidx htag o).mono hi
    rintro ⟨_, hk', _⟩
    exact hk hk'.symm
  · intro _ he o ho
    rw [r.state_ifu_succ] at he ho ⊢
    rw [h7, Ifu.refillError, Bool.or_eq_false_iff] at he
    rw [h6, hbeat] at ho
    rw [h2, h5, Ifu.next_line, Ifu.nextLine_data hf hi]
    split
    · rename_i heq
      rw [heq]
      exact (hc.beat_returned hf he.2).fetched hi
    · rename_i hne
      have hlt : o.toNat < (r.state n).ifu.refillBeatQ.toNat := by
        have hne' : o.toNat ≠ (r.state n).ifu.refillBeatQ.toNat :=
          fun hc => hne (BitVec.eq_of_toNat_eq hc)
        omega
      exact (h.beats hs he.1 o hlt).mono hi

/-- The words of a refill whose last beat arrives without any error. -/
theorem Provenance.last_words {n : Nat} (h : r.Provenance n) (hc : r.Conforming)
    (hl : Ifu.refillLast (r.state n).ifu (ifuPort (r.state n) (r.input n)) = true)
    (he : Ifu.refillError (r.state n).ifu (ifuPort (r.state n) (r.input n)) = false)
    (o : BitVec 2) :
    r.Fetched (n + 1) (r.state n).ifu.missLineAddrQ o
      (if o = 3#2 then (ifuPort (r.state n) (r.input n)).bus.rdata
        else ((r.state n).ifu.line (r.state n).ifu.missIndexQ).data o) := by
  simp only [Ifu.refillLast, Bool.and_eq_true, beq_iff_eq] at hl
  have hf := hl.1
  have hi := hc.no_invalidate hf
  have hs := (hc.owns_of_fire hf).refill
  rw [Ifu.refillError, Bool.or_eq_false_iff] at he
  split
  · rename_i heq
    rw [heq, ← hl.2]
    exact (hc.beat_returned hf he.2).fetched hi
  · rename_i hne
    refine (h.beats hs he.1 o ?_).mono hi
    rw [hl.2]
    revert hne
    revert o
    decide

theorem Provenance.last {n : Nat} (h : r.Provenance n) (hc : r.Conforming)
    (hg : r.NoStaleOverwrite)
    (hl : Ifu.refillLast (r.state n).ifu (ifuPort (r.state n) (r.input n)) = true) :
    r.Provenance (n + 1) := by
  have hl' := hl
  simp only [Ifu.refillLast, Bool.and_eq_true, beq_iff_eq] at hl'
  have hf := hl'.1
  have hs := (hc.owns_of_fire hf).refill
  have hi := hc.no_invalidate hf
  obtain ⟨h1, _⟩ := Ifu.next_refill_beat hs hf
  rw [hl, if_pos rfl] at h1
  constructor
  · intro k hv _ pc hidx htag o
    rw [r.state_ifu_succ, Ifu.next_line] at hv htag ⊢
    by_cases hk : k = (r.state n).ifu.missIndexQ
    · subst hk
      obtain ⟨hvalid, htag'⟩ := Ifu.nextLine_tag hf hi
      cases he : Ifu.refillError (r.state n).ifu (ifuPort (r.state n) (r.input n)) with
      | true =>
        rw [hvalid, hl, he, hg n hl he] at hv
        exact absurd hv (by decide)
      | false =>
        rw [htag', hl, he] at htag
        have hline := (r.reachable n).missPc.line hs pc hidx htag
        rw [Ifu.nextLine_data hf hi, hline, hl'.2]
        exact h.last_words hc hl he o
    · rw [Ifu.nextLine_other hi hk] at hv htag ⊢
      refine (h.lines k hv ?_ pc hidx htag o).mono hi
      rintro ⟨_, hk', _⟩
      exact hk hk'.symm
  · intro hs'
    rw [r.state_ifu_succ, h1] at hs'
    exact absurd hs' (by decide)

theorem Conforming.provenance (hc : r.Conforming) (hg : r.NoStaleOverwrite) (n : Nat) :
    r.Provenance n := by
  induction n with
  | zero => exact provenance_zero
  | succ n ih =>
    cases hi : ifuInvalidate (r.state n) (r.input n) with
    | true => exact Provenance.fence hc hi
    | false =>
      cases hf : Ifu.refillFire (r.state n).ifu (ifuPort (r.state n) (r.input n)) with
      | false => exact ih.quiet hf hi
      | true =>
        cases hl : Ifu.refillLast (r.state n).ifu (ifuPort (r.state n) (r.input n)) with
        | false => exact ih.beat hc hf hl
        | true => exact ih.last hc hg hl

theorem Provenance.captured {n : Nat} (h : r.Provenance n) (hc : r.Conforming)
    (hcap : capture (r.state n) (r.input n) = true)
    (he : ifuInstError (r.state n) (r.input n) = false) :
    ∃ m, r.lastFence n ≤ m ∧ m ≤ n ∧
      r.Returned m (Ifu.lineAddr (r.state n).fPc) (Ifu.offset (r.state n).fPc)
        (ifuInst (r.state n) (r.input n)) := by
  have hdrop : (r.state n).dropFetchResponse = false := by
    simp only [capture, Bool.and_eq_true, Bool.not_eq_true'] at hcap
    exact hcap.1.2
  rcases ifuInstReady_cases (capture_ready hcap) with ⟨hs, _, hh⟩ | ⟨hs, hl⟩
  · have hinst : ifuInst (r.state n) (r.input n) =
        ((r.state n).ifu.line (Ifu.index (r.state n).fPc)).data (Ifu.offset (r.state n).fPc) := by
      simp only [ifuInst, Ifu.inst, hs, hh]
      rfl
    simp only [Ifu.hit, Bool.and_eq_true, beq_iff_eq] at hh
    obtain ⟨m, h1, h2, h3⟩ :=
      h.lines _ hh.1 (not_refill_of_idle hs _) (r.state n).fPc rfl hh.2.symm
        (Ifu.offset (r.state n).fPc)
    rw [hinst]
    exact ⟨m, h1, Nat.le_of_lt h2, h3⟩
  · have hi : ifuInvalidate (r.state n) (r.input n) = false := by
      have hf := hl
      simp only [Ifu.refillLast, Bool.and_eq_true] at hf
      exact hc.no_invalidate hf.1
    obtain ⟨hidx, hoff, htag⟩ := (r.reachable n).missPc.fetch hs hdrop
    have hline := (r.reachable n).missPc.line hs (r.state n).fPc hidx htag
    have herr : Ifu.refillError (r.state n).ifu (ifuPort (r.state n) (r.input n)) = false := by
      simpa [ifuInstError, Ifu.instError, hl] using he
    have hinst : ifuInst (r.state n) (r.input n) =
        if (r.state n).ifu.missOffsetQ = 3#2 then (ifuPort (r.state n) (r.input n)).bus.rdata
        else ((r.state n).ifu.line (r.state n).ifu.missIndexQ).data
          (r.state n).ifu.missOffsetQ := by
      simp [ifuInst, Ifu.inst, hs, Ifu.refillInst]
    obtain ⟨m, h1, h2, h3⟩ := h.last_words hc hl herr (r.state n).ifu.missOffsetQ
    rw [hinst, hoff, hline]
    refine ⟨m, ?_, Nat.le_of_lt_succ h2, h3⟩
    simpa [lastFence, hi] using h1

/-- The cache does not invent instructions: every word captured without an error
flag was returned by the bus, without error, as the word at its address of a
refill of its line, in every run in which no refill fails over a valid line. -/
theorem captured_was_returned (hc : r.Conforming) (hg : r.NoStaleOverwrite) {n : Nat}
    (hcap : capture (r.state n) (r.input n) = true)
    (he : ifuInstError (r.state n) (r.input n) = false) :
    ∃ m, m ≤ n ∧
      r.Returned m (Ifu.lineAddr (r.state n).fPc) (Ifu.offset (r.state n).fPc)
        (ifuInst (r.state n) (r.input n)) := by
  obtain ⟨m, _, h2, h3⟩ := (hc.provenance hg n).captured hc hcap he
  exact ⟨m, h2, h3⟩

/-- A slave that never answers a read with an error. -/
def Okay (r : Run) : Prop := ∀ n, r.rFire n = true → (r.axi n).rresp = 0b00#2

theorem Okay.readErrorQ (hok : r.Okay) (n : Nat) : (r.state n).axi.readErrorQ = false := by
  induction n with
  | zero => rfl
  | succ n ih =>
    rw [r.state_axi_succ]
    exact AxiMaster.next_readErrorQ ih (hok n)

theorem Okay.bus_error (hok : r.Okay) (hc : r.Conforming) {n : Nat}
    (hf : Ifu.refillFire (r.state n).ifu (ifuPort (r.state n) (r.input n)) = true) :
    (ifuPort (r.state n) (r.input n)).bus.error = false := by
  obtain ⟨hp, hfire⟩ := hc.fire_phase hf
  have hresp : (axiResp (r.state n) (r.input n)).error = false := by
    simp [axiResp, AxiMaster.resp, AxiMaster.writeDone, hp, hok.readErrorQ n, input, hok n hfire]
  simp [ifuPort, ifuBusResp, AxiArbiter.ifuResp, hresp]

theorem Okay.refillErrorQ (hok : r.Okay) (hc : r.Conforming) (n : Nat) :
    (r.state n).ifu.refillErrorQ = false := by
  induction n with
  | zero => rfl
  | succ n ih =>
    rw [r.state_ifu_succ]
    rcases ifu_idle_or_refill (r.state n).ifu with hs | hs
    · cases hm : (ifuPort (r.state n) (r.input n)).fetchValid &&
          !Ifu.hit (r.state n).ifu (ifuPort (r.state n) (r.input n)) <;>
        simp [Ifu.next, hs, hm, ih]
    · cases hf : Ifu.refillFire (r.state n).ifu (ifuPort (r.state n) (r.input n)) with
      | false => simp [Ifu.next, hs, hf, ih]
      | true => simp [Ifu.next, hs, hf, Ifu.refillError, ih, hok.bus_error hc hf]

theorem Okay.noStaleOverwrite (hok : r.Okay) (hc : r.Conforming) : r.NoStaleOverwrite := by
  intro n hl he
  simp only [Ifu.refillLast, Bool.and_eq_true] at hl
  rw [Ifu.refillError, hok.refillErrorQ hc n, hok.bus_error hc hl.1] at he
  exact absurd he (by decide)

/-- A halted core that waits for no refill begins none. -/
theorem idle_of_halted {n : Nat} (hh : (r.state n).halted = true)
    (hs : (r.state n).ifu.state = .idle) {m : Nat} (hle : n ≤ m) :
    (r.state m).halted = true ∧ (r.state m).ifu.state = .idle := by
  induction m, hle using Nat.le_induction with
  | base => exact ⟨hh, hs⟩
  | succ m _ ih =>
    have hf : ifuFetchValid (r.state m) (r.input m) = false := by simp [ifuFetchValid, ih.1]
    rw [r.state_succ]
    refine ⟨?_, clock_idle_of_no_fetch ih.2 hf⟩
    rw [clock_halted, ih.1]
    rfl

/-- A run that halts can meet the defect only before. -/
theorem noStaleOverwrite_of_halted {n : Nat} (hh : (r.state n).halted = true)
    (hs : (r.state n).ifu.state = .idle)
    (hbefore : ∀ m < n, Ifu.refillLast (r.state m).ifu (ifuPort (r.state m) (r.input m)) = true →
      Ifu.refillError (r.state m).ifu (ifuPort (r.state m) (r.input m)) = true →
      ((r.state m).ifu.line (r.state m).ifu.missIndexQ).valid = false) : r.NoStaleOverwrite := by
  intro m hl he
  by_cases hm : m < n
  · exact hbefore m hm hl he
  · have hidle := (idle_of_halted hh hs (Nat.le_of_not_lt hm)).2
    simp [Ifu.refillLast, Ifu.refillFire, hidle] at hl

/-- The reset line sets `mtvec` and runs into a line of the other set, which the bus
answers with errors. The line at the vector clears `mtvec` and halts the core. -/
def coldFaultRun : Run := eagerRun
  (fun b =>
    if b.addr = 0x20000000#32 then
      [0x200000b7#32, 0x02008093#32, 0x30509073#32].getD b.beat 0x00000013#32
    else if b.addr = 0x20000020#32 then [0x30501073#32].getD b.beat 0x00100073#32
    else 0x00000013#32)
  (fun b => if b.addr = 0x20000010#32 then 0b10#2 else 0b00#2)

/-- A refill that fails over an invalid line does no harm: the `ebreak` hit in the
cache after it is the word that the bus returned. -/
theorem captured_was_returned_cold :
    Ifu.refillError (coldFaultRun.state 20).ifu
      (ifuPort (coldFaultRun.state 20) (coldFaultRun.input 20)) = true ∧
    Ifu.refillLast (coldFaultRun.state 20).ifu
      (ifuPort (coldFaultRun.state 20) (coldFaultRun.input 20)) = true ∧
    capture (coldFaultRun.state 37) (coldFaultRun.input 37) = true ∧
    ifuInst (coldFaultRun.state 37) (coldFaultRun.input 37) = 0x00100073#32 ∧
    ∃ m, m ≤ 37 ∧ coldFaultRun.Returned m (Ifu.lineAddr (coldFaultRun.state 37).fPc)
      (Ifu.offset (coldFaultRun.state 37).fPc)
      (ifuInst (coldFaultRun.state 37) (coldFaultRun.input 37)) := by
  have hg : coldFaultRun.NoStaleOverwrite :=
    noStaleOverwrite_of_halted (n := 41) (by decide +kernel) (by decide +kernel) (by decide +kernel)
  have hcap : capture (coldFaultRun.state 37) (coldFaultRun.input 37) = true := by decide +kernel
  refine ⟨by decide +kernel, by decide +kernel, hcap, by decide +kernel, ?_⟩
  exact captured_was_returned (eagerRun_conforming _ _) hg hcap (by decide +kernel)

/-- The reset line sets `mtvec` to itself and jumps to a line of the same set
that the bus answers with errors; the trap goes back to the reset line. -/
def faultRun : Run := eagerRun
  (fun b =>
    if b.addr = 0x20000000#32 ∧ b.beat = 0 then 0x200000b7#32
    else if b.addr = 0x20000000#32 ∧ b.beat = 1 then 0x30509073#32
    else if b.addr = 0x20000000#32 ∧ b.beat = 2 then 0x0180006f#32 else 0x00000013#32)
  (fun b => if b.addr = 0x20000020#32 then 0b10#2 else 0b00#2)

/-- The failed refill has overwritten the line but left it valid under its old
tag: the fetch at the vector hits a word the bus never returned for it. -/
theorem captured_invented :
    faultRun.Conforming ∧
    capture (faultRun.state 28) (faultRun.input 28) = true ∧
    ifuInstError (faultRun.state 28) (faultRun.input 28) = false ∧
    (faultRun.state 28).fPc = 0x20000000#32 ∧
    ifuInst (faultRun.state 28) (faultRun.input 28) = 0x00000013#32 ∧
    ∀ m, m ≤ 28 → ¬ faultRun.Returned m (Ifu.lineAddr (faultRun.state 28).fPc)
      (Ifu.offset (faultRun.state 28).fPc) (ifuInst (faultRun.state 28) (faultRun.input 28)) := by
  refine ⟨eagerRun_conforming _ _, by decide +kernel, by decide +kernel, by decide +kernel,
    by decide +kernel, ?_⟩
  have hall : ∀ m, m < 29 → ¬ faultRun.Returned m (Ifu.lineAddr (faultRun.state 28).fPc)
      (Ifu.offset (faultRun.state 28).fPc)
      (ifuInst (faultRun.state 28) (faultRun.input 28)) := by decide +kernel
  intro m hm
  exact hall m (Nat.lt_succ_of_le hm)

end Run

end Core

end Npc
