import AiOsoc.Npc.Ownership

/-!
# Memory transactions

The request of the LSU is a level derived from the X/W registers. Each
instruction that goes to the bus nevertheless makes exactly one transaction, and
no transaction is begun for an instruction that does not retire.
-/

namespace Npc.Core

set_option autoImplicit false

/-- `0x0200_0000 .. 0x0200_FFFF`. -/
def inClint (addr : BitVec 32) : Prop := 0x02000000#32 ≤ addr ∧ addr ≤ 0x0200ffff#32

instance (addr : BitVec 32) : Decidable (inClint addr) := inferInstanceAs (Decidable (_ ∧ _))

/-- A legal, fetched, aligned load or store. -/
def XW.accesses (w : XW) : Bool :=
  !w.instError && w.decodeLegal && (w.memRen || w.memWen) && !w.memMisaligned

theorem busAddr_high (a : BitVec 32) : (Lsu.busAddr a).extractLsb' 16 16 = a.extractLsb' 16 16 := by
  unfold Lsu.busAddr Lsu.alignedAddr
  split
  · rfl
  · apply BitVec.eq_of_getLsbD_eq
    intro i hi
    rw [BitVec.getLsbD_extractLsb', BitVec.getLsbD_append, BitVec.getLsbD_extractLsb',
      BitVec.getLsbD_extractLsb']
    have h1 : ¬ 16 + i < 2 := by omega
    have h2 : 2 + (16 + i - 2) = 16 + i := by omega
    simp [hi, h1, h2]
    omega

theorem inClint_iff (a : BitVec 32) : inClint a ↔ a.extractLsb' 16 16 = 0x0200#16 := by
  unfold inClint
  rw [BitVec.le_def, BitVec.le_def, ← BitVec.toNat_inj]
  simp only [BitVec.extractLsb'_toNat, BitVec.toNat_ofNat, Nat.shiftRight_eq_div_pow]
  have := a.isLt
  omega

theorem access_no_other_trap (fd : FD) (r1 r2 : BitVec 32) (c : Csr)
    (h : (Idu.memRen fd.inst || Idu.memWen fd.inst) = true) :
    (xStage (dStage fd r1 r2) c).pcException = false ∧
    (xStage (dStage fd r1 r2) c).isEcall = false ∧
    (xStage (dStage fd r1 r2) c).isEbreak = false := by
  rw [Bool.or_eq_true] at h
  rcases h with h | h
  · have ho : Idu.opcode fd.inst = 0b0000011#7 := by
      simp only [Idu.memRen, Idu.loadLegal, Idu.isLoad, Bool.and_eq_true, beq_iff_eq] at h
      exact h.1
    rw [dStage_load ho h]
    simp [xStage, dPlain, xPcException, xBranchTaken]
  · have ho : Idu.opcode fd.inst = 0b0100011#7 := by
      simp only [Idu.memWen, Idu.storeLegal, Idu.isStore, Bool.and_eq_true, beq_iff_eq] at h
      exact h.1
    rw [dStage_store ho h]
    simp [xStage, dPlain, xPcException, xBranchTaken]

theorem lsuWen_of_arb {s : State} {i : Input} (hl : lsuArbValid s i = true) :
    lsuWen s i = s.xw.memWen := by
  simp only [lsuArbValid, lsuRawValid, lsuRen, lsuWen, wLsuWen, Bool.and_eq_true,
    Bool.or_eq_true] at hl
  rcases hl.1 with hv | hv
  · simp [lsuWen, wLsuWen, hv.1.1, hv.1.2]
  · simp [lsuWen, wLsuWen, hv.1, hv.2]

/-- The instructions in W that go to the bus. -/
theorem lsuArbValid_iff {s : State} {i : Input} (hf : InFlight s) (hr : i.reset = false)
    (hh : s.halted = false) (hx : s.xwValid = true) :
    lsuArbValid s i = true ↔ s.xw.accesses = true ∧ ¬ inClint s.xw.lsuAddr := by
  have hwin : lsuIsClint s i = (lsuRawValid s i && decide (inClint s.xw.lsuAddr)) := by
    by_cases hc : s.xw.lsuAddr.extractLsb' 16 16 = 0x0200#16 <;>
      simp [lsuIsClint, lsuRawAddr, busAddr_high, inClint_iff, hc]
  have hraw : lsuRawValid s i = s.xw.accesses := by
    have hren : s.xw.memRen = Idu.memRen s.xw.inst := congrArg XW.memRen (hf.xw_executed hx)
    have hwen : s.xw.memWen = Idu.memWen s.xw.inst := congrArg XW.memWen (hf.xw_executed hx)
    cases hm : s.xw.memRen || s.xw.memWen with
    | false =>
      rw [Bool.or_eq_false_iff] at hm
      simp [lsuRawValid, lsuRen, lsuWen, wLsuWen, XW.accesses, hm]
    | true =>
      have hno := access_no_other_trap s.xw.fd s.xw.rs1Data s.xw.rs2Data s.csr
        (by rw [hren, hwen] at hm; exact hm)
      rw [← hf.xw_executed hx] at hno
      have hcan : wCanCompleteNoMemFault true s.xw s.csr.mtvec =
          (!s.xw.instError && s.xw.decodeLegal && !s.xw.memMisaligned) := by
        cases h1 : s.xw.instError <;> cases h2 : s.xw.decodeLegal <;>
          cases h3 : s.xw.memMisaligned <;>
          simp [wCanCompleteNoMemFault, wBaseTrapRequest, hno, h1, h2, h3]
      have hsplit : lsuRawValid s i = (wCanCompleteNoMemFault true s.xw s.csr.mtvec &&
          (s.xw.memRen || s.xw.memWen)) := by
        simp [lsuRawValid, lsuRen, lsuWen, wLsuWen, hr, hh, hx, Bool.and_or_distrib_left]
      rw [hsplit, hcan, XW.accesses, hm]
      cases s.xw.instError <;> cases s.xw.decodeLegal <;> cases s.xw.memMisaligned <;> rfl
  simp only [lsuArbValid, hwin, hraw]
  cases s.xw.accesses <;> simp

namespace Run
variable (r : Run)

/-- The handshakes of the five channels while the arbiter selects the LSU. -/
def lsuSelected (n : Nat) : Bool := lsuArbValid (r.state n) (r.input n)
def lsuAr (n : Nat) : Bool := r.lsuSelected n && r.arFire n
def lsuR (n : Nat) : Bool := r.lsuSelected n && r.rFire n
def lsuAw (n : Nat) : Bool := r.lsuSelected n && r.awFire n
def lsuW (n : Nat) : Bool := r.lsuSelected n && r.wFire n
def lsuB (n : Nat) : Bool := r.lsuSelected n && r.bFire n

/-- No handshake of the LSU in the cycles `a ≤ m < b`. -/
structure NoTransaction (a b : Nat) : Prop where
  ar : Clocked.Never r.lsuAr a b
  read : Clocked.Never r.lsuR a b
  aw : Clocked.Never r.lsuAw a b
  w : Clocked.Never r.lsuW a b
  b : Clocked.Never r.lsuB a b

/-- One read of one beat, in the cycles `a ≤ m ≤ t`, completed in `t`. -/
structure ReadTransaction (a t : Nat) : Prop where
  ar : Clocked.Once r.lsuAr a (t + 1)
  arlen : ∀ m, r.lsuAr m = true → AxiMaster.arlen (r.state m).axi = 0#8
  read : Clocked.Once r.lsuR a (t + 1)
  completes : r.lsuR t = true
  aw : Clocked.Never r.lsuAw a (t + 1)
  w : Clocked.Never r.lsuW a (t + 1)
  b : Clocked.Never r.lsuB a (t + 1)

/-- One write, in the cycles `a ≤ m ≤ t`, completed in `t`: both requests are
accepted before the response. -/
structure WriteTransaction (a t : Nat) : Prop where
  aw : Clocked.Once r.lsuAw a t
  w : Clocked.Once r.lsuW a t
  aw_done : r.lsuAw t = false
  w_done : r.lsuW t = false
  b : Clocked.Once r.lsuB a (t + 1)
  completes : r.lsuB t = true
  ar : Clocked.Never r.lsuAr a (t + 1)
  read : Clocked.Never r.lsuR a (t + 1)

/-- W holds one instruction from cycle `e`, in which it arrived from X, to cycle
`m`, and it has not retired before `m`. -/
structure Holds (e m : Nat) : Prop where
  le : e ≤ m
  loaded : ∃ k, e = k + 1 ∧ (r.state k).dxValid = true
  stays : ∀ k, e ≤ k → k ≤ m → (r.state k).xwValid = true ∧ (r.state k).xw = (r.state m).xw
  waits : ∀ k, e ≤ k → k < m → wRetireReady (r.state k) (r.input k) = false

theorem holds_of_valid (m : Nat) (hx : (r.state m).xwValid = true) : ∃ e, r.Holds e m := by
  induction m with
  | zero => exact absurd hx (by intro hf; cases hf)
  | succ m ih =>
    rcases (r.occupancy m).next_xw_cases rfl hx with ⟨hd, _, _, _⟩ | ⟨_, hxm, hn, _, hxw⟩
    · refine ⟨m + 1, Nat.le_refl _, ⟨m, rfl, hd⟩, ?_, ?_⟩
      · intro k h1 h2
        obtain rfl : k = m + 1 := by omega
        exact ⟨hx, rfl⟩
      · intro k h1 h2
        omega
    · obtain ⟨e, he⟩ := ih hxm
      refine ⟨e, Nat.le_succ_of_le he.le, he.loaded, ?_, ?_⟩
      · intro k h1 h2
        rcases Nat.le_succ_iff.mp h2 with hle | rfl
        · obtain ⟨hv, heq⟩ := he.stays k h1 hle
          exact ⟨hv, heq.trans hxw.symm⟩
        · exact ⟨hx, rfl⟩
      · intro k h1 h2
        rcases Nat.lt_succ_iff_lt_or_eq.mp h2 with hlt | rfl
        · exact he.waits k h1 hlt
        · exact hn

variable {r}

/-- When an instruction arrives in W the master is idle: nothing was in W before
and the fetch unit was not refilling. -/
theorem Conforming.idle_of_loaded (hc : r.Conforming) {k : Nat} (hd : (r.state k).dxValid = true) :
    (r.state (k + 1)).axi.state = .idle := by
  have h := r.occupancy k
  have hs := h.dx_idle hd
  have hx := h.dx_xw hd
  have hi : (r.state k).axi.state = .idle := by
    cases hc.ownership k with
    | idle hi _ => exact hi
    | ifu ho =>
      rw [ho.refill] at hs
      exact absurd hs (by decide)
    | lsu ho _ =>
      rw [lsuArbValid_xw ho.valid] at hx
      exact absurd hx (by decide)
  exact idle_idle_step (i := r.input k) hi (not_lsuArbValid hx) hs

/-- The reads of the LSU are single beats. -/
theorem Conforming.lsuAr_len (hc : r.Conforming) (n : Nat) (h : r.lsuAr n = true) :
    AxiMaster.arlen (r.state n).axi = 0#8 := by
  simp only [lsuAr, lsuSelected, arFire, AxiMaster.arFire, AxiMaster.arvalid, Bool.and_eq_true,
    decide_eq_true_eq] at h
  cases hc.ownership n with
  | idle hi _ =>
    rw [h.2.1] at hi
    exact absurd hi (by decide)
  | ifu ho =>
    rw [ho.not_arb] at h
    exact absurd h.1 (by decide)
  | lsu ho _ => exact ho.len

/-- How far a read has got in the cycles `e ≤ k < m`. -/
structure ReadProgress (r : Run) (e m : Nat) : Prop where
  phase : ((r.state m).axi.state = .readAddr ∧ Clocked.Never r.lsuAr e m) ∨
    ((r.state m).axi.state = .readData ∧ Clocked.Once r.lsuAr e m)
  read : Clocked.Never r.lsuR e m
  aw : Clocked.Never r.lsuAw e m
  w : Clocked.Never r.lsuW e m
  b : Clocked.Never r.lsuB e m

/-- How far a write has got in the cycles `e ≤ k < m`. -/
structure WriteProgress (r : Run) (e m : Nat) : Prop where
  phase : ((r.state m).axi.state = .writeReq ∧
      (if (r.state m).axi.awDone then Clocked.Once r.lsuAw e m else Clocked.Never r.lsuAw e m) ∧
      (if (r.state m).axi.wDone then Clocked.Once r.lsuW e m else Clocked.Never r.lsuW e m)) ∨
    ((r.state m).axi.state = .writeResp ∧ Clocked.Once r.lsuAw e m ∧ Clocked.Once r.lsuW e m)
  b : Clocked.Never r.lsuB e m
  ar : Clocked.Never r.lsuAr e m
  read : Clocked.Never r.lsuR e m

section Channels
variable {n : Nat}

attribute [local simp] lsuAr lsuR lsuAw lsuW lsuB arFire rFire awFire wFire bFire AxiMaster.arFire
  AxiMaster.rFire AxiMaster.awFire AxiMaster.wFire AxiMaster.bFire AxiMaster.arvalid
  AxiMaster.rready AxiMaster.awvalid AxiMaster.wvalid AxiMaster.bready

/-- In each phase only the channels of the phase can make a handshake. -/
theorem quiet_of_phase_ne_readAddr (hp : (r.state n).axi.state ≠ .readAddr) :
    r.lsuAr n = false := by simp [hp]

theorem quiet_of_phase_ne_readData (hp : (r.state n).axi.state ≠ .readData) :
    r.lsuR n = false := by simp [hp]

theorem quiet_of_phase_ne_writeReq (hp : (r.state n).axi.state ≠ .writeReq) :
    r.lsuAw n = false ∧ r.lsuW n = false := by simp [hp]

theorem quiet_of_phase_ne_writeResp (hp : (r.state n).axi.state ≠ .writeResp) :
    r.lsuB n = false := by simp [hp]

theorem quiet_of_unselected (hl : r.lsuSelected n = false) :
    r.lsuAr n = false ∧ r.lsuR n = false ∧ r.lsuAw n = false ∧ r.lsuW n = false ∧
      r.lsuB n = false := by simp [hl]

end Channels

theorem lsuR_iff_answer {n : Nat} (hp : (r.state n).axi.state = .readData) :
    r.lsuR n = (r.lsuSelected n && (axiResp (r.state n) (r.input n)).ready) := by
  simp [lsuR, rFire, AxiMaster.rFire, AxiMaster.rready, axiResp, AxiMaster.resp,
    AxiMaster.readFire, AxiMaster.writeDone, hp, input]

theorem lsuB_iff_answer {n : Nat} (hp : (r.state n).axi.state = .writeResp) :
    r.lsuB n = (r.lsuSelected n && (axiResp (r.state n) (r.input n)).ready) := by
  simp [lsuB, bFire, AxiMaster.bFire, AxiMaster.bready, axiResp, AxiMaster.resp,
    AxiMaster.readFire, AxiMaster.writeDone, hp, input]

theorem ReadProgress.snoc {e m : Nat} (hp : r.ReadProgress e m) (hle : e ≤ m)
    (hsel : r.lsuSelected m = true) (hn : (axiResp (r.state m) (r.input m)).ready = false) :
    r.ReadProgress e (m + 1) := by
  rcases hp.phase with ⟨ha, har⟩ | ⟨ha, har⟩
  · have hr := quiet_of_phase_ne_readData (by rw [ha]; decide)
    have hw := quiet_of_phase_ne_writeReq (by rw [ha]; decide)
    have hb := quiet_of_phase_ne_writeResp (by rw [ha]; decide)
    refine ⟨?_, hp.read.snoc hr, hp.aw.snoc hw.1, hp.w.snoc hw.2, hp.b.snoc hb⟩
    rw [r.state_axi_succ]
    cases hrdy : (r.axi m).arready with
    | false =>
      have hq : r.lsuAr m = false := by simp [lsuAr, arFire, AxiMaster.arFire, hrdy]
      exact Or.inl ⟨by simp [AxiMaster.next, ha, hrdy], har.snoc hq⟩
    | true =>
      have hf : r.lsuAr m = true := by
        simp [lsuAr, arFire, AxiMaster.arFire, AxiMaster.arvalid, hsel, ha, hrdy]
      exact Or.inr ⟨by simp [AxiMaster.next, ha, hrdy], har.fire hle hf⟩
  · have hq := quiet_of_phase_ne_readAddr (by rw [ha]; decide)
    have hw := quiet_of_phase_ne_writeReq (by rw [ha]; decide)
    have hb := quiet_of_phase_ne_writeResp (by rw [ha]; decide)
    have hr : r.lsuR m = false := by rw [lsuR_iff_answer ha, hn]; simp
    refine ⟨?_, hp.read.snoc hr, hp.aw.snoc hw.1, hp.w.snoc hw.2, hp.b.snoc hb⟩
    rw [r.state_axi_succ]
    exact Or.inr ⟨AxiMaster.next_waiting ha hn, har.snoc hq⟩

/-- A request channel that is done is silent; one that is not done fires when the
slave accepts it. -/
theorem channel_snoc {p : Nat → Bool} {e m : Nat} {done ready : Bool} (hle : e ≤ m)
    (hp : p m = (!done && ready))
    (h : if done then Clocked.Once p e m else Clocked.Never p e m) :
    if done || ready then Clocked.Once p e (m + 1) else Clocked.Never p e (m + 1) := by
  cases done with
  | true =>
    simp only [Bool.not_true, Bool.false_and, Bool.true_or, if_true] at hp h ⊢
    exact h.snoc hp
  | false =>
    cases ready with
    | true =>
      simp only [Bool.not_false, Bool.true_and, Bool.false_eq_true, if_false] at hp h
      simpa using h.fire hle hp
    | false =>
      simp only [Bool.and_false, Bool.false_eq_true, if_false] at hp h
      simpa using h.snoc hp

theorem WriteProgress.snoc {e m : Nat} (hp : r.WriteProgress e m) (hle : e ≤ m)
    (hsel : r.lsuSelected m = true) (hn : (axiResp (r.state m) (r.input m)).ready = false) :
    r.WriteProgress e (m + 1) := by
  rcases hp.phase with ⟨ha, haw, hw⟩ | ⟨ha, haw, hw⟩
  · have har := quiet_of_phase_ne_readAddr (by rw [ha]; decide)
    have hr := quiet_of_phase_ne_readData (by rw [ha]; decide)
    have hb := quiet_of_phase_ne_writeResp (by rw [ha]; decide)
    have hawm : r.lsuAw m = (!(r.state m).axi.awDone && (r.axi m).awready) := by
      simp [lsuAw, awFire, AxiMaster.awFire, AxiMaster.awvalid, hsel, ha]
    have hwm : r.lsuW m = (!(r.state m).axi.wDone && (r.axi m).wready) := by
      simp [lsuW, wFire, AxiMaster.wFire, AxiMaster.wvalid, hsel, ha]
    have haw' := channel_snoc hle hawm haw
    have hw' := channel_snoc hle hwm hw
    refine ⟨?_, hp.b.snoc hb, hp.ar.snoc har, hp.read.snoc hr⟩
    rw [r.state_axi_succ]
    obtain ⟨hd, hwd, hs⟩ := AxiMaster.next_writeReq (axiReq (r.state m) (r.input m)) (r.axi m) ha
    cases hall : ((r.state m).axi.awDone || (r.axi m).awready) &&
        ((r.state m).axi.wDone || (r.axi m).wready) with
    | true =>
      rw [hall] at hs
      simp only [Bool.and_eq_true] at hall
      rw [hall.1] at haw'
      rw [hall.2] at hw'
      exact Or.inr ⟨hs, haw', hw'⟩
    | false =>
      rw [hall] at hs
      rw [hd, hwd]
      exact Or.inl ⟨hs, haw', hw'⟩
  · have har := quiet_of_phase_ne_readAddr (by rw [ha]; decide)
    have hr := quiet_of_phase_ne_readData (by rw [ha]; decide)
    have hq := quiet_of_phase_ne_writeReq (by rw [ha]; decide)
    have hb : r.lsuB m = false := by rw [lsuB_iff_answer ha, hn]; simp
    refine ⟨?_, hp.b.snoc hb, hp.ar.snoc har, hp.read.snoc hr⟩
    rw [r.state_axi_succ]
    refine Or.inr ⟨?_, haw.snoc hq.1, hw.snoc hq.2⟩
    have hv : (r.axi m).bvalid = false := by
      simpa [axiResp, AxiMaster.resp, AxiMaster.readFire, AxiMaster.writeDone, ha, input] using hn
    simp [AxiMaster.next, ha, hv]

/-- The state of a bus access in cycle `m` of an instruction in W since `e`. -/
structure Serving (r : Run) (e m : Nat) : Prop where
  owns : LsuOwns (r.state m) (r.input m)
  same : lsuReq (r.state m) (r.input m) = lsuReq (r.state e) (r.input e)
  progress : if lsuWen (r.state e) (r.input e) then r.WriteProgress e m else r.ReadProgress e m

theorem Serving.start {e : Nat} (hi : (r.state e).axi.state = .idle)
    (hl : r.lsuSelected e = true) : r.Serving e (e + 1) := by
  obtain ⟨hown, hsame⟩ := idle_lsu_step (j := r.input (e + 1)) (r.occupancy e) rfl rfl hi hl
  have har := quiet_of_phase_ne_readAddr (r := r) (n := e) (by rw [hi]; decide)
  have hr := quiet_of_phase_ne_readData (r := r) (n := e) (by rw [hi]; decide)
  have hw := quiet_of_phase_ne_writeReq (r := r) (n := e) (by rw [hi]; decide)
  have hb := quiet_of_phase_ne_writeResp (r := r) (n := e) (by rw [hi]; decide)
  have hnil : ∀ p : Nat → Bool, p e = false → Clocked.Never p e (e + 1) :=
    fun p hp => (Clocked.never_nil p e).snoc hp
  have hreq : (axiReq (r.state e) (r.input e)).valid = true ∧
      (axiReq (r.state e) (r.input e)).write = lsuWen (r.state e) (r.input e) := by
    have hl' : lsuArbValid (r.state e) (r.input e) = true := hl
    simp [axiReq, AxiArbiter.bus, AxiArbiter.useLsu, lsuReq, hl']
  obtain ⟨hst, hd, hwd⟩ :=
    AxiMaster.next_start (axiReq (r.state e) (r.input e)) (r.axi e) hi hreq.1
  rw [hreq.2] at hst
  refine ⟨hown, hsame, ?_⟩
  cases hwen : lsuWen (r.state e) (r.input e) with
  | true =>
    rw [hwen] at hst
    refine ⟨Or.inl ?_, hnil _ hb, hnil _ har, hnil _ hr⟩
    rw [r.state_axi_succ, hd, hwd]
    exact ⟨hst, hnil _ hw.1, hnil _ hw.2⟩
  | false =>
    rw [hwen] at hst
    exact ⟨Or.inl ⟨hst, hnil _ har⟩, hnil _ hr, hnil _ hw.1, hnil _ hw.2, hnil _ hb⟩

theorem Serving.step {e m : Nat} (hs : r.Serving e m) (hle : e ≤ m)
    (hn : (axiResp (r.state m) (r.input m)).ready = false) : r.Serving e (m + 1) := by
  obtain ⟨hown, hsame⟩ := hs.owns.stay (j := r.input (m + 1)) (r.occupancy m) rfl rfl hn
  refine ⟨hown, hsame.trans hs.same, ?_⟩
  have hp := hs.progress
  split at hp
  · rename_i hwen
    rw [if_pos hwen]
    exact hp.snoc hle hs.owns.valid hn
  · rename_i hwen
    rw [if_neg hwen]
    exact hp.snoc hle hs.owns.valid hn

/-- An answered access has made its whole transaction. -/
theorem Serving.transaction (hc : r.Conforming) {e t : Nat} (hs : r.Serving e t) (hle : e ≤ t)
    (hresp : (axiResp (r.state t) (r.input t)).ready = true) :
    if lsuWen (r.state t) (r.input t) then r.WriteTransaction e t else r.ReadTransaction e t := by
  have hsel : r.lsuSelected t = true := hs.owns.valid
  have hw : lsuWen (r.state t) (r.input t) = lsuWen (r.state e) (r.input e) :=
    congrArg BusReq.write hs.same
  have hp := hs.progress
  rw [hw]
  split at hp
  · rename_i hwen
    rw [if_pos hwen]
    rcases hp.phase with ⟨ha, _, _⟩ | ⟨ha, haw, hww⟩
    · rcases AxiMaster.resp_phase hresp with hs | hs <;> rw [ha] at hs <;>
        exact absurd hs (by decide)
    · have har := quiet_of_phase_ne_readAddr (by rw [ha]; decide)
      have hr := quiet_of_phase_ne_readData (by rw [ha]; decide)
      have hq := quiet_of_phase_ne_writeReq (by rw [ha]; decide)
      have hb : r.lsuB t = true := by rw [lsuB_iff_answer ha, hresp, hsel]; rfl
      exact ⟨haw, hww, hq.1, hq.2, hp.b.fire hle hb, hb, hp.ar.snoc har, hp.read.snoc hr⟩
  · rename_i hwen
    rw [if_neg hwen]
    rcases hp.phase with ⟨ha, _⟩ | ⟨ha, har⟩
    · rcases AxiMaster.resp_phase hresp with hs | hs <;> rw [ha] at hs <;>
        exact absurd hs (by decide)
    · have hq := quiet_of_phase_ne_readAddr (by rw [ha]; decide)
      have hw := quiet_of_phase_ne_writeReq (by rw [ha]; decide)
      have hb := quiet_of_phase_ne_writeResp (by rw [ha]; decide)
      have hr : r.lsuR t = true := by rw [lsuR_iff_answer ha, hresp, hsel]; rfl
      exact ⟨har.snoc hq, hc.lsuAr_len, hp.read.fire hle hr, hr, hp.aw.snoc hw.1,
        hp.w.snoc hw.2, hp.b.snoc hb⟩

/-- The transactions of an instruction that retires, by what the arbiter selects
when it does. -/
theorem Conforming.transaction_of_retire (hc : r.Conforming) {e t : Nat} (hh : r.Holds e t)
    (hret : wRetireReady (r.state t) (r.input t) = true) :
    if r.lsuSelected t then
      if lsuWen (r.state t) (r.input t) then r.WriteTransaction e t else r.ReadTransaction e t
    else r.NoTransaction e (t + 1) := by
  obtain ⟨k, rfl, hd⟩ := hh.loaded
  have hi := hc.idle_of_loaded hd
  obtain ⟨hx, _⟩ := hh.stays (k + 1) (Nat.le_refl _) hh.le
  have h := r.occupancy (k + 1)
  cases hl : r.lsuSelected (k + 1) with
  | false =>
    have hready : wMemReadyNow (r.state (k + 1)) (r.input (k + 1)) = true :=
      wMemReadyNow_of_not_arb rfl (h.xw_running hx) hl
    have hnow : wRetireReady (r.state (k + 1)) (r.input (k + 1)) = true := by
      rw [h.wRetireReady_eq rfl, hx, hready]
      rfl
    obtain rfl : t = k + 1 := by
      by_contra hne
      have hw := hh.waits (k + 1) (Nat.le_refl _) (by have := hh.le; omega)
      rw [hnow] at hw
      exact absurd hw (by decide)
    rw [hl]
    obtain ⟨h1, h2, h3, h4, h5⟩ := quiet_of_unselected hl
    have hnil : ∀ p : Nat → Bool, p (k + 1) = false → Clocked.Never p (k + 1) (k + 1 + 1) :=
      fun p hp => (Clocked.never_nil p (k + 1)).snoc hp
    exact ⟨hnil _ h1, hnil _ h2, hnil _ h3, hnil _ h4, hnil _ h5⟩
  | true =>
    have hlt : k + 1 < t := by
      rcases Nat.lt_or_eq_of_le hh.le with hlt | rfl
      · exact hlt
      · rw [wRetireReady, wMemReadyNow_of_arb hl] at hret
        rw [show (axiResp (r.state (k + 1)) (r.input (k + 1))).ready = false from
          AxiMaster.resp_idle hi] at hret
        simp at hret
    have hserv : r.Serving (k + 1) t := by
      refine (Clocked.stays (P := fun m => k + 1 ≤ m ∧ r.Serving (k + 1) m)
        (D := fun m => wRetireReady (r.state m) (r.input m) = true) hlt
        ⟨Nat.le_succ _, Serving.start hi hl⟩ ?_ ?_).2
      · intro m h1 h2 hr
        rw [hh.waits m (by omega) h2] at hr
        exact absurd hr (by decide)
      · rintro m ⟨hle, hs⟩ hn
        refine ⟨Nat.le_succ_of_le hle, hs.step hle ?_⟩
        have hxm := lsuArbValid_xw hs.owns.valid
        rw [(r.occupancy m).wRetireReady_eq rfl, hxm, wMemReadyNow_of_arb hs.owns.valid] at hn
        simpa using hn
    have hsel : r.lsuSelected t = true := hserv.owns.valid
    rw [hsel, if_pos rfl]
    refine hserv.transaction hc hh.le ?_
    rw [← wMemReadyNow_of_arb hserv.owns.valid]
    exact (wRetireReady_iff.mp hret).2.2.2

/-! ## Every transaction ends in a retirement -/

/-- The instruction of cycle `n` is still in W in cycle `k`, with its access on
the bus. -/
structure Waits (r : Run) (n k : Nat) : Prop where
  le : n ≤ k
  owns : LsuOwns (r.state k) (r.input k)
  stays : ∀ m, n ≤ m → m ≤ k → (r.state m).xwValid = true ∧ (r.state m).xw = (r.state n).xw
  waits : ∀ m, n ≤ m → m < k → wRetireReady (r.state m) (r.input m) = false

theorem Waits.start {n : Nat} (ho : LsuOwns (r.state n) (r.input n)) : r.Waits n n := by
  refine ⟨Nat.le_refl n, ho, ?_, ?_⟩
  · intro m h1 h2
    obtain rfl : m = n := by omega
    exact ⟨lsuArbValid_xw ho.valid, rfl⟩
  · intro m h1 h2
    omega

theorem Waits.step {n k : Nat} (hw : r.Waits n k)
    (hn : (axiResp (r.state k) (r.input k)).ready = false) : r.Waits n (k + 1) := by
  have h := r.occupancy k
  obtain ⟨hown, _⟩ := hw.owns.stay (j := r.input (k + 1)) h rfl rfl hn
  have hxk := lsuArbValid_xw hw.owns.valid
  have hxw : (r.state (k + 1)).xw = (r.state k).xw := by
    rw [r.state_succ, h.next_xw, h.dx_empty_of_xw hxk]
    rfl
  refine ⟨Nat.le_succ_of_le hw.le, hown, ?_, ?_⟩
  · intro m h1 h2
    rcases Nat.le_succ_iff.mp h2 with hle | rfl
    · exact hw.stays m h1 hle
    · exact ⟨lsuArbValid_xw hown.valid, hxw.trans (hw.stays k hw.le (Nat.le_refl k)).2⟩
  · intro m h1 h2
    rcases Nat.lt_succ_iff_lt_or_eq.mp h2 with hlt | rfl
    · exact hw.waits m h1 hlt
    · rw [h.wRetireReady_eq rfl, hxk, wMemReadyNow_of_arb hw.owns.valid, hn]
      rfl

/-- The answer comes: in cycle `t`, to the instruction of cycle `n`. -/
def Answered (r : Run) (n : Nat) : Prop :=
  ∃ t, r.Waits n t ∧ (axiResp (r.state t) (r.input t)).ready = true

theorem Responsive.readData (hr : r.Responsive) {n k : Nat} (hw : r.Waits n k)
    (hp : (r.state k).axi.state = .readData) : r.Answered n := by
  have hev : ∃ m, k ≤ m ∧ (r.axi m).rvalid = true := hr.read k (by simp [AxiMaster.rready, hp])
  have hnext : ∀ m, r.Waits n m ∧ (r.state m).axi.state = .readData → ¬ (r.axi m).rvalid = true →
      r.Waits n (m + 1) ∧ (r.state (m + 1)).axi.state = .readData := by
    rintro m ⟨hwm, hpm⟩ hv
    have hn : (axiResp (r.state m) (r.input m)).ready = false := by
      simp [axiResp, AxiMaster.resp, AxiMaster.readFire, AxiMaster.writeDone, hpm, hv, input]
    exact ⟨hwm.step hn, AxiMaster.next_waiting hpm hn⟩
  obtain ⟨t, _, ⟨hwt, hpt⟩, hv⟩ := Clocked.leads ⟨hw, hp⟩ hnext hev
  refine ⟨t, hwt, ?_⟩
  simp [axiResp, AxiMaster.resp, AxiMaster.readFire, hpt, hv, input]

theorem Responsive.readAddr (hr : r.Responsive) {n k : Nat} (hw : r.Waits n k)
    (hp : (r.state k).axi.state = .readAddr) : r.Answered n := by
  have hquiet : ∀ m, (r.state m).axi.state = .readAddr →
      (axiResp (r.state m) (r.input m)).ready = false := by
    intro m hm
    simp [axiResp, AxiMaster.resp, AxiMaster.readFire, AxiMaster.writeDone, hm]
  have hev : ∃ m, k ≤ m ∧ (r.axi m).arready = true := hr.ar k (by simp [AxiMaster.arvalid, hp])
  have hnext : ∀ m, r.Waits n m ∧ (r.state m).axi.state = .readAddr → ¬ (r.axi m).arready = true →
      r.Waits n (m + 1) ∧ (r.state (m + 1)).axi.state = .readAddr := by
    rintro m ⟨hwm, hpm⟩ hv
    refine ⟨hwm.step (hquiet m hpm), ?_⟩
    rw [r.state_axi_succ]
    simp [AxiMaster.next, hpm, hv]
  obtain ⟨t, _, ⟨hwt, hpt⟩, hv⟩ := Clocked.leads ⟨hw, hp⟩ hnext hev
  refine hr.readData (hwt.step (hquiet t hpt)) ?_
  rw [r.state_axi_succ]
  simp [AxiMaster.next, hpt, hv]

theorem Responsive.writeResp (hr : r.Responsive) {n k : Nat} (hw : r.Waits n k)
    (hp : (r.state k).axi.state = .writeResp) : r.Answered n := by
  have hev : ∃ m, k ≤ m ∧ (r.axi m).bvalid = true := hr.b k (by simp [AxiMaster.bready, hp])
  have hnext : ∀ m, r.Waits n m ∧ (r.state m).axi.state = .writeResp → ¬ (r.axi m).bvalid = true →
      r.Waits n (m + 1) ∧ (r.state (m + 1)).axi.state = .writeResp := by
    rintro m ⟨hwm, hpm⟩ hv
    have hn : (axiResp (r.state m) (r.input m)).ready = false := by
      simp [axiResp, AxiMaster.resp, AxiMaster.readFire, AxiMaster.writeDone, hpm, hv, input]
    refine ⟨hwm.step hn, ?_⟩
    rw [r.state_axi_succ]
    simp [AxiMaster.next, hpm, hv]
  obtain ⟨t, _, ⟨hwt, hpt⟩, hv⟩ := Clocked.leads ⟨hw, hp⟩ hnext hev
  refine ⟨t, hwt, ?_⟩
  simp [axiResp, AxiMaster.resp, AxiMaster.writeDone, hpt, hv, input]

theorem quiet_writeReq {m : Nat} (hp : (r.state m).axi.state = .writeReq) :
    (axiResp (r.state m) (r.input m)).ready = false := by
  simp [axiResp, AxiMaster.resp, AxiMaster.readFire, AxiMaster.writeDone, hp]

theorem Responsive.writeReq_aw (hr : r.Responsive) {n k : Nat} (hw : r.Waits n k)
    (hp : (r.state k).axi.state = .writeReq) (hd : (r.state k).axi.awDone = true) :
    r.Answered n := by
  have hev : ∃ m, k ≤ m ∧ ((r.state m).axi.wDone || (r.axi m).wready) = true := by
    cases hwd : (r.state k).axi.wDone with
    | true => exact ⟨k, Nat.le_refl k, by simp [hwd]⟩
    | false =>
      obtain ⟨m, hm, hv⟩ := hr.w k (by simp [AxiMaster.wvalid, hp, hwd])
      exact ⟨m, hm, by simp [hv]⟩
  have hnext : ∀ m, (r.Waits n m ∧ (r.state m).axi.state = .writeReq ∧
      (r.state m).axi.awDone = true) → ¬ ((r.state m).axi.wDone || (r.axi m).wready) = true →
      r.Waits n (m + 1) ∧ (r.state (m + 1)).axi.state = .writeReq ∧
        (r.state (m + 1)).axi.awDone = true := by
    rintro m ⟨hwm, hpm, hdm⟩ hv
    obtain ⟨h1, _, h3⟩ := AxiMaster.next_writeReq (axiReq (r.state m) (r.input m)) (r.axi m) hpm
    rw [r.state_axi_succ, h1, h3]
    exact ⟨hwm.step (quiet_writeReq hpm), by simp [hdm, hv], by simp [hdm]⟩
  obtain ⟨t, _, ⟨hwt, hpt, hdt⟩, hv⟩ := Clocked.leads ⟨hw, hp, hd⟩ hnext hev
  refine hr.writeResp (hwt.step (quiet_writeReq hpt)) ?_
  rw [r.state_axi_succ,
    (AxiMaster.next_writeReq (axiReq (r.state t) (r.input t)) (r.axi t) hpt).2.2]
  simp [hdt, hv]

theorem Responsive.writeReq (hr : r.Responsive) {n k : Nat} (hw : r.Waits n k)
    (hp : (r.state k).axi.state = .writeReq) : r.Answered n := by
  have hev : ∃ m, k ≤ m ∧ ((r.state m).axi.awDone || (r.axi m).awready) = true := by
    cases hd : (r.state k).axi.awDone with
    | true => exact ⟨k, Nat.le_refl k, by simp [hd]⟩
    | false =>
      obtain ⟨m, hm, hv⟩ := hr.aw k (by simp [AxiMaster.awvalid, hp, hd])
      exact ⟨m, hm, by simp [hv]⟩
  have hnext : ∀ m, r.Waits n m ∧ (r.state m).axi.state = .writeReq →
      ¬ ((r.state m).axi.awDone || (r.axi m).awready) = true →
      r.Waits n (m + 1) ∧ (r.state (m + 1)).axi.state = .writeReq := by
    rintro m ⟨hwm, hpm⟩ hv
    rw [r.state_axi_succ,
      (AxiMaster.next_writeReq (axiReq (r.state m) (r.input m)) (r.axi m) hpm).2.2]
    exact ⟨hwm.step (quiet_writeReq hpm), by simp [hv]⟩
  obtain ⟨t, _, ⟨hwt, hpt⟩, hv⟩ := Clocked.leads ⟨hw, hp⟩ hnext hev
  have hwt' := hwt.step (quiet_writeReq hpt)
  obtain ⟨h1, _, h3⟩ := AxiMaster.next_writeReq (axiReq (r.state t) (r.input t)) (r.axi t) hpt
  rw [hv] at h1 h3
  split at h3
  · exact hr.writeResp hwt' h3
  · exact hr.writeReq_aw hwt' h3 h1

theorem Responsive.answered (hr : r.Responsive) {n : Nat}
    (ho : LsuOwns (r.state n) (r.input n)) : r.Answered n := by
  have hp := ho.phase
  split at hp
  · rcases hp with hp | hp
    · exact hr.writeReq (Waits.start ho) hp
    · exact hr.writeResp (Waits.start ho) hp
  · rcases hp with hp | hp
    · exact hr.readAddr (Waits.start ho) hp
    · exact hr.readData (Waits.start ho) hp

/-- Some channel makes a handshake for the LSU. -/
def lsuHandshake (r : Run) (n : Nat) : Bool :=
  r.lsuAr n || r.lsuR n || r.lsuAw n || r.lsuW n || r.lsuB n

theorem Conforming.owns_of_handshake (hc : r.Conforming) {n : Nat}
    (hh : r.lsuHandshake n = true) : LsuOwns (r.state n) (r.input n) := by
  cases hc.ownership n with
  | lsu ho _ => exact ho
  | ifu ho =>
    have hl : r.lsuSelected n = false := ho.not_arb
    obtain ⟨h1, h2, h3, h4, h5⟩ := quiet_of_unselected hl
    simp [lsuHandshake, h1, h2, h3, h4, h5] at hh
  | idle hi _ =>
    have h1 := quiet_of_phase_ne_readAddr (r := r) (n := n) (by rw [hi]; decide)
    have h2 := quiet_of_phase_ne_readData (r := r) (n := n) (by rw [hi]; decide)
    have h3 := quiet_of_phase_ne_writeReq (r := r) (n := n) (by rw [hi]; decide)
    have h4 := quiet_of_phase_ne_writeResp (r := r) (n := n) (by rw [hi]; decide)
    simp [lsuHandshake, h1, h2, h3, h4] at hh

/-- Exactly-once memory effects. An instruction that retires has made one whole
transaction if it accesses memory outside the CLINT window and none otherwise;
and every handshake of the LSU is for an instruction that stays in W until it
retires. -/
theorem exactly_once (hc : r.Conforming) (hr : r.Responsive) (n : Nat) :
    (wRetireReady (r.state n) (r.input n) = true → ∃ e, r.Holds e n ∧
      if (r.state n).xw.accesses = true ∧ ¬ inClint (r.state n).xw.lsuAddr then
        if (r.state n).xw.memWen then r.WriteTransaction e n else r.ReadTransaction e n
      else r.NoTransaction e (n + 1)) ∧
    (r.lsuHandshake n = true → ∃ t, n ≤ t ∧ wRetireReady (r.state t) (r.input t) = true ∧
      (∀ m, n ≤ m → m ≤ t → (r.state m).xwValid = true ∧ (r.state m).xw = (r.state n).xw) ∧
      (∀ m, n ≤ m → m < t → wRetireReady (r.state m) (r.input m) = false)) := by
  constructor
  · intro hret
    obtain ⟨_, hh, hx, _⟩ := wRetireReady_iff.mp hret
    obtain ⟨e, he⟩ := r.holds_of_valid n hx
    have htx := hc.transaction_of_retire he hret
    have hiff := lsuArbValid_iff (i := r.input n) (r.inFlight n) rfl hh hx
    refine ⟨e, he, ?_⟩
    cases hl : r.lsuSelected n with
    | true =>
      rw [hl, if_pos rfl, lsuWen_of_arb hl] at htx
      rw [if_pos (hiff.mp hl)]
      exact htx
    | false =>
      have hno : ¬ ((r.state n).xw.accesses = true ∧ ¬ inClint (r.state n).xw.lsuAddr) := by
        intro hc
        rw [show r.lsuSelected n = true from hiff.mpr hc] at hl
        exact absurd hl (by decide)
      rw [hl] at htx
      rw [if_neg hno]
      exact htx
  · intro hh
    obtain ⟨t, hw, hresp⟩ := hr.answered (hc.owns_of_handshake hh)
    exact ⟨t, hw.le, (hw.owns.answered (r.occupancy t) rfl hresp).1, hw.stays, hw.waits⟩

/-- `sw x0, 0(x0)` followed by `nop` words. -/
def storeRun : Run := eagerRun
  (fun b => if b.addr = resetPcDefault ∧ b.beat = 0 then 0x00002023#32 else 0x00000013#32)
  (fun _ => 0#2)

theorem exactly_once_store :
    wRetireReady (storeRun.state 11) (storeRun.input 11) = true ∧
    (storeRun.state 11).xw.inst = 0x00002023#32 ∧
    ∃ e, storeRun.Holds e 11 ∧ storeRun.WriteTransaction e 11 := by
  have hret : wRetireReady (storeRun.state 11) (storeRun.input 11) = true := by decide +kernel
  refine ⟨hret, by decide +kernel, ?_⟩
  have hc : storeRun.Conforming := eagerRun_conforming _ _
  have hr : storeRun.Responsive := eagerRun_responsive _ _
  obtain ⟨e, he, htx⟩ := (exactly_once hc hr 11).1 hret
  have hacc : (storeRun.state 11).xw.accesses = true ∧
      ¬ inClint (storeRun.state 11).xw.lsuAddr := by
    decide +kernel
  have hwen : (storeRun.state 11).xw.memWen = true := by decide +kernel
  rw [if_pos hacc, if_pos hwen] at htx
  exact ⟨e, he, htx⟩

end Run

end Npc.Core
