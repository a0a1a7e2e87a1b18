import AiOsoc.Clocked
import AiOsoc.Npc.Bus

/-!
# The handshakes of the bus master

`rtl/bus/AxiMaster.v` on its own, against any slave and any request port: the
request may change or vanish in every cycle, and the slave may raise its readys
and valids in any order.
-/

namespace Npc.AxiMaster

set_option autoImplicit false

/-! ## One edge -/

section Edge
variable {m : State} {axi : AxiIn}

theorem arvalid_next (req : BusReq) (hv : arvalid m = true) (hr : axi.arready = false) :
    next m req axi = m := by
  have hp : m.state = .readAddr := by simpa [arvalid] using hv
  simp [next, hp, hr]

theorem awvalid_next (req : BusReq) (hv : awvalid m = true) (hr : axi.awready = false) :
    awvalid (next m req axi) = true ∧ (next m req axi).addrQ = m.addrQ ∧
      (next m req axi).wmaskQ = m.wmaskQ := by
  obtain ⟨hp, hd⟩ : m.state = .writeReq ∧ m.awDone = false := by simpa [awvalid] using hv
  simp [next, awvalid, awFire, hp, hd, hr]

theorem wvalid_next (req : BusReq) (hv : wvalid m = true) (hr : axi.wready = false) :
    wvalid (next m req axi) = true ∧ (next m req axi).wdataQ = m.wdataQ ∧
      (next m req axi).wmaskQ = m.wmaskQ := by
  obtain ⟨hp, hd⟩ : m.state = .writeReq ∧ m.wDone = false := by simpa [wvalid] using hv
  simp [next, wvalid, wFire, hp, hd, hr]

/-- An edge of a write before its response: the two flags record the handshakes,
and the phase follows the flags. -/
theorem next_write (req : BusReq)
    (hp : m.state = if m.awDone && m.wDone then .writeResp else .writeReq)
    (hn : writeDone m axi = false) :
    (next m req axi).awDone = (m.awDone || awFire m axi) ∧
      (next m req axi).wDone = (m.wDone || wFire m axi) ∧
      ((next m req axi).state =
        if (next m req axi).awDone && (next m req axi).wDone then .writeResp else .writeReq) ∧
      (next m req axi).addrQ = m.addrQ ∧ (next m req axi).wdataQ = m.wdataQ ∧
      (next m req axi).wmaskQ = m.wmaskQ := by
  cases hd : m.awDone && m.wDone with
  | true =>
    rw [hd] at hp
    have hs : m.state = .writeResp := hp
    have hb : axi.bvalid = false := by simpa [writeDone, hs] using hn
    have hm : next m req axi = m := by simp [next, hs, hb]
    simp [hm, awFire, wFire, awvalid, wvalid, hs, hd]
  | false =>
    rw [hd] at hp
    have hs : m.state = .writeReq := by simpa using hp
    cases ha : awFire m axi <;> cases hw : wFire m axi <;> simp [next, hs, ha, hw, hd]

/-- An edge of a read before its last beat. -/
theorem next_read (req : BusReq) (hp : m.state = .readAddr ∨ m.state = .readData)
    (hn : readLast m axi = false) :
    (next m req axi).state = (if rready m || arFire m axi then .readData else .readAddr) ∧
      (next m req axi).addrQ = m.addrQ ∧ (next m req axi).lenQ = m.lenQ := by
  rcases hp with hs | hs
  · cases ha : axi.arready <;> simp [next, rready, arFire, arvalid, hs, ha]
  · cases hf : readFire m axi <;> simp [next, rready, hs, hf, hn]

theorem next_ends (req : BusReq) (he : (readLast m axi || writeDone m axi) = true) :
    (next m req axi).state = .idle := by
  rw [Bool.or_eq_true] at he
  apply next_answered
  · rcases he with hl | hw
    · simp only [readLast, Bool.and_eq_true] at hl
      simp [resp, hl.1]
    · simp [resp, hw]
  · intro hp
    rcases he with hl | hw
    · simp only [readLast, Bool.and_eq_true] at hl
      exact hl.2
    · simp [writeDone, hp] at hw

end Edge

/-! ## Runs -/

/-- The inputs of the module in one cycle. -/
structure Input where
  reset : Bool
  req : BusReq
  axi : AxiIn

/-- A clock edge. -/
def clock (m : State) (i : Input) : State := if i.reset then reset else next m i.req i.axi

/-- The inputs of every cycle since a reset. -/
structure Run where
  input : Nat → Input

namespace Run
variable (r : Run)

def state : Nat → State := Clocked.state clock reset r.input
def resets (n : Nat) : Bool := (r.input n).reset
def req (n : Nat) : BusReq := (r.input n).req
def axi (n : Nat) : AxiIn := (r.input n).axi

def ar (n : Nat) : Bool := arFire (r.state n) (r.axi n)
def aw (n : Nat) : Bool := awFire (r.state n) (r.axi n)
def w (n : Nat) : Bool := wFire (r.state n) (r.axi n)
def b (n : Nat) : Bool := bFire (r.state n) (r.axi n)

/-- A transaction ends with its response, or with the last beat of its data. -/
def ends (n : Nat) : Bool := readLast (r.state n) (r.axi n) || writeDone (r.state n) (r.axi n)

theorem state_succ {n : Nat} (h : r.resets n = false) :
    r.state (n + 1) = next (r.state n) (r.req n) (r.axi n) := by
  simp only [resets] at h
  simp [state, Clocked.state, clock, h, req, axi]

theorem state_reset {n : Nat} (h : r.resets n = true) : r.state (n + 1) = reset := by
  simp only [resets] at h
  simp [state, Clocked.state, clock, h]

/-- From a cycle with `valid` on, it stays on and the payload stays as it is, for
as long as the matching ready is off. -/
def Stable {P : Type} (valid : State → Bool) (ready : AxiIn → Bool) (payload : State → P) : Prop :=
  ∀ a b, a ≤ b → (∀ k, a ≤ k → k < b → r.resets k = false ∧ ready (r.axi k) = false) →
    valid (r.state a) = true →
      valid (r.state b) = true ∧ payload (r.state b) = payload (r.state a)

theorem stable_of_next {P : Type} {valid : State → Bool} {ready : AxiIn → Bool}
    {payload : State → P} (h : ∀ m req axi, valid m = true → ready axi = false →
      valid (next m req axi) = true ∧ payload (next m req axi) = payload m) :
    r.Stable valid ready payload := by
  intro a b hab hready hv
  refine Clocked.stays
    (P := fun n => valid (r.state n) = true ∧ payload (r.state n) = payload (r.state a))
    (D := fun n => ¬ (r.resets n = false ∧ ready (r.axi n) = false)) hab ⟨hv, rfl⟩ ?_ ?_
  · intro n h1 h2 hn
    exact hn (hready n h1 h2)
  · intro n hn hwait
    obtain ⟨hreset, hwait⟩ := not_not.mp hwait
    rw [r.state_succ hreset]
    obtain ⟨h1, h2⟩ := h _ (r.req n) _ hn.1 hwait
    exact ⟨h1, h2.trans hn.2⟩

theorem ar_stable :
    r.Stable arvalid AxiIn.arready (fun m => (araddr m, arlen m, arsize m)) := by
  apply r.stable_of_next
  intro m req axi hv hr
  rw [arvalid_next req hv hr]
  exact ⟨hv, rfl⟩

theorem aw_stable :
    r.Stable awvalid AxiIn.awready (fun m => (awaddr m, awlen, awsize m)) := by
  apply r.stable_of_next
  intro m req axi hv hr
  obtain ⟨h, ha, hm⟩ := awvalid_next req hv hr
  refine ⟨h, ?_⟩
  simp only [awaddr, awsize, ha, hm]

theorem w_stable : r.Stable wvalid AxiIn.wready (fun m => (wdata m, wstrb m)) := by
  apply r.stable_of_next
  intro m req axi hv hr
  obtain ⟨h, hd, hm⟩ := wvalid_next req hv hr
  refine ⟨h, ?_⟩
  simp only [wdata, wstrb, hd, hm]

/-! ## Transactions -/

def beginsRead (n : Nat) : Bool := !r.resets n && startRead (r.state n) (r.req n)
def beginsWrite (n : Nat) : Bool := !r.resets n && startWrite (r.state n) (r.req n)
def begins (n : Nat) : Bool := r.beginsRead n || r.beginsWrite n

/-- What began in cycle `a` was neither reset nor ended before cycle `t`. -/
structure Open (a t : Nat) : Prop where
  lt : a < t
  going : ∀ k, a ≤ k → k < t → r.resets k = false ∧ r.ends k = false

/-- A channel offers its transfer until its one handshake. -/
def Offers (valid : State → Bool) (fire : Nat → Bool) (a t : Nat) : Prop :=
  (valid (r.state t) = true ∧ Clocked.Never fire (a + 1) t) ∨
  (valid (r.state t) = false ∧ Clocked.Once fire (a + 1) t)

/-- Cycle `t` of the read begun in cycle `a`. -/
structure Reading (a t : Nat) : Prop where
  ar : r.Offers arvalid r.ar a t
  rready : rready (r.state t) = true ↔ Clocked.Once r.ar (a + 1) t
  address : araddr (r.state t) = (r.req a).addr ∧ arlen (r.state t) = (r.req a).len
  noWrite : awvalid (r.state t) = false ∧ wvalid (r.state t) = false ∧ bready (r.state t) = false

/-- Cycle `t` of the write begun in cycle `a`. -/
structure Writing (a t : Nat) : Prop where
  aw : r.Offers awvalid r.aw a t
  w : r.Offers wvalid r.w a t
  bready : bready (r.state t) = true ↔
    Clocked.Once r.aw (a + 1) t ∧ Clocked.Once r.w (a + 1) t
  b : Clocked.Never r.b (a + 1) t
  ends : r.ends t = r.b t
  address : awaddr (r.state t) = (r.req a).addr
  data : wdata (r.state t) = (r.req a).wdata ∧ wstrb (r.state t) = (r.req a).wmask
  noRead : arvalid (r.state t) = false ∧ rready (r.state t) = false

/-- No channel is driven. -/
structure Idle (t : Nat) : Prop where
  ar : arvalid (r.state t) = false
  read : rready (r.state t) = false
  aw : awvalid (r.state t) = false
  w : wvalid (r.state t) = false
  b : bready (r.state t) = false

/-- The registers in cycle `t` of the read begun in cycle `a`. -/
structure ReadRegs (a t : Nat) : Prop where
  phase : (r.state t).state = .readAddr ∨ (r.state t).state = .readData
  ar : Clocked.Flags r.ar (AxiMaster.rready (r.state t)) (a + 1) t
  addr : (r.state t).addrQ = (r.req a).addr
  len : (r.state t).lenQ = (r.req a).len

/-- The registers in cycle `t` of the write begun in cycle `a`. -/
structure WriteRegs (a t : Nat) : Prop where
  phase : (r.state t).state =
    if (r.state t).awDone && (r.state t).wDone then .writeResp else .writeReq
  aw : Clocked.Flags r.aw (r.state t).awDone (a + 1) t
  w : Clocked.Flags r.w (r.state t).wDone (a + 1) t
  b : Clocked.Never r.b (a + 1) t
  addr : (r.state t).addrQ = (r.req a).addr
  data : (r.state t).wdataQ = (r.req a).wdata
  mask : (r.state t).wmaskQ = (r.req a).wmask

variable {r} {a t : Nat}

theorem idle_of_state (h : (r.state t).state = .idle) : r.Idle t := by
  constructor <;> simp [arvalid, AxiMaster.rready, awvalid, wvalid, AxiMaster.bready, h]

theorem readRegs_start (h : r.beginsRead a = true) : r.ReadRegs a (a + 1) := by
  obtain ⟨hr, hs⟩ : r.resets a = false ∧ startRead (r.state a) (r.req a) = true := by
    simpa [beginsRead] using h
  obtain ⟨⟨hi, hv⟩, hw⟩ : ((r.state a).state = .idle ∧ (r.req a).valid = true) ∧
      (r.req a).write = false := by
    simpa [startRead] using hs
  have hn : (r.state (a + 1)).state = .readAddr := by
    rw [r.state_succ hr, (next_start _ _ hi hv).1, hw]
    rfl
  refine ⟨Or.inl hn, ?_, ?_, ?_⟩
  · simp only [AxiMaster.rready, hn]
    exact Clocked.never_nil _ _
  · rw [r.state_succ hr]
    simp [next, hi, hs]
  · rw [r.state_succ hr]
    simp [next, hi, hs]

theorem writeRegs_start (h : r.beginsWrite a = true) : r.WriteRegs a (a + 1) := by
  obtain ⟨hr, hs⟩ : r.resets a = false ∧ startWrite (r.state a) (r.req a) = true := by
    simpa [beginsWrite] using h
  obtain ⟨⟨hi, hv⟩, hw⟩ : ((r.state a).state = .idle ∧ (r.req a).valid = true) ∧
      (r.req a).write = true := by
    simpa [startWrite] using hs
  obtain ⟨hn, ha, hwd⟩ := next_start (r.req a) (r.axi a) hi hv
  rw [hw] at hn
  rw [← r.state_succ hr] at hn ha hwd
  refine ⟨?_, ?_, ?_, Clocked.never_nil _ _, ?_, ?_, ?_⟩
  · rw [hn, ha]
    rfl
  · rw [ha]
    exact Clocked.never_nil _ _
  · rw [hwd]
    exact Clocked.never_nil _ _
  all_goals
    rw [r.state_succ hr]
    simp [next, hi, hs]

theorem ReadRegs.next (h : r.ReadRegs a t) (hat : a < t) (hr : r.resets t = false)
    (he : r.ends t = false) : r.ReadRegs a (t + 1) := by
  simp only [ends, Bool.or_eq_false_iff] at he
  obtain ⟨hs, haddr, hlen⟩ := next_read (r.req t) h.phase he.1
  rw [← r.state_succ hr] at hs haddr hlen
  refine ⟨?_, ?_, haddr.trans h.addr, hlen.trans h.len⟩
  · rw [hs]
    split
    · exact Or.inr rfl
    · exact Or.inl rfl
  · -- the data phase is the flag: it is entered by the address handshake
    have hflag : AxiMaster.rready (r.state (t + 1)) = (AxiMaster.rready (r.state t) || r.ar t) := by
      rw [AxiMaster.rready, hs]
      simp only [Run.ar]
      split
      · simp_all
      · simp_all
    rw [hflag]
    apply h.ar.next hat
    intro hd
    have hp : (r.state t).state = .readData := by simpa [AxiMaster.rready] using hd
    simp [Run.ar, arFire, arvalid, hp]

theorem WriteRegs.next (h : r.WriteRegs a t) (hat : a < t) (hr : r.resets t = false)
    (he : r.ends t = false) : r.WriteRegs a (t + 1) := by
  simp only [ends, Bool.or_eq_false_iff] at he
  obtain ⟨haw, hw, hs, haddr, hdata, hmask⟩ := next_write (r.req t) h.phase he.2
  rw [← r.state_succ hr] at haw hw hs haddr hdata hmask
  refine ⟨hs, ?_, ?_, h.b.snoc he.2, haddr.trans h.addr, hdata.trans h.data,
    hmask.trans h.mask⟩
  · rw [haw]
    apply h.aw.next hat
    intro hd
    simp [Run.aw, awFire, awvalid, hd]
  · rw [hw]
    apply h.w.next hat
    intro hd
    simp [Run.w, wFire, wvalid, hd]

/-- What the edges of an open transaction keep holds for as long as it is open. -/
theorem Open.keeps {P : Nat → Prop} (ho : r.Open a t) (start : P (a + 1))
    (next : ∀ n, a < n → P n → r.resets n = false → r.ends n = false → P (n + 1)) : P t := by
  have h : a < t ∧ P t := by
    refine Clocked.stays (P := fun n => a < n ∧ P n)
      (D := fun n => ¬ (r.resets n = false ∧ r.ends n = false)) ho.lt
      ⟨Nat.lt_succ_self a, start⟩ ?_ ?_
    · intro n h1 h2 hn
      exact hn (ho.going n (Nat.le_of_lt h1) h2)
    · intro n hn hgo
      obtain ⟨hr, he⟩ := not_not.mp hgo
      exact ⟨Nat.lt_succ_of_lt hn.1, next n hn.1 hn.2 hr he⟩
  exact h.2

theorem Open.readRegs (ho : r.Open a t) (hb : r.beginsRead a = true) : r.ReadRegs a t :=
  ho.keeps (readRegs_start hb) (fun _ hn h hr he => h.next hn hr he)

theorem Open.writeRegs (ho : r.Open a t) (hb : r.beginsWrite a = true) : r.WriteRegs a t :=
  ho.keeps (writeRegs_start hb) (fun _ hn h hr he => h.next hn hr he)

theorem offers_of_flags {valid : State → Bool} {fire : Nat → Bool} {d : Bool}
    (hv : valid (r.state t) = !d) (h : Clocked.Flags fire d (a + 1) t) :
    r.Offers valid fire a t := by
  cases d with
  | true => exact Or.inr ⟨hv, h⟩
  | false => exact Or.inl ⟨hv, h⟩

theorem ReadRegs.reading (h : r.ReadRegs a t) : r.Reading a t := by
  refine ⟨offers_of_flags ?_ h.ar, h.ar.once_iff.symm, ⟨h.addr, h.len⟩, ?_⟩
  · rcases h.phase with hp | hp <;> simp [arvalid, AxiMaster.rready, hp]
  · rcases h.phase with hp | hp <;> simp [awvalid, wvalid, AxiMaster.bready, hp]

theorem ReadRegs.once_of_ends (h : r.ReadRegs a t) (he : r.ends t = true) :
    Clocked.Once r.ar (a + 1) (t + 1) := by
  have hp : (r.state t).state = .readData := by
    rcases h.phase with hp | hp
    · simp [ends, readLast, readFire, writeDone, hp] at he
    · exact hp
  have hflag := h.ar
  simp only [AxiMaster.rready, hp, decide_true] at hflag
  exact Clocked.Once.snoc hflag (by simp [Run.ar, arFire, arvalid, hp])

theorem WriteRegs.writing (h : r.WriteRegs a t) : r.Writing a t := by
  have hp := h.phase
  have hresp : AxiMaster.bready (r.state t) = ((r.state t).awDone && (r.state t).wDone) := by
    cases hd : (r.state t).awDone && (r.state t).wDone <;> simp [AxiMaster.bready, hp, hd]
  have hread : (r.state t).state ≠ .readAddr ∧ (r.state t).state ≠ .readData := by
    rw [hp]
    split <;> decide
  refine ⟨offers_of_flags ?_ h.aw, offers_of_flags ?_ h.w, ?_, h.b, ?_, h.addr,
    ⟨h.data, h.mask⟩, ?_⟩
  · cases hd : (r.state t).awDone <;> simp [awvalid, hp, hd]
  · cases hd : (r.state t).wDone <;> simp [wvalid, hp, hd]
  · rw [h.aw.once_iff, h.w.once_iff, hresp, Bool.and_eq_true]
  · simp [ends, Run.b, bFire, writeDone, AxiMaster.bready, readLast, readFire, hread]
  · simp [arvalid, AxiMaster.rready, hread]

theorem not_idle_of_open (hb : r.begins a = true) (ho : r.Open a t) :
    (r.state t).state ≠ .idle := by
  simp only [begins, Bool.or_eq_true] at hb
  rcases hb with hb | hb
  · rcases (ho.readRegs hb).phase with hp | hp <;> simp [hp]
  · rw [(ho.writeRegs hb).phase]
    split <;> decide

theorem idle_of_begins (hb : r.begins t = true) : (r.state t).state = .idle := by
  simp only [begins, beginsRead, beginsWrite, startRead, startWrite, Bool.or_eq_true,
    Bool.and_eq_true, decide_eq_true_eq] at hb
  rcases hb with hb | hb
  · exact hb.2.1.1
  · exact hb.2.1.1

theorem open_unique {a' : Nat} (hb : r.begins a = true) (hb' : r.begins a' = true)
    (ho : r.Open a t) (ho' : r.Open a' t) : a = a' := by
  -- the later of the two would have begun while the earlier one was open
  rcases Nat.lt_trichotomy a a' with hlt | heq | hlt
  · have hmid : r.Open a a' := ⟨hlt, fun k h1 h2 => ho.going k h1 (Nat.lt_trans h2 ho'.lt)⟩
    exact absurd (idle_of_begins hb') (not_idle_of_open hb hmid)
  · exact heq
  · have hmid : r.Open a' a := ⟨hlt, fun k h1 h2 => ho'.going k h1 (Nat.lt_trans h2 ho.lt)⟩
    exact absurd (idle_of_begins hb) (not_idle_of_open hb' hmid)

theorem idle_after_ends (he : r.ends t = true) : (r.state (t + 1)).state = .idle := by
  cases hr : r.resets t with
  | false =>
    rw [r.state_succ hr]
    exact next_ends _ he
  | true =>
    rw [r.state_reset hr]
    rfl

theorem Open.succ (ho : r.Open a t) (hr : r.resets t = false) (he : r.ends t = false) :
    r.Open a (t + 1) := by
  refine ⟨Nat.lt_succ_of_lt ho.lt, ?_⟩
  intro k h1 h2
  rcases Nat.lt_succ_iff_lt_or_eq.mp h2 with hlt | rfl
  · exact ho.going k h1 hlt
  · exact ⟨hr, he⟩

/-- A cycle that is not idle belongs to a transaction. -/
theorem idle_or_open (r : Run) (t : Nat) :
    (r.state t).state = .idle ∨ ∃ a, r.begins a = true ∧ r.Open a t := by
  induction t with
  | zero => exact Or.inl rfl
  | succ t ih =>
    cases hr : r.resets t with
    | true =>
      rw [r.state_reset hr]
      exact Or.inl rfl
    | false =>
      cases he : r.ends t with
      | true => exact Or.inl (idle_after_ends he)
      | false =>
        rcases ih with hi | ⟨a, hb, ho⟩
        · cases hb : r.begins t with
          | true =>
            refine Or.inr ⟨t, hb, Nat.lt_succ_self t, ?_⟩
            intro k h1 h2
            obtain rfl : k = t := by omega
            exact ⟨hr, he⟩
          | false =>
            obtain ⟨h1, h2⟩ : startRead (r.state t) (r.req t) = false ∧
                startWrite (r.state t) (r.req t) = false := by
              simpa [begins, beginsRead, beginsWrite, hr] using hb
            left
            rw [r.state_succ hr]
            simp [AxiMaster.next, hi, h1, h2]
        · exact Or.inr ⟨a, hb, ho.succ hr he⟩

end Run

/-- The handshake rules of the master. Every cycle of every run is idle or belongs
to the one open transaction. -/
theorem axi_master_handshakes (r : Run) :
    (r.Stable arvalid AxiIn.arready (fun m => (araddr m, arlen m, arsize m)) ∧
      r.Stable awvalid AxiIn.awready (fun m => (awaddr m, awlen, awsize m)) ∧
      r.Stable wvalid AxiIn.wready (fun m => (wdata m, wstrb m))) ∧
    (∀ a t, r.beginsWrite a = true → r.Open a t →
      r.Writing a t ∧ (r.ends t = true → Clocked.Once r.b (a + 1) (t + 1) ∧ r.Idle (t + 1))) ∧
    (∀ a t, r.beginsRead a = true → r.Open a t →
      r.Reading a t ∧ (r.ends t = true → Clocked.Once r.ar (a + 1) (t + 1) ∧ r.Idle (t + 1))) ∧
    (∀ t, r.Idle t ∨ ∃ a, r.begins a = true ∧ r.Open a t) ∧
    (∀ a a' t, r.begins a = true → r.begins a' = true → r.Open a t → r.Open a' t → a = a') := by
  refine ⟨⟨r.ar_stable, r.aw_stable, r.w_stable⟩, ?_, ?_, ?_, ?_⟩
  · intro a t hb ho
    have hw := (ho.writeRegs hb).writing
    refine ⟨hw, fun he => ⟨?_, Run.idle_of_state (Run.idle_after_ends he)⟩⟩
    rw [hw.ends] at he
    exact hw.b.fire ho.lt he
  · intro a t hb ho
    have hr := ho.readRegs hb
    exact ⟨hr.reading, fun he => ⟨hr.once_of_ends he, Run.idle_of_state (Run.idle_after_ends he)⟩⟩
  · intro t
    exact (r.idle_or_open t).imp_left Run.idle_of_state
  · intro a a' t hb hb' ho ho'
    exact Run.open_unique hb hb' ho ho'

-- a write whose data is accepted two cycles before its address
example :
    let r : Run := ⟨fun n => ⟨false, ⟨true, true, 0x80000000#32, 0#8, 7#32, 0xf#4⟩,
      ⟨n == 3, n == 1, true, 0#2, true, true, 0#2, 0#32, true⟩⟩⟩
    r.beginsWrite 0 = true ∧ r.w 1 = true ∧ r.aw 3 = true ∧ r.ends 4 = true := by
  decide

end Npc.AxiMaster
