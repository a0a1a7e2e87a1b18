import AiOsoc.Npc.Units

/-!
# Bus

`AxiArbiter.v` and `AxiMaster.v`. The arbiter is combinational and gives the
LSU priority; the master serves one request of its port at a time.
-/

namespace Npc

set_option autoImplicit false

/-- What the slave drives on the five channels in one cycle. -/
structure AxiIn where
  awready : Bool
  wready : Bool
  bvalid : Bool
  bresp : BitVec 2
  arready : Bool
  rvalid : Bool
  rresp : BitVec 2
  rdata : BitVec 32
  rlast : Bool
  deriving Repr, DecidableEq

/-- The request port of the master. -/
structure BusReq where
  valid : Bool
  write : Bool
  addr : BitVec 32
  len : BitVec 8
  wdata : BitVec 32
  wmask : BitVec 4
  deriving Repr, DecidableEq

/-- The response port of the master. -/
structure BusResp where
  ready : Bool
  rdata : BitVec 32
  error : Bool
  deriving Repr, DecidableEq

namespace AxiArbiter

def useLsu (lsu : BusReq) : Bool := lsu.valid
def useIfu (ifu lsu : BusReq) : Bool := !lsu.valid && ifu.valid

def bus (ifu lsu : BusReq) : BusReq where
  valid := useLsu lsu || useIfu ifu lsu
  write := useLsu lsu && lsu.write
  addr := if useLsu lsu then lsu.addr else ifu.addr
  len := if useLsu lsu then 0#8 else ifu.len
  wdata := if useLsu lsu then lsu.wdata else 0#32
  wmask := if useLsu lsu then lsu.wmask else 0#4

def lsuResp (lsu : BusReq) (bus : BusResp) : BusResp where
  ready := useLsu lsu && bus.ready
  rdata := bus.rdata
  error := useLsu lsu && bus.ready && bus.error

def ifuResp (ifu lsu : BusReq) (bus : BusResp) : BusResp where
  ready := useIfu ifu lsu && bus.ready
  rdata := bus.rdata
  error := useIfu ifu lsu && bus.ready && bus.error

end AxiArbiter

namespace AxiMaster

inductive Phase where
  | idle | readAddr | readData | writeReq | writeResp
  deriving Repr, DecidableEq

structure State where
  state : Phase
  addrQ : BitVec 32
  lenQ : BitVec 8
  readBeatQ : BitVec 8
  wdataQ : BitVec 32
  wmaskQ : BitVec 4
  rdataQ : BitVec 32
  readErrorQ : Bool
  awDone : Bool
  wDone : Bool
  deriving Repr, DecidableEq

def reset : State := ⟨.idle, 0#32, 0#8, 0#8, 0#32, 0#4, 0#32, false, false, false⟩

variable (m : State) (req : BusReq) (axi : AxiIn)

def startRead : Bool := m.state = .idle && req.valid && !req.write
def startWrite : Bool := m.state = .idle && req.valid && req.write
def readFire : Bool := m.state = .readData && axi.rvalid
def readLast : Bool := readFire m axi && (axi.rlast || m.readBeatQ == m.lenQ)
def writeDone : Bool := m.state = .writeResp && axi.bvalid

def awvalid : Bool := m.state = .writeReq && !m.awDone
def awaddr : BitVec 32 := m.addrQ
def awlen : BitVec 8 := 0#8
def awsize : BitVec 3 :=
  if m.addrQ.extractLsb' 0 2 == 0b00#2 && m.wmaskQ == 0b1111#4 then 0b010#3
  else if m.addrQ.getLsbD 0 == false && (m.wmaskQ == 0b0011#4 || m.wmaskQ == 0b1100#4) then 0b001#3
  else 0b000#3
def wvalid : Bool := m.state = .writeReq && !m.wDone
def wdata : BitVec 32 := m.wdataQ
def wstrb : BitVec 4 := m.wmaskQ
def bready : Bool := m.state = .writeResp
def arvalid : Bool := m.state = .readAddr
def araddr : BitVec 32 := m.addrQ
def arlen : BitVec 8 := m.lenQ
def arsize : BitVec 3 := if m.addrQ.extractLsb' 16 16 == 0x1000#16 then 0b000#3 else 0b010#3
def rready : Bool := m.state = .readData

def awFire : Bool := awvalid m && axi.awready
def wFire : Bool := wvalid m && axi.wready
def arFire : Bool := arvalid m && axi.arready
def rFire : Bool := rready m && axi.rvalid
def bFire : Bool := bready m && axi.bvalid

def resp : BusResp where
  ready := readFire m axi || writeDone m axi
  rdata := if readFire m axi then axi.rdata else m.rdataQ
  error := (readFire m axi && (m.readErrorQ || axi.rresp != 0b00#2)) ||
    (writeDone m axi && axi.bresp != 0b00#2)

def next : State :=
  match m.state with
  | .idle =>
    let n := { m with awDone := false, wDone := false, readBeatQ := 0#8, readErrorQ := false }
    if startRead m req || startWrite m req then
      { n with
        addrQ := req.addr
        lenQ := if startRead m req then req.len else 0#8
        wdataQ := req.wdata
        wmaskQ := req.wmask
        state := if startWrite m req then .writeReq else .readAddr }
    else n
  | .readAddr => if axi.arready then { m with state := .readData } else m
  | .readData =>
    if readFire m axi then
      { m with
        rdataQ := axi.rdata
        readErrorQ := m.readErrorQ || axi.rresp != 0b00#2
        readBeatQ := m.readBeatQ + 1#8
        state := if readLast m axi then .idle else m.state }
    else m
  | .writeReq =>
    { m with
      awDone := if awFire m axi then true else m.awDone
      wDone := if wFire m axi then true else m.wDone
      state := if (m.awDone || awFire m axi) && (m.wDone || wFire m axi) then .writeResp
        else m.state }
  | .writeResp => if axi.bvalid then { m with state := .idle } else m

/-! ## One edge of the master -/

section Edge
variable {m : State} {req : BusReq} {axi : AxiIn}

theorem resp_idle (hi : m.state = .idle) : (resp m axi).ready = false := by
  simp [resp, readFire, writeDone, hi]

theorem resp_phase (hr : (resp m axi).ready = true) :
    m.state = .readData ∨ m.state = .writeResp := by
  simp only [resp, readFire, writeDone, Bool.or_eq_true, Bool.and_eq_true, decide_eq_true_eq] at hr
  rcases hr with hr | hr
  · exact Or.inl hr.1
  · exact Or.inr hr.1

theorem next_start (req : BusReq) (axi : AxiIn) (hi : m.state = .idle) (hv : req.valid = true) :
    (next m req axi).state = (if req.write then .writeReq else .readAddr) ∧
      (next m req axi).awDone = false ∧ (next m req axi).wDone = false := by
  cases hw : req.write <;> simp [next, hi, startRead, startWrite, hv, hw]

/-- A busy master that does not answer keeps what it latched. -/
theorem next_keeps (req : BusReq) (hb : m.state ≠ .idle) (hn : (resp m axi).ready = false) :
    (next m req axi).addrQ = m.addrQ ∧ (next m req axi).lenQ = m.lenQ ∧
      (next m req axi).readBeatQ = m.readBeatQ ∧ (next m req axi).wdataQ = m.wdataQ ∧
      (next m req axi).wmaskQ = m.wmaskQ := by
  have hf : readFire m axi = false := by
    simp only [resp, Bool.or_eq_false_iff] at hn
    exact hn.1
  cases hs : m.state with
  | idle => exact absurd hs hb
  | readAddr => cases ha : axi.arready <;> simp [next, hs, ha]
  | readData => simp [next, hs, hf]
  | writeReq => simp [next, hs]
  | writeResp => cases ha : axi.bvalid <;> simp [next, hs, ha]

theorem next_waiting (hp : m.state = .readData) (hn : (resp m axi).ready = false) :
    (next m req axi).state = .readData := by
  have hf : readFire m axi = false := by
    simp only [resp, Bool.or_eq_false_iff] at hn
    exact hn.1
  simp [next, hp, hf]

theorem next_reading (hp : m.state = .readAddr ∨ m.state = .readData)
    (hn : (resp m axi).ready = false) :
    (next m req axi).state = .readAddr ∨ (next m req axi).state = .readData := by
  rcases hp with hp | hp
  · cases ha : axi.arready <;> simp [next, hp, ha]
  · exact Or.inr (next_waiting hp hn)

theorem next_writeReq (req : BusReq) (axi : AxiIn) (hp : m.state = .writeReq) :
    (next m req axi).awDone = (m.awDone || axi.awready) ∧
      (next m req axi).wDone = (m.wDone || axi.wready) ∧
      (next m req axi).state =
        if (m.awDone || axi.awready) && (m.wDone || axi.wready) then .writeResp else .writeReq := by
  cases hd : m.awDone <;> cases hw : m.wDone <;> cases ha : axi.awready <;>
    cases hv : axi.wready <;> simp [next, hp, awFire, wFire, awvalid, wvalid, hd, hw, ha, hv]

theorem next_writing (hp : m.state = .writeReq ∨ m.state = .writeResp)
    (hn : (resp m axi).ready = false) :
    (next m req axi).state = .writeReq ∨ (next m req axi).state = .writeResp := by
  rcases hp with hp | hp
  · rw [(next_writeReq req axi hp).2.2]
    split
    · exact Or.inr rfl
    · exact Or.inl rfl
  · have hv : axi.bvalid = false := by simpa [resp, readFire, writeDone, hp] using hn
    simp [next, hp, hv]

/-- The answer to a write, or to the last beat of a read, frees the master. -/
theorem next_answered (hr : (resp m axi).ready = true)
    (hlast : m.state = .readData → (axi.rlast || m.readBeatQ == m.lenQ) = true) :
    (next m req axi).state = .idle := by
  rcases resp_phase hr with hp | hp
  · have hf : readFire m axi = true := by simpa [resp, writeDone, hp] using hr
    simp [next, hp, hf, readLast, hlast hp]
  · have hv : axi.bvalid = true := by simpa [resp, readFire, writeDone, hp] using hr
    simp [next, hp, hv]

theorem next_readErrorQ (he : m.readErrorQ = false)
    (hok : rFire m axi = true → axi.rresp = 0b00#2) : (next m req axi).readErrorQ = false := by
  cases hp : m.state with
  | idle =>
    simp only [next, hp]
    split <;> rfl
  | readAddr => cases ha : axi.arready <;> simp [next, hp, ha, he]
  | readData =>
    cases hf : readFire m axi with
    | false => simp [next, hp, hf, he]
    | true => simp [next, hp, hf, he, hok hf]
  | writeReq => simp [next, hp, he]
  | writeResp => cases hv : axi.bvalid <;> simp [next, hp, hv, he]

theorem next_eq_readAddr (hs : (next m req axi).state = .readAddr) :
    (m.state = .idle ∧ (next m req axi).readBeatQ = 0#8) ∨
    (m.state = .readAddr ∧ next m req axi = m) := by
  cases hp : m.state with
  | idle =>
    left
    simp only [next, hp]
    split <;> exact ⟨trivial, rfl⟩
  | readAddr => cases ha : axi.arready <;> simp [next, hp, ha] at hs ⊢
  | readData =>
    cases hf : readFire m axi <;> cases hl : readLast m axi <;> simp [next, hp, hf, hl] at hs
  | writeReq =>
    cases ha : (m.awDone || awFire m axi) && (m.wDone || wFire m axi) <;> simp [next, hp, ha] at hs
  | writeResp => cases hv : axi.bvalid <;> simp [next, hp, hv] at hs

/-- The data phase begins with the address handshake and goes on until the last
beat. -/
theorem next_eq_readData (hs : (next m req axi).state = .readData) :
    (m.state = .readAddr ∧ axi.arready = true ∧ next m req axi = { m with state := .readData }) ∨
    (m.state = .readData ∧ axi.rvalid = false ∧ next m req axi = m) ∨
    (m.state = .readData ∧ axi.rvalid = true ∧ axi.rlast = false ∧ m.readBeatQ ≠ m.lenQ ∧
      (next m req axi).addrQ = m.addrQ ∧ (next m req axi).lenQ = m.lenQ ∧
      (next m req axi).readBeatQ = m.readBeatQ + 1#8) := by
  cases hp : m.state with
  | idle =>
    cases hv : req.valid <;> cases hw : req.write <;>
      simp [next, hp, startRead, startWrite, hv, hw] at hs
  | readAddr => cases ha : axi.arready <;> simp [next, hp, ha] at hs ⊢
  | readData =>
    cases hv : axi.rvalid with
    | false => simp [next, hp, readFire, hv]
    | true =>
      have hf : readFire m axi = true := by simp [readFire, hp, hv]
      cases hl : readLast m axi with
      | true => simp [next, hp, hf, hl] at hs
      | false =>
        simp only [readLast, hf, Bool.true_and, Bool.or_eq_false_iff, beq_eq_false_iff_ne] at hl
        simp [next, hp, hf, hl]
  | writeReq =>
    cases ha : (m.awDone || awFire m axi) && (m.wDone || wFire m axi) <;> simp [next, hp, ha] at hs
  | writeResp => cases hv : axi.bvalid <;> simp [next, hp, hv] at hs

end Edge

end AxiMaster

end Npc
