import AiOsoc.Npc.Bus

/-!
# Instruction fetch unit

`rtl/core/Ifu.v`: a direct-mapped cache of two lines of four words, refilled by
one burst of four beats. The refill writes each beat straight into the data
flops of its line; the tag and the valid bit of the line change on the last
beat only, and only if no beat carried an error.
-/

namespace Npc.Ifu

set_option autoImplicit false

inductive Phase where
  | idle | refill
  deriving Repr, DecidableEq

/-- One line of the cache: `valid_q[k]`, `tagk_q` and `datak_0_q .. datak_3_q`. -/
structure Line where
  valid : Bool
  tag : BitVec 27
  data : BitVec 2 → BitVec 32

/-- The debug counters of the `NPC_DEBUG` build. -/
structure Counters where
  accesses : BitVec 64
  hits : BitVec 64
  misses : BitVec 64
  missWaitCycles : BitVec 64
  refillBeats : BitVec 64
  deriving Repr, DecidableEq

/-- The two lines are selected by the index bit of the address. -/
structure State where
  state : Phase
  line : Bool → Line
  missIndexQ : Bool
  missOffsetQ : BitVec 2
  missTagQ : BitVec 27
  missLineAddrQ : BitVec 32
  refillBeatQ : BitVec 2
  refillErrorQ : Bool
  counters : Counters

def reset : State where
  state := .idle
  line := fun _ => ⟨false, 0#27, fun _ => 0#32⟩
  missIndexQ := false
  missOffsetQ := 0#2
  missTagQ := 0#27
  missLineAddrQ := 0#32
  refillBeatQ := 0#2
  refillErrorQ := false
  counters := ⟨0#64, 0#64, 0#64, 0#64, 0#64⟩

def index (pc : BitVec 32) : Bool := pc.getLsbD 4
def offset (pc : BitVec 32) : BitVec 2 := pc.extractLsb' 2 2
def tag (pc : BitVec 32) : BitVec 27 := pc.extractLsb' 5 27
def lineAddr (pc : BitVec 32) : BitVec 32 := pc.extractLsb' 4 28 ++ 0#4

/-- The inputs of the unit in one cycle. -/
structure Port where
  invalidate : Bool
  fetchValid : Bool
  pc : BitVec 32
  bus : BusResp

variable (f : State) (p : Port)

def hit : Bool := (f.line (index p.pc)).valid && (f.line (index p.pc)).tag == tag p.pc
def hitWord : BitVec 32 := (f.line (index p.pc)).data (offset p.pc)
def refillFire : Bool := f.state = .refill && p.bus.ready
def refillLast : Bool := refillFire f p && f.refillBeatQ == 3#2
def refillError : Bool := f.refillErrorQ || p.bus.error

/-- The requested word is in the data flops already, or is the last beat. -/
def refillInst : BitVec 32 :=
  if f.missOffsetQ == 3#2 then p.bus.rdata else (f.line f.missIndexQ).data f.missOffsetQ

def busReq : BusReq where
  valid := f.state = .refill
  write := false
  addr := f.missLineAddrQ
  len := 3#8
  wdata := 0#32
  wmask := 0#4

def instReady : Bool := (f.state = .idle && p.fetchValid && hit f p) || refillLast f p
def inst : BitVec 32 := if f.state = .idle && hit f p then hitWord f p else refillInst f p
def instError : Bool := refillLast f p && refillError f p

/-- `datak_b_q <= bus_rdata` for the line and beat of the refill. -/
def writeBeat (line : Bool → Line) (k : Bool) (beat : BitVec 2) (word : BitVec 32) : Bool → Line :=
  fun j => if j = k then
    { line j with data := fun o => if o = beat then word else (line j).data o } else line j

/-- `valid_q[k] <= v; tagk_q <= t`. -/
def setTag (line : Bool → Line) (k : Bool) (v : Bool) (t : BitVec 27) : Bool → Line :=
  fun j => if j = k then { line j with valid := v, tag := t } else line j

/-- `valid_q <= 2'b00`. -/
def clearValid (line : Bool → Line) : Bool → Line :=
  fun j => { line j with valid := false }

/-- The line registers after a clock edge outside reset. -/
def nextLine : Bool → Line :=
  let line := if p.invalidate then clearValid f.line else f.line
  if refillFire f p then
    let line := writeBeat line f.missIndexQ f.refillBeatQ p.bus.rdata
    if refillLast f p && !refillError f p then
      setTag line f.missIndexQ (!p.invalidate) f.missTagQ
    else line
  else line

def nextCounters : Counters :=
  let c := f.counters
  match f.state with
  | .idle =>
    if p.fetchValid then
      if hit f p then { c with accesses := c.accesses + 1#64, hits := c.hits + 1#64 }
      else { c with accesses := c.accesses + 1#64, misses := c.misses + 1#64 }
    else c
  | .refill =>
    { c with
      missWaitCycles := c.missWaitCycles + 1#64
      refillBeats := if refillFire f p then c.refillBeats + 1#64 else c.refillBeats }

def next : State :=
  let n := { f with line := nextLine f p, counters := nextCounters f p }
  match f.state with
  | .idle =>
    if p.fetchValid && !hit f p then
      { n with
        state := .refill
        missIndexQ := index p.pc
        missOffsetQ := offset p.pc
        missTagQ := tag p.pc
        missLineAddrQ := lineAddr p.pc
        refillBeatQ := 0#2
        refillErrorQ := false }
    else n
  | .refill =>
    if refillFire f p then
      { n with
        refillErrorQ := refillError f p
        refillBeatQ := f.refillBeatQ + 1#2
        state := if refillLast f p then .idle else f.state }
    else n

end Npc.Ifu
