import AiOsoc.Clocked
import AiOsoc.Sim.Memory

/-!
# The local memory path

`rtl/bus/LocalAxiSlave.v` with the memory of the simulator behind it, clocked
together with the master of `AxiMaster.v`. The ids of the channels are left out:
the master ignores them.
-/

namespace Sim

set_option autoImplicit false

open Npc

namespace LocalAxiSlave

structure State where
  bvalidQ : Bool
  brespQ : BitVec 2
  rvalidQ : Bool
  rrespQ : BitVec 2
  rdataQ : BitVec 32
  rlastQ : Bool
  raddrQ : BitVec 32
  rlenQ : BitVec 8
  rbeatQ : BitVec 8
  haveAw : Bool
  awaddrQ : BitVec 32
  deriving Repr, DecidableEq

def reset : State := ⟨false, 0#2, false, 0#2, 0#32, false, 0#32, 0#8, 0#8, false, 0#32⟩

/-! The wires, with the outputs of the master as inputs. -/

section Wires
variable (s : State) (m : AxiMaster.State)

def awready : Bool := !s.bvalidQ && !s.haveAw
def writeAddrFire : Bool := AxiMaster.awvalid m && awready s
def haveWriteAddr : Bool := s.haveAw || writeAddrFire s m
def wready : Bool := !s.bvalidQ && haveWriteAddr s m
def writeDataFire : Bool := AxiMaster.wvalid m && wready s m
def writeAddr : BitVec 32 := if s.haveAw then s.awaddrQ else AxiMaster.awaddr m
def arready : Bool := !s.rvalidQ
def readFire : Bool := AxiMaster.arvalid m && arready s
def readBeatFire : Bool := s.rvalidQ && AxiMaster.rready m
def nextRaddr : BitVec 32 := if readFire s m then AxiMaster.araddr m else s.raddrQ + 4#32
def nextRbeat : BitVec 8 := if readFire s m then 0#8 else s.rbeatQ + 1#8
def nextRlast : Bool :=
  nextRbeat s m == (if readFire s m then AxiMaster.arlen m else s.rlenQ)

/-- What the slave drives. -/
def drive : AxiIn where
  awready := awready s
  wready := wready s m
  bvalid := s.bvalidQ
  bresp := s.brespQ
  arready := arready s
  rvalid := s.rvalidQ
  rresp := s.rrespQ
  rdata := s.rdataQ
  rlast := s.rlastQ

/-- The edge loads a beat. -/
def loads : Bool := readFire s m || (readBeatFire s m && !s.rlastQ)

variable (mem : Memory)

/-- The word and the response of a beat. -/
def beat (addr : BitVec 32) : BitVec 32 × BitVec 2 × Memory :=
  if mem.accessOk addr then ((mem.read32 addr).1, 0b00#2, (mem.read32 addr).2)
  else (0#32, 0b10#2, mem)

/-- The arguments of the call of `pmem_write` at the edge, if there is one. -/
def writeCall : Option (BitVec 32 × BitVec 32 × BitVec 4) :=
  if writeDataFire s m && mem.accessOk (writeAddr s m) then
    some (writeAddr s m, AxiMaster.wdata m, AxiMaster.wstrb m) else none

/-- The blocks of the `always` block in source order; `n` collects the
assignments. -/
def updValid (n : State) : State :=
  { n with
    bvalidQ := if s.bvalidQ && AxiMaster.bready m then false else n.bvalidQ
    rvalidQ := if readBeatFire s m then false else n.rvalidQ }

def updRead (n : State) : State :=
  if loads s m then
    { n with
      rdataQ := (beat mem (nextRaddr s m)).1
      rrespQ := (beat mem (nextRaddr s m)).2.1
      rlastQ := nextRlast s m
      rvalidQ := true
      raddrQ := nextRaddr s m
      rlenQ := if readFire s m then AxiMaster.arlen m else s.rlenQ
      rbeatQ := nextRbeat s m }
  else n

def updAddr (n : State) : State :=
  if writeAddrFire s m && !writeDataFire s m then
    { n with haveAw := true, awaddrQ := AxiMaster.awaddr m } else n

def updWrite (n : State) : State :=
  if writeDataFire s m then
    { n with
      brespQ := if mem.accessOk (writeAddr s m) then 0b00#2 else 0b10#2
      bvalidQ := true
      haveAw := false }
  else n

def next : State := updWrite s m mem (updAddr s m (updRead s m mem (updValid s m s)))

/-- The memory after the edge: first the read, then the write. -/
def memNext : Memory :=
  let mem' := if loads s m then (beat mem (nextRaddr s m)).2.2 else mem
  match writeCall s m mem with
  | some (addr, data, wmask) => mem'.write32 addr data (wmask.setWidth 8)
  | none => mem'

end Wires

end LocalAxiSlave

/-! ## Master, slave and memory clocked together -/

structure LocalPath where
  master : AxiMaster.State
  slave : LocalAxiSlave.State
  mem : Memory

/-- The request port and the time the simulator sets before the edge. -/
structure LocalInput where
  req : BusReq
  time : BitVec 64

namespace LocalPath

def boot (mem : Memory) : LocalPath := ⟨AxiMaster.reset, LocalAxiSlave.reset, mem⟩

variable (s : LocalPath) (i : LocalInput)

def axi : AxiIn := LocalAxiSlave.drive s.slave s.master

def resp : BusResp := AxiMaster.resp s.master s.axi

/-- The memory the calls of the edge see. -/
def memNow : Memory := s.mem.setTime i.time

def writeCall : Option (BitVec 32 × BitVec 32 × BitVec 4) :=
  LocalAxiSlave.writeCall s.slave s.master (s.memNow i)

def step : LocalPath where
  master := AxiMaster.next s.master i.req s.axi
  slave := LocalAxiSlave.next s.slave s.master (s.memNow i)
  mem := LocalAxiSlave.memNext s.slave s.master (s.memNow i)

/-! ## The phases of a request -/

/-- Nothing is in flight. -/
structure Quiet (s : LocalPath) : Prop where
  idle : s.master.state = .idle
  bvalid : s.slave.bvalidQ = false
  rvalid : s.slave.rvalidQ = false
  haveAw : s.slave.haveAw = false

/-- The master addresses a read. -/
structure ReadAddressed (s : LocalPath) (addr : BitVec 32) (len : BitVec 8) : Prop where
  phase : s.master.state = .readAddr
  addrQ : s.master.addrQ = addr
  lenQ : s.master.lenQ = len
  readBeatQ : s.master.readBeatQ = 0#8
  readErrorQ : s.master.readErrorQ = false
  bvalid : s.slave.bvalidQ = false
  rvalid : s.slave.rvalidQ = false
  haveAw : s.slave.haveAw = false

/-- Beat `k` of a burst is on the bus; `failed` says that an earlier one was in error. -/
structure OnBeat (s : LocalPath) (addr : BitVec 32) (len : BitVec 8) (k : Nat) (failed : Bool) :
    Prop where
  phase : s.master.state = .readData
  lenQ : s.master.lenQ = len
  readBeatQ : s.master.readBeatQ = BitVec.ofNat 8 k
  readErrorQ : s.master.readErrorQ = failed
  bvalid : s.slave.bvalidQ = false
  rvalid : s.slave.rvalidQ = true
  rlast : s.slave.rlastQ = decide (k = len.toNat)
  raddr : s.slave.raddrQ = addr + BitVec.ofNat 32 (4 * k)
  rlen : s.slave.rlenQ = len
  rbeat : s.slave.rbeatQ = BitVec.ofNat 8 k
  haveAw : s.slave.haveAw = false

/-- The master offers a write, address and data together. -/
structure WriteAddressed (s : LocalPath) (addr data : BitVec 32) (wmask : BitVec 4) : Prop where
  phase : s.master.state = .writeReq
  awDone : s.master.awDone = false
  wDone : s.master.wDone = false
  addrQ : s.master.addrQ = addr
  wdataQ : s.master.wdataQ = data
  wmaskQ : s.master.wmaskQ = wmask
  bvalid : s.slave.bvalidQ = false
  rvalid : s.slave.rvalidQ = false
  haveAw : s.slave.haveAw = false

/-- The response to a write is on the bus. -/
structure Written (s : LocalPath) (failed : Bool) : Prop where
  phase : s.master.state = .writeResp
  bvalid : s.slave.bvalidQ = true
  bresp : s.slave.brespQ = if failed then 0b10#2 else 0b00#2
  rvalid : s.slave.rvalidQ = false
  haveAw : s.slave.haveAw = false

attribute [local simp] LocalAxiSlave.next LocalAxiSlave.memNext LocalAxiSlave.updValid
  LocalAxiSlave.updRead LocalAxiSlave.updAddr LocalAxiSlave.updWrite LocalAxiSlave.loads
  LocalAxiSlave.writeCall LocalAxiSlave.drive LocalAxiSlave.awready LocalAxiSlave.writeAddrFire
  LocalAxiSlave.haveWriteAddr LocalAxiSlave.wready LocalAxiSlave.writeDataFire
  LocalAxiSlave.writeAddr LocalAxiSlave.arready LocalAxiSlave.readFire LocalAxiSlave.readBeatFire
  LocalAxiSlave.nextRaddr LocalAxiSlave.nextRbeat LocalAxiSlave.nextRlast
  AxiMaster.awvalid AxiMaster.wvalid AxiMaster.awaddr AxiMaster.wdata AxiMaster.wstrb
  AxiMaster.bready AxiMaster.arvalid AxiMaster.araddr AxiMaster.arlen AxiMaster.rready
  AxiMaster.readFire AxiMaster.writeDone AxiMaster.readLast AxiMaster.awFire AxiMaster.wFire
  AxiMaster.startRead AxiMaster.startWrite

section Phases
variable {s : LocalPath} {i : LocalInput} {addr data : BitVec 32} {len : BitVec 8}
  {wmask : BitVec 4} {failed : Bool}

/-- Without a request nothing happens. -/
theorem Quiet.rest (h : Quiet s) (hv : i.req.valid = false) :
    Quiet (s.step i) ∧ (s.step i).mem = s.memNow i := by
  obtain ⟨hidle, hb, hr, ha⟩ := h
  refine ⟨⟨?_, ?_, ?_, ?_⟩, ?_⟩ <;> simp [step, AxiMaster.next, hidle, hv, hb, hr, ha]

theorem Quiet.silent (h : Quiet s) : s.resp.ready = false ∧ s.writeCall i = none := by
  obtain ⟨hidle, hb, hr, ha⟩ := h
  constructor <;> simp [resp, writeCall, AxiMaster.resp, axi, hidle]

theorem Quiet.read (h : Quiet s) (hv : i.req.valid = true) (hw : i.req.write = false) :
    ReadAddressed (s.step i) i.req.addr i.req.len ∧ (s.step i).mem = s.memNow i := by
  obtain ⟨hidle, hb, hr, ha⟩ := h
  refine ⟨⟨?_, ?_, ?_, ?_, ?_, ?_, ?_, ?_⟩, ?_⟩ <;>
    simp [step, AxiMaster.next, hidle, hv, hw, hb, hr, ha]

theorem Quiet.write (h : Quiet s) (hv : i.req.valid = true) (hw : i.req.write = true) :
    WriteAddressed (s.step i) i.req.addr i.req.wdata i.req.wmask ∧
      (s.step i).mem = s.memNow i := by
  obtain ⟨hidle, hb, hr, ha⟩ := h
  refine ⟨⟨?_, ?_, ?_, ?_, ?_, ?_, ?_, ?_, ?_⟩, ?_⟩ <;>
    simp [step, AxiMaster.next, hidle, hv, hw, hb, hr, ha]

theorem ReadAddressed.silent (h : ReadAddressed s addr len) :
    s.resp.ready = false ∧ s.writeCall i = none := by
  constructor <;> simp [resp, writeCall, AxiMaster.resp, axi, h.phase]

/-- The slave accepts the address at once and loads the first beat. -/
theorem ReadAddressed.next (h : ReadAddressed s addr len) :
    OnBeat (s.step i) addr len 0 false ∧
      (s.step i).slave.rdataQ = (LocalAxiSlave.beat (s.memNow i) addr).1 ∧
      (s.step i).slave.rrespQ = (LocalAxiSlave.beat (s.memNow i) addr).2.1 ∧
      (s.step i).mem = (LocalAxiSlave.beat (s.memNow i) addr).2.2 := by
  obtain ⟨hp, ha, hl, hk, he, hb, hr, hw⟩ := h
  have hlast : ((0#8 == len) : Bool) = decide (0 = len.toNat) := by
    by_cases hz : len = 0#8
    · subst hz; rfl
    · have hn : ¬ 0 = len.toNat := fun h0 => hz (BitVec.eq_of_toNat_eq h0.symm)
      simp [hn, beq_eq_false_iff_ne, Ne.symm hz]
  refine ⟨⟨?_, ?_, ?_, ?_, ?_, ?_, ?_, ?_, ?_, ?_, ?_⟩, ?_, ?_, ?_⟩ <;>
    simp [step, axi, AxiMaster.next, hp, ha, hl, hk, he, hb, hr, hw, hlast]

/-- A beat on the bus is answered in the same cycle. -/
theorem OnBeat.answer {k : Nat} (h : OnBeat s addr len k failed) :
    s.resp = ⟨true, s.slave.rdataQ, failed || s.slave.rrespQ != 0b00#2⟩ ∧
      s.axi.rlast = decide (k = len.toNat) ∧ s.writeCall i = none := by
  refine ⟨?_, ?_, ?_⟩
  · simp [resp, AxiMaster.resp, axi, h.phase, h.rvalid, h.readErrorQ]
  · simp [axi, h.rlast]
  · simp [writeCall, h.phase]

theorem beat_eq_iff {k : Nat} (len : BitVec 8) (hk : k ≤ len.toNat) :
    ((BitVec.ofNat 8 k == len) : Bool) = decide (k = len.toNat) := by
  have hlt := len.isLt
  by_cases he : k = len.toNat
  · subst he
    simp
  · have hne : BitVec.ofNat 8 k ≠ len := by
      intro h
      have := congrArg BitVec.toNat h
      rw [BitVec.toNat_ofNat] at this
      omega
    simp [he, beq_eq_false_iff_ne, hne]

/-- The next beat is loaded while the current one is taken. -/
theorem OnBeat.next {k : Nat} (h : OnBeat s addr len k failed) (hk : k < len.toNat) :
    OnBeat (s.step i) addr len (k + 1) (failed || s.slave.rrespQ != 0b00#2) ∧
      (s.step i).slave.rdataQ =
        (LocalAxiSlave.beat (s.memNow i) (addr + BitVec.ofNat 32 (4 * (k + 1)))).1 ∧
      (s.step i).slave.rrespQ =
        (LocalAxiSlave.beat (s.memNow i) (addr + BitVec.ofNat 32 (4 * (k + 1)))).2.1 ∧
      (s.step i).mem =
        (LocalAxiSlave.beat (s.memNow i) (addr + BitVec.ofNat 32 (4 * (k + 1)))).2.2 := by
  obtain ⟨hp, hl, hk', he, hb, hr, hlast, hra, hrl, hrb, hw⟩ := h
  have hne : ¬ k = len.toNat := by omega
  have hnext : BitVec.ofNat 8 k + 1#8 = BitVec.ofNat 8 (k + 1) := (BitVec.ofNat_add _ _).symm
  have haddr : addr + BitVec.ofNat 32 (4 * k) + 4#32 = addr + BitVec.ofNat 32 (4 * (k + 1)) := by
    rw [BitVec.add_assoc, ← BitVec.ofNat_add, Nat.mul_add]
  have hbeat := beat_eq_iff (k := k) len (by omega)
  have hbeat' := beat_eq_iff (k := k + 1) len (by omega)
  refine ⟨⟨?_, ?_, ?_, ?_, ?_, ?_, ?_, ?_, ?_, ?_, ?_⟩, ?_, ?_, ?_⟩ <;>
    simp [step, axi, AxiMaster.next, hp, hl, hk', he, hb, hr, hlast, hra, hrl, hrb, hw, hne, hnext,
      haddr, hbeat, hbeat']

/-- The last beat ends the burst. -/
theorem OnBeat.last {k : Nat} (h : OnBeat s addr len k failed) (hk : k = len.toNat) :
    Quiet (s.step i) ∧ (s.step i).mem = s.memNow i := by
  obtain ⟨hp, hl, hk', he, hb, hr, hlast, hra, hrl, hrb, hw⟩ := h
  refine ⟨⟨?_, ?_, ?_, ?_⟩, ?_⟩ <;>
    simp [step, axi, AxiMaster.next, hp, hl, hk', he, hb, hr, hlast, hw, hk]

/-- The slave takes address and data together. -/
theorem WriteAddressed.next (h : WriteAddressed s addr data wmask) :
    Written (s.step i) (!s.mem.accessOk addr) ∧ s.resp.ready = false ∧
      s.writeCall i = (if s.mem.accessOk addr then some (addr, data, wmask) else none) ∧
      (s.step i).mem = (if s.mem.accessOk addr then
        (s.memNow i).write32 addr data (wmask.setWidth 8) else s.memNow i) := by
  obtain ⟨hp, hd, hd', ha, hwd, hwm, hb, hr, hw⟩ := h
  have hok : (s.memNow i).accessOk addr = s.mem.accessOk addr := rfl
  cases hacc : s.mem.accessOk addr <;>
    (refine ⟨⟨?_, ?_, ?_, ?_, ?_⟩, ?_, ?_, ?_⟩ <;>
      simp [step, axi, resp, writeCall, AxiMaster.resp, AxiMaster.next, hp, hd, hd', ha, hwd, hwm,
        hb, hr, hw, hok, hacc])

theorem Written.next (h : Written s failed) :
    Quiet (s.step i) ∧ s.resp.ready = true ∧ s.resp.error = failed ∧ s.writeCall i = none ∧
      (s.step i).mem = s.memNow i := by
  obtain ⟨hp, hb, hbr, hr, hw⟩ := h
  refine ⟨⟨?_, ?_, ?_, ?_⟩, ?_, ?_, ?_, ?_⟩
  · simp [step, axi, AxiMaster.next, hp, hb]
  · simp [step, hp, hb]
  · simp [step, hp, hr]
  · simp [step, hp, hw]
  · simp [resp, axi, AxiMaster.resp, hp, hb]
  · cases failed <;> simp [resp, axi, AxiMaster.resp, hp, hb, hbr]
  · simp [writeCall, hp]
  · simp [step, hp, hr]

end Phases

end LocalPath

/-! ## Runs -/

/-- A run from reset: what the request port and the simulator do, cycle by cycle. -/
structure LocalRun where
  mem : Memory
  input : Nat → LocalInput

namespace LocalRun
variable (r : LocalRun)

def state : Nat → LocalPath := Clocked.state LocalPath.step (LocalPath.boot r.mem) r.input

theorem state_succ (n : Nat) : r.state (n + 1) = (r.state n).step (r.input n) := rfl

def req (n : Nat) : BusReq := (r.input n).req
def resp (n : Nat) : BusResp := (r.state n).resp
def rlast (n : Nat) : Bool := (r.state n).axi.rlast
def free (n : Nat) : Prop := (r.state n).master.state = .idle

/-- The memory that the calls at the end of cycle `n` see. -/
def memAt (n : Nat) : Memory := (r.state n).memNow (r.input n)

/-- The call of `pmem_write` at the end of cycle `n`. -/
def writeCall (n : Nat) : Option (BitVec 32 × BitVec 32 × BitVec 4) :=
  (r.state n).writeCall (r.input n)

/-- The address of beat `k` of the read sampled in cycle `n`. -/
def beatAddr (n k : Nat) : BitVec 32 := (r.req n).addr + BitVec.ofNat 32 (4 * k)

/-- The cycle in which the port is free again. -/
def finish (n : Nat) : Nat :=
  if (r.req n).valid then
    if (r.req n).write then n + 3 else n + 3 + (r.req n).len.toNat
  else n + 1

/-! ### The memory keeps its place -/

theorem read32_place (m : Memory) (addr : BitVec 32) :
    (m.read32 addr).2.base = m.base ∧ (m.read32 addr).2.size = m.size := by
  unfold Memory.read32
  split_ifs <;> exact ⟨rfl, rfl⟩

theorem write32_place (m : Memory) (addr data : BitVec 32) (wmask : BitVec 8) :
    (m.write32 addr data wmask).base = m.base ∧ (m.write32 addr data wmask).size = m.size := by
  unfold Memory.write32
  split_ifs <;> exact ⟨rfl, rfl⟩

theorem beat_place (m : Memory) (addr : BitVec 32) :
    (LocalAxiSlave.beat m addr).2.2.base = m.base ∧
      (LocalAxiSlave.beat m addr).2.2.size = m.size := by
  unfold LocalAxiSlave.beat
  split_ifs
  · exact read32_place m addr
  · exact ⟨rfl, rfl⟩

theorem memNext_place (s : LocalAxiSlave.State) (m : AxiMaster.State) (mem : Memory) :
    (LocalAxiSlave.memNext s m mem).base = mem.base ∧
      (LocalAxiSlave.memNext s m mem).size = mem.size := by
  have hread : (if LocalAxiSlave.loads s m then
        (LocalAxiSlave.beat mem (LocalAxiSlave.nextRaddr s m)).2.2 else mem).base = mem.base ∧
      (if LocalAxiSlave.loads s m then
        (LocalAxiSlave.beat mem (LocalAxiSlave.nextRaddr s m)).2.2 else mem).size = mem.size := by
    split_ifs
    · exact beat_place mem _
    · exact ⟨rfl, rfl⟩
  cases hc : LocalAxiSlave.writeCall s m mem with
  | none =>
    simp only [LocalAxiSlave.memNext, hc]
    exact hread
  | some call =>
    simp only [LocalAxiSlave.memNext, hc, write32_place]
    exact hread

theorem accessOk_of_place {m m' : Memory} (hb : m'.base = m.base) (hs : m'.size = m.size)
    (addr : BitVec 32) : m'.accessOk addr = m.accessOk addr := by
  simp only [Memory.accessOk, Memory.contains, hb, hs]

theorem state_place (n : Nat) :
    (r.state n).mem.base = r.mem.base ∧ (r.state n).mem.size = r.mem.size := by
  induction n with
  | zero => exact ⟨rfl, rfl⟩
  | succ n ih =>
    obtain ⟨hb, hs⟩ := memNext_place (r.state n).slave (r.state n).master
      ((r.state n).memNow (r.input n))
    exact ⟨hb.trans ih.1, hs.trans ih.2⟩

theorem state_accessOk (n : Nat) (addr : BitVec 32) :
    (r.state n).mem.accessOk addr = r.mem.accessOk addr :=
  accessOk_of_place (r.state_place n).1 (r.state_place n).2 addr

theorem memAt_accessOk (n : Nat) (addr : BitVec 32) :
    (r.memAt n).accessOk addr = r.mem.accessOk addr := r.state_accessOk n addr

/-! ### One request -/

/-- A beat before `k` was at an inaccessible address. -/
def failedBefore (n k : Nat) : Bool := (List.range k).any fun j => !r.mem.accessOk (r.beatAddr n j)

theorem failedBefore_succ (n k : Nat) :
    r.failedBefore n (k + 1) = (r.failedBefore n k || !r.mem.accessOk (r.beatAddr n k)) := by
  rw [failedBefore, failedBefore, List.range_succ, List.any_append]
  simp

/-- The word of beat `k`: what `pmem_read` returns at the edge that loads it. -/
def beatData (n k : Nat) : BitVec 32 :=
  if r.mem.accessOk (r.beatAddr n k) then ((r.memAt (n + 1 + k)).read32 (r.beatAddr n k)).1
  else 0#32

theorem beat_data (n k : Nat) :
    (LocalAxiSlave.beat (r.memAt (n + 1 + k)) (r.beatAddr n k)).1 = r.beatData n k := by
  rw [LocalAxiSlave.beat, r.memAt_accessOk, beatData]
  split_ifs <;> rfl

theorem beat_failed (n k : Nat) :
    ((LocalAxiSlave.beat (r.memAt (n + 1 + k)) (r.beatAddr n k)).2.1 != 0b00#2) =
      !r.mem.accessOk (r.beatAddr n k) := by
  rw [LocalAxiSlave.beat, r.memAt_accessOk]
  cases r.mem.accessOk (r.beatAddr n k) <;> rfl

section Request
variable {r} {n : Nat} (hq : (r.state n).Quiet) (hv : (r.req n).valid = true)
include hq hv

/-- The beats of a read follow each other without a gap. -/
theorem burst (hw : (r.req n).write = false) (k : Nat) (hk : k ≤ (r.req n).len.toNat) :
    (r.state (n + 2 + k)).OnBeat (r.req n).addr (r.req n).len k (r.failedBefore n k) ∧
      (r.state (n + 2 + k)).slave.rdataQ =
        (LocalAxiSlave.beat (r.memAt (n + 1 + k)) (r.beatAddr n k)).1 ∧
      (r.state (n + 2 + k)).slave.rrespQ =
        (LocalAxiSlave.beat (r.memAt (n + 1 + k)) (r.beatAddr n k)).2.1 := by
  induction k with
  | zero =>
    obtain ⟨ha, -⟩ := hq.read hv hw
    rw [← state_succ] at ha
    obtain ⟨hbeat, hd, hr, -⟩ := ha.next (i := r.input (n + 1))
    have haddr : r.beatAddr n 0 = (r.req n).addr := by simp [beatAddr]
    rw [haddr]
    exact ⟨hbeat, hd, hr⟩
  | succ k ih =>
    obtain ⟨hbeat, -, hresp⟩ := ih (by omega)
    obtain ⟨hnext, hd, hr, -⟩ := hbeat.next (i := r.input (n + 2 + k)) (by omega)
    rw [hresp, r.beat_failed, ← r.failedBefore_succ] at hnext
    have hidx : n + 1 + (k + 1) = n + 2 + k := by omega
    rw [hidx]
    exact ⟨hnext, hd, hr⟩

/-- The answer in cycle `n + 2 + k` is beat `k`. -/
theorem read_beat (hw : (r.req n).write = false) (k : Nat) (hk : k ≤ (r.req n).len.toNat) :
    r.resp (n + 2 + k) = ⟨true, r.beatData n k, r.failedBefore n (k + 1)⟩ ∧
      r.rlast (n + 2 + k) = decide (k = (r.req n).len.toNat) ∧
      r.writeCall (n + 2 + k) = none ∧ ¬ r.free (n + 2 + k) := by
  obtain ⟨hbeat, hd, hr⟩ := r.burst hq hv hw k hk
  obtain ⟨hresp, hlast, hcall⟩ := hbeat.answer (i := r.input (n + 2 + k))
  refine ⟨?_, hlast, hcall, ?_⟩
  · rw [LocalRun.resp, hresp, hd, hr, r.beat_data, r.beat_failed, r.failedBefore_succ]
  · rw [free, hbeat.phase]
    decide

theorem read_addressed (hw : (r.req n).write = false) :
    (r.resp (n + 1)).ready = false ∧ r.writeCall (n + 1) = none ∧ ¬ r.free (n + 1) := by
  obtain ⟨ha, -⟩ := hq.read hv hw
  rw [← state_succ] at ha
  refine ⟨ha.silent (i := r.input (n + 1)) |>.1, ha.silent |>.2, ?_⟩
  rw [free, ha.phase]
  decide

theorem read_quiet (hw : (r.req n).write = false) :
    (r.state (n + 3 + (r.req n).len.toNat)).Quiet := by
  obtain ⟨hbeat, -, -⟩ := r.burst hq hv hw _ le_rfl
  have hidx : n + 3 + (r.req n).len.toNat = n + 2 + (r.req n).len.toNat + 1 := by omega
  rw [hidx, state_succ]
  exact (hbeat.last rfl).1

/-- The write goes to the memory at the end of the second cycle. -/
theorem write_called (hw : (r.req n).write = true) :
    (r.resp (n + 1)).ready = false ∧ ¬ r.free (n + 1) ∧
      r.writeCall (n + 1) = (if r.mem.accessOk (r.req n).addr then
        some ((r.req n).addr, (r.req n).wdata, (r.req n).wmask) else none) ∧
      (r.state (n + 2)).mem = (if r.mem.accessOk (r.req n).addr then
        (r.memAt (n + 1)).write32 (r.req n).addr (r.req n).wdata ((r.req n).wmask.setWidth 8)
        else r.memAt (n + 1)) ∧
      (r.state (n + 2)).Written (!r.mem.accessOk (r.req n).addr) := by
  obtain ⟨ha, -⟩ := hq.write hv hw
  rw [← state_succ] at ha
  obtain ⟨hwritten, hsilent, hcall, hmem⟩ := ha.next (i := r.input (n + 1))
  rw [state_accessOk] at hwritten hcall hmem
  refine ⟨hsilent, ?_, hcall, hmem, hwritten⟩
  rw [free, ha.phase]
  decide

theorem write_answered (hw : (r.req n).write = true) :
    (r.resp (n + 2)).ready = true ∧ (r.resp (n + 2)).error = !r.mem.accessOk (r.req n).addr ∧
      r.writeCall (n + 2) = none ∧ ¬ r.free (n + 2) ∧ (r.state (n + 3)).Quiet := by
  obtain ⟨-, -, -, -, hwritten⟩ := r.write_called hq hv hw
  obtain ⟨hquiet, hready, herror, hcall, -⟩ := hwritten.next (i := r.input (n + 2))
  refine ⟨hready, herror, hcall, ?_, hquiet⟩
  rw [free, hwritten.phase]
  decide

end Request

/-! ### Every cycle belongs to one request -/

theorem finish_quiet {n : Nat} (hq : (r.state n).Quiet) : (r.state (r.finish n)).Quiet := by
  unfold finish
  split_ifs with hv hw
  · exact (r.write_answered hq hv hw).2.2.2.2
  · exact r.read_quiet hq hv (by simpa using hw)
  · have hv' : (r.req n).valid = false := by simpa using hv
    exact (hq.rest hv').1

theorem lt_finish (n : Nat) : n < r.finish n := by
  unfold finish
  split_ifs <;> omega

/-- Until it is answered a request keeps the port busy. -/
theorem busy {n c : Nat} (hq : (r.state n).Quiet) (hlt : n < c) (hc : c < r.finish n) :
    (r.req n).valid = true ∧ ¬ r.free c := by
  unfold finish at hc
  split_ifs at hc with hv hw
  · refine ⟨hv, ?_⟩
    have hcases : c = n + 1 ∨ c = n + 2 := by omega
    obtain rfl | rfl := hcases
    · exact (r.write_called hq hv hw).2.1
    · exact (r.write_answered hq hv hw).2.2.2.1
  · have hw' : (r.req n).write = false := by simpa using hw
    refine ⟨hv, ?_⟩
    by_cases hfirst : c = n + 1
    · rw [hfirst]
      exact (r.read_addressed hq hv hw').2.2
    · obtain ⟨k, rfl⟩ : ∃ k, c = n + 2 + k := ⟨c - (n + 2), by omega⟩
      exact (r.read_beat hq hv hw' k (by omega)).2.2.2
  · omega

/-- The last cycle not after `c` in which the port was free; the run is quiet there. -/
theorem covered (c : Nat) : ∃ n, n ≤ c ∧ c < r.finish n ∧ (r.state n).Quiet := by
  induction c with
  | zero => exact ⟨0, le_rfl, r.lt_finish 0, ⟨rfl, rfl, rfl, rfl⟩⟩
  | succ c ih =>
    obtain ⟨n, hle, hlt, hq⟩ := ih
    by_cases hc : c + 1 < r.finish n
    · exact ⟨n, by omega, hc, hq⟩
    · have heq : r.finish n = c + 1 := by omega
      have hq' := r.finish_quiet hq
      rw [heq] at hq'
      exact ⟨c + 1, le_rfl, r.lt_finish _, hq'⟩

theorem quiet_of_free {n : Nat} (hf : r.free n) : (r.state n).Quiet := by
  obtain ⟨m, hle, hlt, hq⟩ := r.covered n
  by_cases heq : m = n
  · exact heq ▸ hq
  · exact absurd hf (r.busy hq (by omega) hlt).2

theorem memNext_data {s : LocalAxiSlave.State} {m : AxiMaster.State} {mem : Memory}
    (hc : LocalAxiSlave.writeCall s m mem = none) :
    (LocalAxiSlave.memNext s m mem).data = mem.data := by
  simp only [LocalAxiSlave.memNext, hc]
  split_ifs
  · unfold LocalAxiSlave.beat Memory.read32
    split_ifs <;> rfl
  · rfl

/-- What the path owes a read sampled in cycle `n`: beat `k` in cycle `n + 2 + k`,
and no other answer and no write before the port is free again. -/
structure ServesRead (n : Nat) : Prop where
  beats : ∀ k ≤ (r.req n).len.toNat, (r.resp (n + 2 + k)).ready = true ∧
    (r.resp (n + 2 + k)).rdata = r.beatData n k ∧
    ((r.resp (n + 2 + k)).error = true ↔ ∃ j ≤ k, r.mem.accessOk (r.beatAddr n j) = false) ∧
    (r.rlast (n + 2 + k) = true ↔ k = (r.req n).len.toNat)
  only : ∀ c, n ≤ c → c < r.finish n → ((r.resp c).ready = true ↔ n + 2 ≤ c)
  noWrite : ∀ c, n ≤ c → c < r.finish n → r.writeCall c = none
  ends : r.finish n = n + 3 + (r.req n).len.toNat ∧ r.free (r.finish n)

/-- What the path owes a write sampled in cycle `n`: one call of `pmem_write` or none,
and one answer. -/
structure ServesWrite (n : Nat) : Prop where
  call : r.writeCall (n + 1) = if r.mem.accessOk (r.req n).addr then
    some ((r.req n).addr, (r.req n).wdata, (r.req n).wmask) else none
  stored : (r.state (n + 2)).mem = if r.mem.accessOk (r.req n).addr then
    (r.memAt (n + 1)).write32 (r.req n).addr (r.req n).wdata ((r.req n).wmask.setWidth 8)
    else r.memAt (n + 1)
  once : ∀ c, n ≤ c → c < r.finish n → c ≠ n + 1 → r.writeCall c = none
  answer : ∀ c, n ≤ c → c < r.finish n → ((r.resp c).ready = true ↔ c = n + 2)
  error : (r.resp (n + 2)).error = !r.mem.accessOk (r.req n).addr
  ends : r.finish n = n + 3 ∧ r.free (r.finish n)

theorem finish_read {n : Nat} (hv : (r.req n).valid = true) (hw : (r.req n).write = false) :
    r.finish n = n + 3 + (r.req n).len.toNat := by
  simp [finish, hv, hw]

theorem finish_write {n : Nat} (hv : (r.req n).valid = true) (hw : (r.req n).write = true) :
    r.finish n = n + 3 := by
  simp [finish, hv, hw]

theorem failedBefore_iff (n k : Nat) :
    r.failedBefore n (k + 1) = true ↔ ∃ j ≤ k, r.mem.accessOk (r.beatAddr n j) = false := by
  simp only [failedBefore, List.any_eq_true, List.mem_range, Bool.not_eq_true', Nat.lt_succ_iff]

theorem servesRead {n : Nat} (hf : r.free n) (hv : (r.req n).valid = true)
    (hw : (r.req n).write = false) : r.ServesRead n := by
  have hq := r.quiet_of_free hf
  have hfin := r.finish_read hv hw
  obtain ⟨haddr, hcall, -⟩ := r.read_addressed hq hv hw
  have hsilent := hq.silent (i := r.input n)
  -- a cycle of the request: sampled, addressed, or a beat
  have hsplit : ∀ c, n ≤ c → c < r.finish n →
      c = n ∨ c = n + 1 ∨ ∃ k ≤ (r.req n).len.toNat, c = n + 2 + k := by
    intro c hle hlt
    by_cases hbeat : n + 2 ≤ c
    · exact .inr (.inr ⟨c - (n + 2), by omega, by omega⟩)
    · omega
  refine ⟨?_, ?_, ?_, hfin, (r.finish_quiet hq).idle⟩
  · intro k hk
    obtain ⟨hresp, hlast, -, -⟩ := r.read_beat hq hv hw k hk
    rw [hresp, hlast, decide_eq_true_iff]
    exact ⟨rfl, rfl, r.failedBefore_iff n k, Iff.rfl⟩
  · intro c hle hlt
    obtain rfl | rfl | ⟨k, hk, rfl⟩ := hsplit c hle hlt
    · rw [LocalRun.resp, hsilent.1]
      simp
    · rw [haddr]
      simp
    · rw [(r.read_beat hq hv hw k hk).1]
      simp
  · intro c hle hlt
    obtain rfl | rfl | ⟨k, hk, rfl⟩ := hsplit c hle hlt
    · exact hsilent.2
    · exact hcall
    · exact (r.read_beat hq hv hw k hk).2.2.1

theorem servesWrite {n : Nat} (hf : r.free n) (hv : (r.req n).valid = true)
    (hw : (r.req n).write = true) : r.ServesWrite n := by
  have hq := r.quiet_of_free hf
  have hfin := r.finish_write hv hw
  obtain ⟨haddr, -, hcall, hmem, -⟩ := r.write_called hq hv hw
  obtain ⟨hready, herror, hnone, -, -⟩ := r.write_answered hq hv hw
  have hsilent := hq.silent (i := r.input n)
  have hsplit : ∀ c, n ≤ c → c < r.finish n → c = n ∨ c = n + 1 ∨ c = n + 2 := by
    intro c hle hlt
    omega
  refine ⟨hcall, hmem, ?_, ?_, herror, hfin, (r.finish_quiet hq).idle⟩
  · intro c hle hlt hne
    obtain rfl | rfl | rfl := hsplit c hle hlt
    · exact hsilent.2
    · exact absurd rfl hne
    · exact hnone
  · intro c hle hlt
    obtain rfl | rfl | rfl := hsplit c hle hlt
    · rw [LocalRun.resp, hsilent.1]
      simp
    · rw [haddr]
      simp
    · rw [hready]
      simp

/-- Every answer and every call of `pmem_write` belongs to the request sampled in the last
cycle in which the port was free. -/
theorem answer_belongs {c : Nat} (h : (r.resp c).ready = true ∨ r.writeCall c ≠ none) :
    ∃ n, r.free n ∧ (r.req n).valid = true ∧ n < c ∧ c < r.finish n := by
  obtain ⟨n, hle, hlt, hq⟩ := r.covered c
  have hne : n ≠ c := by
    rintro rfl
    have hsilent := hq.silent (i := r.input n)
    obtain hr | hc := h
    · rw [LocalRun.resp, hsilent.1] at hr
      cases hr
    · exact hc hsilent.2
  exact ⟨n, hq.idle, (r.busy hq (by omega) hlt).1, by omega, hlt⟩

theorem finish_le {n m : Nat} (hn : r.free n) (hm : r.free m) (hlt : n < m) : r.finish n ≤ m := by
  by_contra hc
  exact (r.busy (r.quiet_of_free hn) hlt (by omega)).2 hm

/-- The local memory path is a burst memory: whatever is asked at the request port, and
whenever, each request is served as above, in the order the requests were sampled; nothing
is answered or written without a request, the port is always free again, and the memory
changes by the writes only. -/
theorem local_path_serves (r : LocalRun) :
    (∀ n, r.free n → (r.req n).valid = true → (r.req n).write = false → r.ServesRead n) ∧
    (∀ n, r.free n → (r.req n).valid = true → (r.req n).write = true → r.ServesWrite n) ∧
    (∀ c, (r.resp c).ready = true ∨ r.writeCall c ≠ none →
      ∃ n, r.free n ∧ (r.req n).valid = true ∧ n < c ∧ c < r.finish n) ∧
    (∀ n m, r.free n → r.free m → n < m → r.finish n ≤ m) ∧
    (∀ c, ∃ n, c ≤ n ∧ r.free n) ∧
    (∀ c, r.writeCall c = none → (r.state (c + 1)).mem.data = (r.state c).mem.data) := by
  refine ⟨fun n => r.servesRead, fun n => r.servesWrite, fun c => r.answer_belongs,
    fun n m => r.finish_le, ?_, ?_⟩
  · intro c
    obtain ⟨n, -, hlt, hq⟩ := r.covered c
    exact ⟨r.finish n, hlt.le, (r.finish_quiet hq).idle⟩
  · intro c hc
    exact memNext_data hc

/-- A burst over the end of the memory, then a write. -/
def overEnd : LocalRun where
  mem := defaultMemory
  input n :=
    if n < 4 then ⟨⟨true, false, 0x27fffffc#32, 1#8, 0#32, 0#4⟩, 0#64⟩
    else ⟨⟨true, true, 0x20000010#32, 0#8, 0x11223344#32, 0b1111#4⟩, 0#64⟩

theorem local_path_serves_overEnd :
    overEnd.ServesRead 0 ∧ (overEnd.resp 2).error = false ∧ (overEnd.resp 3).error = true ∧
      overEnd.ServesWrite 4 ∧
      overEnd.writeCall 5 = some (0x20000010#32, 0x11223344#32, 0b1111#4) := by
  have hserves := local_path_serves overEnd
  have hread : overEnd.ServesRead 0 := hserves.1 0 rfl rfl rfl
  have hwrite : overEnd.ServesWrite 4 := hserves.2.1 4 hread.ends.2 rfl rfl
  refine ⟨hread, by decide +kernel, by decide +kernel, hwrite, ?_⟩
  rw [hwrite.call]
  decide +kernel

end LocalRun

end Sim
