import AiOsoc.Difftest.Event

/-!
# The reference behind the differential test

The emulator as a shared library: the ring of commit events
(`nemu/src/utils/state.c`), `cpu_exec` (`nemu/src/cpu/cpu-exec.c`) and the
exported functions of `nemu/src/cpu/difftest/ref.c`, with the checker of
`npc/csrc/difftest.cpp` that calls them. What is printed is left out.
-/

namespace Nemu

set_option autoImplicit false

open Difftest

/-! ## The ring of commit events -/

structure CommitRing where
  ring : Fin 64 → CommitEvent
  next : Fin 64
  count : Nat

def noEvent : CommitEvent := ⟨0#64, 0#64, 0#32, 0#32, 0#32, false, 0#8, 0#32, false, 0#32⟩

def emptyRing : CommitRing := ⟨fun _ => noEvent, 0, 0⟩

def commitEventRecord (r : CommitRing) (ev : CommitEvent) : CommitRing where
  ring := Function.update r.ring r.next ev
  next := r.next + 1
  count := if r.count < 64 then r.count + 1 else r.count

def commitEventGetLast (r : CommitRing) : Option CommitEvent :=
  if r.count = 0 then none else some (r.ring (r.next - 1))

/-- `commit_ring[k % COMMIT_EVENT_RING_SIZE]`. -/
def CommitRing.slot (r : CommitRing) (k : Nat) : CommitEvent := r.ring (Fin.ofNat 64 k)

/-- `commit_event_copy_last`: what is stored to `buf[0]`, `buf[1]` and so on; the
number of them is returned. -/
def commitEventCopyLast (r : CommitRing) (maxN : Nat) : List CommitEvent :=
  let n := if r.count < maxN then r.count else maxN
  let first := (r.next.val + 64 - n) % 64
  (List.range n).map fun i => r.slot (first + i)

theorem getLast_record (r : CommitRing) (ev : CommitEvent) :
    commitEventGetLast (commitEventRecord r ev) = some ev := by
  have hcount : (commitEventRecord r ev).count ≠ 0 := by
    simp only [commitEventRecord]
    split_ifs <;> omega
  have hidx : r.next + 1 - 1 = r.next := by
    have h : ∀ n : Fin 64, n + 1 - 1 = n := by decide
    exact h r.next
  rw [commitEventGetLast, if_neg hcount]
  simp [commitEventRecord, hidx]

/-! ## Executing for the checker -/

/-- The emulator between two calls. -/
structure Ref where
  m : Machine
  ring : CommitRing
  instLimit : BitVec 64

/-- A failed assertion of the emulator or of its exported functions. -/
inductive Failure where
  | abort (a : Abort)
  | replayPending
  | noCommit
  deriving Repr, DecidableEq

section Exec
variable (cfg : Config)

/-- `device_update`; `quit` says that the host window was closed. -/
def deviceUpdate (quit : Bool) (r : Ref) : Ref :=
  if cfg.devices.isSome && quit then { r with m.state := .quit } else r

/-- `execute(1)`. The shared build has no breakpoints. -/
def execute (quit : Bool) (r : Ref) : Except Abort Ref :=
  if r.instLimit ≠ 0#64 ∧ r.instLimit ≤ r.m.mem.nrGuestInst then
    .ok { r with m := setNemuState r.m .limit r.m.cpu.pc 1#32 }
  else do
    let (m, ev) ← executeOne cfg r.m
    let r := { r with m := m, ring := commitEventRecord r.ring ev }
    return if m.state ≠ .running then r else deviceUpdate cfg quit r

/-- `cpu_exec(1)`. -/
def cpuExec (quit : Bool) (r : Ref) : Except Abort Ref :=
  match r.m.state with
  | .ended | .abort | .quit => .ok r
  | .running | .stop | .limit => do
    let r ← execute cfg quit { r with m.state := .running }
    return if r.m.state = .running then { r with m.state := .stop } else r

def difftestStepEvent (quit : Bool) (r : Ref) : Except Failure (Ref × CommitEvent) := do
  let r ← (cpuExec cfg quit r).mapError .abort
  match commitEventGetLast r.ring with
  | some ev => return (r, ev)
  | none => .error .noCommit

def npcMmioReplaySet (m : Memory) (record : MMIOReplayRecord) : Except Failure Memory :=
  if cfg.targetShare then
    if m.mmioReplay.valid then .error .replayPending
    else .ok { m with mmioReplay := record, mmioReplayMismatch := false }
  else .ok m

/-- A record that is still there was not asked for; it is dropped. -/
def npcMmioReplayOk (m : Memory) : Bool × Memory :=
  if cfg.targetShare then
    if m.mmioReplayMismatch then (false, m)
    else if m.mmioReplay.valid then (false, { m with mmioReplay.valid := false })
    else (true, m)
  else (true, m)

end Exec

end Nemu

namespace Difftest

set_option autoImplicit false

open Nemu

/-- `fill_state`: sixteen registers, `x0` cleared, the others zero. -/
def fillState (regs : BitVec 4 → BitVec 32) (pc mstatus mtvec mepc mcause : BitVec 32) : Cpu where
  gpr i := if i = 0#5 then 0#32 else if i < 16#5 then regs (i.setWidth 4) else 0#32
  pc := pc
  mstatus := mstatus
  mtvec := mtvec
  mepc := mepc
  mcause := mcause

/-- The reference after `init`; `mem` holds the image. -/
def init (mem : Nemu.Memory) (instLimit : BitVec 64) (regs : BitVec 4 → BitVec 32)
    (pc mstatus mtvec mepc mcause : BitVec 32) : Ref where
  m := ⟨fillState regs pc mstatus mtvec mepc mcause, mem, .stop, 0#32, 0#32⟩
  ring := emptyRing
  instLimit := instLimit

def ebreak : BitVec 32 := 0x00100073#32

structure StepResult where
  ok : Bool
  bothEbreak : Bool
  ref : Ref

section Step
variable (cfg : Config)

/-- The first part of `Difftest::step`: the record of the commit goes to the reference. -/
def setMmioReplay (mem : Nemu.Memory) (record : MMIOReplayRecord) : Except Failure Nemu.Memory :=
  if record.valid then npcMmioReplaySet cfg mem record else .ok mem

/-- The last part: what the event of the reference is held against. -/
def checkEvent (r : Ref) (ref dut : CommitEvent) : StepResult :=
  let (replayOk, mem) := npcMmioReplayOk cfg r.m.mem
  let r := { r with m.mem := mem }
  if !replayOk then ⟨false, false, r⟩
  else if ref.pc = dut.pc ∧ ref.inst = dut.inst ∧ dut.inst = ebreak then ⟨true, true, r⟩
  else if ref.inst = ebreak ∨ dut.inst = ebreak then ⟨false, false, r⟩
  else ⟨(commitEventCompare ref dut).1, false, r⟩

/-- `Difftest::step` with a reference that exports the event functions. -/
def step (quit : Bool) (r : Ref) (dut : CommitEvent) (record : MMIOReplayRecord) :
    Except Failure StepResult := do
  let mem ← setMmioReplay cfg r.m.mem record
  let (r, ref) ← difftestStepEvent cfg quit { r with m.mem := mem }
  return checkEvent cfg r ref dut

end Step

end Difftest
