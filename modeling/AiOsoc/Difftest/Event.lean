import AiOsoc.Nemu.Inst
import AiOsoc.Npc.Core
import Mathlib.Tactic.SplitIfs

/-!
# Commit events

`nemu/include/debug/commit_event.h` with the two functions that fill an event:
`make_commit_event` of the emulator and `make_event` of the simulator, which
copies the commit outputs of the core.
-/

namespace Difftest

set_option autoImplicit false

/-- A `CommitEvent` without its `mem_*` fields, which nothing compares. -/
structure CommitEvent where
  retire : BitVec 64
  cycle : BitVec 64
  pc : BitVec 32
  inst : BitVec 32
  nextPc : BitVec 32
  hasWb : Bool
  rd : BitVec 8
  rdValue : BitVec 32
  exception : Bool
  cause : BitVec 32
  deriving Repr, DecidableEq

inductive CommitDiffKind where
  | none | pc | inst | nextPc | exception | cause | wbValid | wbReg | wbValue
  deriving Repr, DecidableEq

structure CommitDiff where
  kind : CommitDiffKind
  field : String
  refValue : BitVec 32
  dutValue : BitVec 32
  deriving Repr, DecidableEq

/-- `commit_event_compare` and the difference it fills in. -/
def commitEventCompare (ref dut : CommitEvent) : Bool × CommitDiff :=
  let flag (b : Bool) : BitVec 32 := if b then 1#32 else 0#32
  if ref.pc ≠ dut.pc then (false, ⟨.pc, "pc", ref.pc, dut.pc⟩)
  else if ref.inst ≠ dut.inst then (false, ⟨.inst, "inst", ref.inst, dut.inst⟩)
  else if ref.nextPc ≠ dut.nextPc then (false, ⟨.nextPc, "next_pc", ref.nextPc, dut.nextPc⟩)
  else if ref.exception ≠ dut.exception then
    (false, ⟨.exception, "exception", flag ref.exception, flag dut.exception⟩)
  else if ref.exception ∧ ref.cause ≠ dut.cause then
    (false, ⟨.cause, "cause", ref.cause, dut.cause⟩)
  else if ref.hasWb ≠ dut.hasWb then (false, ⟨.wbValid, "has_wb", flag ref.hasWb, flag dut.hasWb⟩)
  else if ref.hasWb ∧ ref.rd ≠ dut.rd then
    (false, ⟨.wbReg, "rd", ref.rd.setWidth 32, dut.rd.setWidth 32⟩)
  else if ref.hasWb ∧ ref.rdValue ≠ dut.rdValue then
    (false, ⟨.wbValue, "rd_value", ref.rdValue, dut.rdValue⟩)
  else (true, ⟨.none, "", 0#32, 0#32⟩)

/-- What an accepted pair of events agrees on. -/
structure Accepted (ref dut : CommitEvent) : Prop where
  pc : ref.pc = dut.pc
  inst : ref.inst = dut.inst
  nextPc : ref.nextPc = dut.nextPc
  exception : ref.exception = dut.exception
  cause : ref.exception = true → ref.cause = dut.cause
  hasWb : ref.hasWb = dut.hasWb
  rd : ref.hasWb = true → ref.rd = dut.rd
  rdValue : ref.hasWb = true → ref.rdValue = dut.rdValue

theorem commitEventCompare_iff (ref dut : CommitEvent) :
    (commitEventCompare ref dut).1 = true ↔ Accepted ref dut := by
  constructor
  · intro h
    simp only [commitEventCompare] at h
    split_ifs at h with h1 h2 h3 h4 h5 h6 h7 h8
    exact ⟨by simpa using h1, by simpa using h2, by simpa using h3, by simpa using h4,
      by simpa using h5, by simpa using h6, by simpa using h7, by simpa using h8⟩
  · intro h
    simp only [commitEventCompare]
    rw [if_neg (by simpa using h.pc), if_neg (by simpa using h.inst),
      if_neg (by simpa using h.nextPc), if_neg (by simpa using h.exception),
      if_neg (by simpa using h.cause), if_neg (by simpa using h.hasWb),
      if_neg (by simpa using h.rd), if_neg (by simpa using h.rdValue)]

end Difftest

namespace Nemu

set_option autoImplicit false

open Difftest

/-- The opcodes of `make_commit_event` that write a register. -/
def writesBack (inst : BitVec 32) : Bool :=
  let opcode := inst &&& 0x7f#32
  let rd := (inst >>> 7) &&& 0x1f#32
  let hasWb := (opcode = 0x37#32 || opcode = 0x17#32 || opcode = 0x6f#32 || opcode = 0x67#32 ||
    opcode = 0x03#32 || opcode = 0x13#32 || opcode = 0x33#32 || opcode = 0x73#32) && rd ≠ 0#32
  if opcode = 0x73#32 ∧ (inst >>> 12) &&& 0x7#32 = 0#32 then false else hasWb

def makeCommitEvent (e : Exec) (dnpc : BitVec 32) : CommitEvent :=
  let inst := e.s.inst
  let rd := (inst >>> 7) &&& 0x1f#32
  let hasWb := writesBack inst
  let ev : CommitEvent := {
    retire := e.m.mem.nrGuestInst
    cycle := e.m.mem.nrGuestInst
    pc := e.s.pc
    inst := inst
    nextPc := dnpc
    hasWb := hasWb
    rd := rd.setWidth 8
    rdValue := if hasWb && rd < 32#32 then e.m.cpu.gpr (rd.setWidth 5) else 0#32
    exception := false
    cause := 0#32 }
  if e.s.exception then
    { ev with
      exception := true
      cause := e.s.exceptionCause
      hasWb := false
      rd := 0#8
      rdValue := 0#32 }
  else if e.m.state = .abort then { ev with exception := true, cause := e.m.state.code }
  else ev

/-- `g_nr_guest_inst ++`. -/
def Exec.counted (e : Exec) : Exec := { e with m.mem.nrGuestInst := e.m.mem.nrGuestInst + 1#64 }

/-- The instruction at `cpu.pc` and its event, as `execute` goes through them. -/
def executeOne (cfg : Config) (m : Machine) : Except Abort (Machine × CommitEvent) := do
  let e ← execOnce cfg m
  return (e.counted.m, makeCommitEvent e.counted e.counted.m.cpu.pc)

end Nemu

namespace Npc.Core

set_option autoImplicit false

/-- `make_event`, with the counters of the simulator. -/
def makeEvent (s : State) (i : Input) (retire cycles : BitVec 64) : Difftest.CommitEvent where
  retire := retire + 1#64
  cycle := cycles
  pc := commitPc s
  inst := commitInst s
  nextPc := commitNextPc s i
  hasWb := commitWen s i
  rd := (commitRd s).setWidth 8
  rdValue := commitWdata s i
  exception := commitException s i
  cause := commitCause s i

end Npc.Core
