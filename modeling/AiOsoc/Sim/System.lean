import AiOsoc.Npc.Progress
import AiOsoc.Sim.LocalBus

/-!
# The standalone system

`rtl/NPC.v` built with `LOCAL_AXI`: the core, the local slave and the memory of
the simulator on one clock. Nothing is left to an environment but the time that
the simulator sets, so what the core needs of its slave can be proved.
-/

namespace Sim

set_option autoImplicit false

open Npc Npc.Core Clocked

structure System where
  core : Core.State
  slave : LocalAxiSlave.State
  mem : Memory

namespace System
variable (s : System)

def axi : AxiIn := LocalAxiSlave.drive s.slave s.core.axi

/-- A clock edge outside reset. -/
def step (resetPc : BitVec 32) (time : BitVec 64) : System where
  core := Core.step s.core ⟨false, resetPc, s.axi⟩
  slave := LocalAxiSlave.next s.slave s.core.axi (s.mem.setTime time)
  mem := LocalAxiSlave.memNext s.slave s.core.axi (s.mem.setTime time)

/-- A clock edge under reset. -/
def reset (resetPc : BitVec 32) : System where
  core := Core.step s.core ⟨true, resetPc, s.axi⟩
  slave := LocalAxiSlave.reset
  mem := s.mem

end System

/-- A run of the system from arbitrary contents, reset for one edge. -/
structure SystemRun where
  boot : System
  resetPc : BitVec 32
  time : Nat → BitVec 64

namespace SystemRun
variable (r : SystemRun)

def state : Nat → System :=
  Clocked.state (fun s => s.step r.resetPc) (r.boot.reset r.resetPc) r.time

theorem state_succ (n : Nat) : r.state (n + 1) = (r.state n).step r.resetPc (r.time n) := rfl

/-! ## The two halves of the system -/

/-- The core, with what the local slave drives. -/
def coreRun : Core.Run := ⟨r.boot.core, r.resetPc, fun n => (r.state n).axi⟩

/-- The bus, with what the core requests. -/
def busRun : LocalRun where
  mem := r.boot.mem
  input n := ⟨axiReq (r.state n).core (r.coreRun.input n), r.time n⟩

theorem coreRun_state (n : Nat) : r.coreRun.state n = (r.state n).core := by
  induction n with
  | zero => rfl
  | succ n ih =>
    rw [Run.state_succ, ih]
    rfl

theorem busRun_state (n : Nat) :
    r.busRun.state n = ⟨(r.state n).core.axi, (r.state n).slave, (r.state n).mem⟩ := by
  induction n with
  | zero => rfl
  | succ n ih =>
    rw [LocalRun.state_succ, ih]
    rfl

end SystemRun

/-! ## The slave is prompt and conforming -/

/-- Where the bus is in a cycle. -/
inductive LocalPath.Phase (s : LocalPath) : Prop where
  | quiet (h : s.Quiet)
  | readAddressed (addr : BitVec 32) (len : BitVec 8) (h : s.ReadAddressed addr len)
  | onBeat (addr : BitVec 32) (len : BitVec 8) (k : Nat) (failed : Bool) (hk : k ≤ len.toNat)
    (h : s.OnBeat addr len k failed)
  | writeAddressed (addr data : BitVec 32) (wmask : BitVec 4) (h : s.WriteAddressed addr data wmask)
  | written (failed : Bool) (h : s.Written failed)

theorem LocalPath.Phase.step {s : LocalPath} {i : LocalInput} (h : s.Phase) : (s.step i).Phase := by
  cases h with
  | quiet h =>
    cases hv : i.req.valid with
    | false => exact .quiet (h.rest hv).1
    | true =>
      cases hw : i.req.write with
      | false => exact .readAddressed _ _ (h.read hv hw).1
      | true => exact .writeAddressed _ _ _ (h.write hv hw).1
  | readAddressed addr len h => exact .onBeat addr len 0 false (Nat.zero_le _) h.next.1
  | onBeat addr len k failed hk h =>
    by_cases he : k = len.toNat
    · exact .quiet (h.last he).1
    · exact .onBeat addr len (k + 1) _ (by omega) (h.next (by omega)).1
  | writeAddressed addr data wmask h => exact .written _ h.next.1
  | written failed h => exact .quiet h.next.1

section Phase
variable {s : LocalPath} (h : s.Phase)
include h

theorem LocalPath.Phase.of_readAddr (hs : s.master.state = .readAddr) :
    ∃ addr len, s.ReadAddressed addr len := by
  cases h with
  | readAddressed addr len h => exact ⟨addr, len, h⟩
  | quiet h => exact absurd (hs.symm.trans h.idle) (by decide)
  | onBeat _ _ _ _ _ h => exact absurd (hs.symm.trans h.phase) (by decide)
  | writeAddressed _ _ _ h => exact absurd (hs.symm.trans h.phase) (by decide)
  | written _ h => exact absurd (hs.symm.trans h.phase) (by decide)

theorem LocalPath.Phase.of_readData (hs : s.master.state = .readData) :
    ∃ addr len k failed, k ≤ len.toNat ∧ s.OnBeat addr len k failed := by
  cases h with
  | onBeat addr len k failed hk h => exact ⟨addr, len, k, failed, hk, h⟩
  | quiet h => exact absurd (hs.symm.trans h.idle) (by decide)
  | readAddressed _ _ h => exact absurd (hs.symm.trans h.phase) (by decide)
  | writeAddressed _ _ _ h => exact absurd (hs.symm.trans h.phase) (by decide)
  | written _ h => exact absurd (hs.symm.trans h.phase) (by decide)

theorem LocalPath.Phase.of_writeReq (hs : s.master.state = .writeReq) :
    ∃ addr data wmask, s.WriteAddressed addr data wmask := by
  cases h with
  | writeAddressed addr data wmask h => exact ⟨addr, data, wmask, h⟩
  | quiet h => exact absurd (hs.symm.trans h.idle) (by decide)
  | readAddressed _ _ h => exact absurd (hs.symm.trans h.phase) (by decide)
  | onBeat _ _ _ _ _ h => exact absurd (hs.symm.trans h.phase) (by decide)
  | written _ h => exact absurd (hs.symm.trans h.phase) (by decide)

theorem LocalPath.Phase.of_writeResp (hs : s.master.state = .writeResp) :
    ∃ failed, s.Written failed := by
  cases h with
  | written failed h => exact ⟨failed, h⟩
  | quiet h => exact absurd (hs.symm.trans h.idle) (by decide)
  | readAddressed _ _ h => exact absurd (hs.symm.trans h.phase) (by decide)
  | onBeat _ _ _ _ _ h => exact absurd (hs.symm.trans h.phase) (by decide)
  | writeAddressed _ _ _ h => exact absurd (hs.symm.trans h.phase) (by decide)

end Phase

theorem LocalRun.phase (r : LocalRun) (n : Nat) : (r.state n).Phase := by
  induction n with
  | zero => exact .quiet ⟨rfl, rfl, rfl, rfl⟩
  | succ n ih => exact ih.step

namespace SystemRun
variable (r : SystemRun)

theorem phase (n : Nat) :
    (⟨(r.state n).core.axi, (r.state n).slave, (r.state n).mem⟩ : LocalPath).Phase := by
  rw [← r.busRun_state]
  exact r.busRun.phase n

variable {r}

/-- The local slave accepts and answers everything in the cycle it is offered. -/
theorem coreRun_prompt : r.coreRun.Prompt := by
  constructor
  · intro n hv
    rw [coreRun_state] at hv
    obtain ⟨addr, len, h⟩ := (r.phase n).of_readAddr (by simpa [AxiMaster.arvalid] using hv)
    have hr : (r.state n).slave.rvalidQ = false := h.rvalid
    simp [coreRun, System.axi, LocalAxiSlave.drive, LocalAxiSlave.arready, hr]
  · intro n hv
    rw [coreRun_state] at hv
    obtain ⟨addr, len, k, failed, _, h⟩ :=
      (r.phase n).of_readData (by simpa [AxiMaster.rready] using hv)
    exact h.rvalid
  · intro n hv
    rw [coreRun_state] at hv
    simp only [AxiMaster.awvalid, Bool.and_eq_true, decide_eq_true_eq] at hv
    obtain ⟨addr, data, wmask, h⟩ := (r.phase n).of_writeReq hv.1
    have hb : (r.state n).slave.bvalidQ = false := h.bvalid
    have ha : (r.state n).slave.haveAw = false := h.haveAw
    simp [coreRun, System.axi, LocalAxiSlave.drive, LocalAxiSlave.awready, hb, ha]
  · intro n hv
    rw [coreRun_state] at hv
    simp only [AxiMaster.wvalid, Bool.and_eq_true, decide_eq_true_eq] at hv
    obtain ⟨addr, data, wmask, h⟩ := (r.phase n).of_writeReq hv.1
    have hb : (r.state n).slave.bvalidQ = false := h.bvalid
    have ha : (r.state n).slave.haveAw = false := h.haveAw
    have hd : (r.state n).core.axi.awDone = false := h.awDone
    simp [coreRun, System.axi, LocalAxiSlave.drive, LocalAxiSlave.wready,
      LocalAxiSlave.haveWriteAddr, LocalAxiSlave.writeAddrFire, LocalAxiSlave.awready,
      AxiMaster.awvalid, hv.1, hb, ha, hd]
  · intro n hv
    rw [coreRun_state] at hv
    obtain ⟨failed, h⟩ := (r.phase n).of_writeResp (by simpa [AxiMaster.bready] using hv)
    exact h.bvalid

/-- It ends every burst with the last beat. -/
theorem coreRun_conforming : r.coreRun.Conforming := by
  intro n hf
  have hs : (r.coreRun.state n).axi.state = .readData := by
    simp only [Run.rFire, AxiMaster.rFire, AxiMaster.rready, Bool.and_eq_true,
      decide_eq_true_eq] at hf
    exact hf.1
  have ht := r.coreRun.burst_tracked n hs
  rw [coreRun_state] at hs
  obtain ⟨addr, len, k, failed, hk, h⟩ := (r.phase n).of_readData hs
  have hlen : (r.state n).core.axi.lenQ = len := h.lenQ
  have hbeat : (r.state n).core.axi.readBeatQ = BitVec.ofNat 8 k := h.readBeatQ
  have hlt := len.isLt
  have hlast : (r.coreRun.axi n).rlast = decide (k = len.toNat) := h.rlast
  rw [hlast, ht.beat, ht.len, coreRun_state, hlen, hbeat, decide_eq_true_iff, BitVec.toNat_ofNat]
  constructor <;> intro he <;> omega

/-- The standalone system runs. Whatever the memory holds and whatever time the
simulator sets, the retirements are an execution of the sequential machine, and
no more than seventeen cycles pass without one unless the core has halted. -/
theorem standalone_runs (r : SystemRun) (n : Nat) :
    Trace Retires (Arch.boot r.resetPc) (log r.coreRun.retired n) (arch (r.state n).core) ∧
    ∃ m, n ≤ m ∧ m ≤ n + 17 ∧
      (wRetireReady (r.state m).core ⟨false, r.resetPc, (r.state m).axi⟩ = true ∨
        (r.state m).core.halted = true) := by
  constructor
  · rw [← coreRun_state]
    exact simulation (fun n => arch (r.coreRun.state n)) r.coreRun.matched n
  · obtain ⟨m, h1, h2, hm⟩ := coreRun_prompt.moves_within (r := r.coreRun) coreRun_conforming n
    rw [Run.Moves, coreRun_state] at hm
    exact ⟨m, h1, h2, hm⟩

end SystemRun

end Sim
