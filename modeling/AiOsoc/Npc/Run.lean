import AiOsoc.Clocked
import AiOsoc.Npc.Core

/-!
# Runs of the core

A run starts with one edge under reset from arbitrary register contents and
then samples what the slave drives, cycle by cycle, with reset released. A state
is reachable if some sequence of edges leads to it that has a reset edge in it.
-/

namespace Npc.Core

set_option autoImplicit false

inductive Reachable : State → Prop where
  | reset (s : State) (i : Input) (hi : i.reset = true) : Reachable (step s i)
  | step (s : State) (i : Input) : Reachable s → Reachable (step s i)

/-- The invariant rule: what every reset edge establishes and every clock edge
keeps holds in every reachable state. -/
theorem Reachable.invariant {P : State → Prop} (reset : ∀ s i, P (resetEdge s i))
    (clock : ∀ s i, i.reset = false → Reachable s → P s → P (clock s i)) {s : State}
    (h : Reachable s) : P s := by
  induction h with
  | reset s i hi =>
    rw [Core.step, if_pos hi]
    exact reset s i
  | step s i hs ih =>
    unfold Core.step
    split
    · exact reset s i
    · exact clock s i (by simpa using ‹¬ i.reset = true›) hs ih

/-- Register contents before the first reset, for concrete runs. -/
def blank : State where
  halted := false
  trapStatus := .running
  fPc := 0#32
  ifuPending := false
  dropFetchResponse := false
  fdValid := false
  fd := ⟨0#32, 0#32, false⟩
  dxValid := false
  dx := dStage ⟨0#32, 0#32, false⟩ 0#32 0#32
  xwValid := false
  xw := xStage (dStage ⟨0#32, 0#32, false⟩ 0#32 0#32) Csr.reset
  ifu := Ifu.reset
  regs := RegFile.reset
  csr := Csr.reset
  mtime := 0#64
  axi := AxiMaster.reset

structure Run where
  boot : State
  resetPc : BitVec 32
  axi : Nat → AxiIn

/-- A slave that accepts everything at once and offers `word` every cycle. -/
def eager (word : BitVec 32) (last : Bool) : AxiIn :=
  ⟨true, true, true, 0#2, true, true, 0#2, word, last⟩

namespace Run
variable (r : Run)

def input (n : Nat) : Input := ⟨false, r.resetPc, r.axi n⟩

/-- The registers at the start of cycle `n` after reset. -/
def state : Nat → State :=
  Clocked.state step (step r.boot ⟨true, r.resetPc, r.axi 0⟩) r.input

theorem state_succ (n : Nat) : r.state (n + 1) = clock (r.state n) (r.input n) := rfl

theorem reachable (n : Nat) : Reachable (r.state n) := by
  induction n with
  | zero => exact .reset r.boot ⟨true, r.resetPc, r.axi 0⟩ rfl
  | succ n ih => exact .step _ (r.input n) ih

/-- A slave that gives one burst of four `nop` words and then falls silent. -/
def nopRun : Run := ⟨blank, 0#32, fun n =>
  if n < 7 then eager 0x00000013#32 (n = 6)
  else ⟨true, true, false, 0#2, true, false, 0#2, 0#32, false⟩⟩

end Run

end Npc.Core
