import AiOsoc.Npc.Machine
import AiOsoc.Am.Libgcc

/-!
# Routines on the core

A routine of assembly that lies in the memory behind the bus. From the cycle in
which the core has come to one of its lines, the core gets to wherever the lines
lead, however the slave times its answers.
-/

namespace Npc.Core.Run

set_option autoImplicit false

open Clocked Rv32e Asm

variable {r : Run} {mem : BitVec 30 → BitVec 32} {n : Nat}

/-- The core takes the next line of a routine. -/
theorem MemoryBacked.next_line (hm : r.MemoryBacked mem)
    (hp : AlignedPc (resetVector r.resetPc)) (hr : r.Responsive) {im : Image}
    (hplain : ∀ i ∈ im.code, plain i = true) (hl : im.Loaded (r.machine mem n))
    (hrun : (r.machine mem n).halted = false) {h' : Hart}
    (hnext : im.Next (r.machine mem n).toHart h') : ∃ m, n ≤ m ∧
      (r.machine mem m).toHart = h' ∧ (r.machine mem m).halted = false ∧
      im.Loaded (r.machine mem m) := by
  have hkeep : ∀ m, r.machine mem m = r.machine mem n → ¬ r.Moves m →
      r.machine mem (m + 1) = r.machine mem n := by
    intro m hsame hno
    have hstall : wRetireReady (r.state m) (r.input m) = false :=
      Bool.eq_false_iff.mpr fun hret => hno (Or.inl hret)
    rw [machine_of_not_retire hm.conforming hstall, hsame]
  obtain ⟨m, hle, hsame, hmove⟩ := leads (P := fun m => r.machine mem m = r.machine mem n) rfl hkeep
    (always_moves hm.conforming hr n)
  have hret : wRetireReady (r.state m) (r.input m) = true := by
    rcases hmove with hret | hhalt
    · exact hret
    · have hhalt' : (r.machine mem m).halted = true := hhalt
      rw [hsame, hrun] at hhalt'
      cases hhalt'
  have hstep := hm.machine_steps hp hret
  rw [hsame] at hstep
  exact ⟨m + 1, by omega, hl.step hplain hnext hstep⟩

/-- The core follows a routine to its end. -/
theorem MemoryBacked.follows (hm : r.MemoryBacked mem)
    (hp : AlignedPc (resetVector r.resetPc)) (hr : r.Responsive) {im : Image}
    (hplain : ∀ i ∈ im.code, plain i = true) {h h' : Hart} (hlines : im.Leads h h') :
    ∀ n, (r.machine mem n).toHart = h → (r.machine mem n).halted = false →
      im.Loaded (r.machine mem n) → ∃ m, n ≤ m ∧ (r.machine mem m).toHart = h' ∧
        (r.machine mem m).halted = false ∧ im.Loaded (r.machine mem m) := by
  induction hlines using Relation.ReflTransGen.head_induction_on with
  | refl => exact fun n hat hrun hl => ⟨n, Nat.le_refl n, hat, hrun, hl⟩
  | head hnext _ ih =>
    intro n hat hrun hl
    obtain ⟨m, hle, hat', hrun', hl'⟩ := hm.next_line hp hr hplain hl hrun (hat ▸ hnext)
    obtain ⟨k, hle', hend⟩ := ih m hat' hrun' hl'
    exact ⟨k, hle.trans hle', hend⟩

/-- Multiplication and division on a core without the M extension, reset to an
aligned vector: once the core is at the entry of a routine of `libgcc` with any two
arguments, it comes back to the caller with the product, quotient or remainder of
the M extension, the memory and the other registers as they were. -/
theorem core_multiplies_and_divides (hm : r.MemoryBacked mem)
    (hp : AlignedPc (resetVector r.resetPc)) (hr : r.Responsive) (f : Libgcc.Routine)
    {base : BitVec 32} (hb : base.toNat % 4 = 0) (hl : (f.image hb).Loaded (r.machine mem n))
    (hrun : (r.machine mem n).halted = false)
    (hpc : (r.machine mem n).pc = (f.image hb).address f.entry)
    (hra : ((r.machine mem n).x ra).toNat % 4 = 0) :
    ∃ m v, n ≤ m ∧ (r.machine mem m).halted = false ∧
      f.op.body ((r.machine mem n).x a0) ((r.machine mem n).x a1) = some v ∧
      Libgcc.Returned f.changed (r.machine mem n).toHart (r.machine mem m).toHart v := by
  have hx : (r.machine mem n).x 0#5 = 0#32 := rfl
  obtain ⟨h', hlines, hret⟩ := Libgcc.routine_returns hb f (r.machine mem n).toHart hpc hx hra
  obtain ⟨m, hle, hat, hrun', -⟩ := hm.follows hp hr (Libgcc.image_plain f hb) hlines n rfl hrun hl
  exact ⟨m, _, hle, hrun', Nemu.MulDiv.body_eq f.op _ _, hat ▸ hret⟩

theorem memoryRun_responsive (mem : BitVec 30 → BitVec 32) : (memoryRun mem).Responsive := by
  have hprompt : (memoryRun mem).Prompt := by
    constructor <;>
      · intro n _
        rw [memoryRun_axi]
        rfl
  exact hprompt.responsive

/-- A call of `__mulsi3` with 6 and 7, and a loop to come back to. -/
def mulProgram : List (Line Libgcc.MulLabel) :=
  [.instr (li a0 6#12), .instr (li a1 7#12), .call .__mulsi3, .instr (.jal 0#5 0#21)] ++
    Libgcc.muldi3

/-- The words of the program at the reset vector. -/
def mulWords (w : BitVec 30) : BitVec 32 :=
  [0x00600513#32, 0x00700593#32, 0x008000ef#32, 0x0000006f#32, 0x00050613#32, 0x00000513#32,
    0x0015f693#32, 0x00068463#32, 0x00c50533#32, 0x0015d593#32, 0x00161613#32, 0xfe0596e3#32,
    0x00008067#32].getD (w.toNat - 0x08000000) 0x00000013#32

theorem mulProgram_plain : ∀ i ∈ assemble mulProgram, plain i = true := by decide

section Sample
variable (hb : (0x20000000#32).toNat % 4 = 0)

theorem mulProgram_loaded : (Libgcc.load mulProgram hb).Loaded (bootMachine 0#32 mulWords) := by
  have hwords : ∀ k < 13, decode (mulWords (numberOf (0x20000000#32 + BitVec.ofNat 32 (4 * k)))) =
      (assemble mulProgram)[k]? := by decide
  have hword : ∀ k i, (assemble mulProgram)[k]? = some i →
      decode (mulWords (numberOf (0x20000000#32 + BitVec.ofNat 32 (4 * k)))) = some i := by
    intro k i hk
    obtain ⟨hlt, -⟩ := List.getElem?_eq_some_iff.mp hk
    rw [hwords k hlt, hk]
  refine ⟨?_, ?_⟩
  · intro k i hk w hw
    rw [Set.mem_singleton_iff.mp hw]
    exact hword k i hk
  · intro k i hk
    rw [bootMachine, wordAt_bytesOf]
    exact hword k i hk

/-- The registers at the entry of the routine. -/
def mulArguments : Reg → BitVec 32 :=
  Function.update (Function.update (Function.update (fun _ => 0#32) a0 6#32) a1 7#32) ra
    0x2000000c#32

theorem mulProgram_enters : (Libgcc.load mulProgram hb).Leads (bootMachine 0#32 mulWords).toHart
    ((Libgcc.load mulProgram hb).point (bootMachine 0#32 mulWords).toHart 4 mulArguments) := by
  have h0 : (assemble mulProgram)[0]? = some (li a0 6#12) := rfl
  have h1 : (assemble mulProgram)[1]? = some (li a1 7#12) := rfl
  have h2 : (assemble mulProgram)[2]? = some (.jal ra (.ofInt 21 (distance 2 4))) := rfl
  show (Libgcc.load mulProgram hb).Leads
    ((Libgcc.load mulProgram hb).point (bootMachine 0#32 mulWords).toHart 0 fun _ => 0#32) _
  exact .li h0 (by decide) rfl rfl
    (.li h1 (by decide) rfl rfl (.call h2 (by decide) (by decide) rfl .refl))

end Sample

theorem core_multiplies_six_by_seven : ∃ n m, n ≤ m ∧
    ((memoryRun mulWords).machine mulWords n).pc = 0x20000010#32 ∧
    ((memoryRun mulWords).machine mulWords n).x a0 = 6#32 ∧
    ((memoryRun mulWords).machine mulWords n).x a1 = 7#32 ∧
    ((memoryRun mulWords).machine mulWords m).pc = 0x2000000c#32 ∧
    ((memoryRun mulWords).machine mulWords m).x a0 = 42#32 ∧
    ((memoryRun mulWords).machine mulWords m).halted = false := by
  have hb : (0x20000000#32).toNat % 4 = 0 := by decide
  have hm := memoryRun_backed mulWords
  have hr := memoryRun_responsive mulWords
  have hboot : (memoryRun mulWords).machine mulWords 0 = bootMachine 0#32 mulWords := machine_zero
  obtain ⟨n, -, hat, hrun, hl⟩ := hm.follows (by decide) hr mulProgram_plain
    (mulProgram_enters hb) 0 (by rw [hboot]) (by rw [hboot]; rfl)
    (by rw [hboot]; exact mulProgram_loaded hb)
  have hb' : (0x20000010#32).toNat % 4 = 0 := by decide
  have hl' : (Libgcc.load Libgcc.muldi3 hb').Loaded ((memoryRun mulWords).machine mulWords n) := by
    refine hl.part (k := 4) rfl fun j i hj => ?_
    have hdrop : (assemble mulProgram).drop 4 = assemble Libgcc.muldi3 := by decide
    exact List.getElem?_drop.symm.trans (hdrop ▸ hj)
  have hpc : ((memoryRun mulWords).machine mulWords n).pc = 0x20000010#32 := congrArg Hart.pc hat
  have hx : ((memoryRun mulWords).machine mulWords n).x = mulArguments := congrArg Hart.x hat
  obtain ⟨m, v, hle, hrun', hv, hret⟩ := core_multiplies_and_divides hm (by decide) hr .__mulsi3 hb'
    hl' hrun hpc (by rw [hx]; rfl)
  have hpc' := hret.pc
  rw [hx] at hv hpc'
  refine ⟨n, m, hle, hpc, congrFun hx a0, congrFun hx a1, hpc', ?_, hrun'⟩
  exact hret.value.trans (Option.some_inj.mp (hv.symm.trans (by decide)))

end Npc.Core.Run
