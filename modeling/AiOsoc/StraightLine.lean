import AiOsoc.Assembly

/-!
# Straight-line code

What a list of instructions without jumps does to registers and memory, wherever
it stands in a routine, as a relation that composes along the list.
-/

namespace Rv32e

set_option autoImplicit false

open ByteMemory

structure Conf where
  x : Reg → BitVec 32
  mem : Memory

/-- The instructions stand in the routine from the instruction `k` on. -/
def Asm.Image.At (im : Asm.Image) (k : Nat) (is : List Instr) : Prop :=
  ∀ j i, is[j]? = some i → im.code[k + j]? = some i

/-- Wherever the instructions stand, they take a hart with the registers and
memory `c` to `c'`, and its pc behind them. -/
def Does (is : List Instr) (c c' : Conf) : Prop :=
  ∀ (im : Asm.Image) (k : Nat) (h : Hart), im.At k is → h.pc = im.address k → h.x = c.x →
    h.mem = c.mem →
      im.Leads h { h with x := c'.x, mem := c'.mem, pc := im.address (k + is.length) }

section At
variable {im : Asm.Image} {k : Nat} {is js : List Instr}

theorem Asm.Image.At.left (h : im.At k (is ++ js)) : im.At k is := by
  intro j i hj
  obtain ⟨hlt, -⟩ := List.getElem?_eq_some_iff.mp hj
  exact h j i (by rw [List.getElem?_append_left hlt, hj])

theorem Asm.Image.At.right (h : im.At k (is ++ js)) : im.At (k + is.length) js := by
  intro j i hj
  have hj' := h (is.length + j) i (by rw [List.getElem?_append_right (Nat.le_add_right ..),
    Nat.add_sub_cancel_left, hj])
  rwa [← Nat.add_assoc] at hj'

end At

section Compose
variable {is js : List Instr} {i : Instr} {c c' c'' : Conf}

theorem Does.nil (c : Conf) : Does [] c c := by
  rintro im k ⟨x, pc, csrs, mem⟩ - rfl rfl rfl
  exact .refl

theorem Does.append (h₁ : Does is c c') (h₂ : Does js c' c'') : Does (is ++ js) c c'' := by
  intro im k h hat hpc hx hm
  have hsecond := h₂ im (k + is.length)
    { h with x := c'.x, mem := c'.mem, pc := im.address (k + is.length) } hat.right rfl rfl rfl
  rw [Nat.add_assoc, ← List.length_append] at hsecond
  exact (h₁ im k h hat.left hpc hx hm).trans hsecond

theorem Does.cons (h₁ : Does [i] c c') (h₂ : Does is c' c'') : Does (i :: is) c c'' :=
  h₁.append h₂

/-- One instruction, from the state behind it. -/
theorem Does.of_step (ht : ∀ pc csrs, (exec c.x pc csrs ⟨false, c.mem⟩ i).trap = none)
    (hstep : ∀ h : Hart, h.x = c.x → h.mem = c.mem →
      h.step i = { h with x := c'.x, mem := c'.mem, pc := h.pc + 4#32 }) : Does [i] c c' := by
  intro im k h hat hpc hx hm
  have hnext := hstep h hx hm
  rw [hpc, im.address_succ] at hnext
  refine .single ⟨k, i, hpc, hat 0 i rfl, ?_, hnext.symm⟩
  rw [Hart.effect, hx, hm]
  exact ht _ _

/-- An instruction without a memory access, from its effect. -/
theorem Does.of_write {rd : Reg} {v : BitVec 32} (hrd : rd ≠ 0#5)
    (he : ∀ pc csrs, exec c.x pc csrs ⟨false, c.mem⟩ i =
      .complete csrs (pc + 4#32) (setReg rd v)) :
    Does [i] c ⟨Function.update c.x rd v, c.mem⟩ := by
  refine .of_step (fun pc csrs => by rw [he]; rfl) ?_
  rintro ⟨x, pc, csrs, mem⟩ rfl rfl
  have he := he pc csrs
  simp only [Hart.effect, Hart.step, he, Effect.complete, setReg, if_neg hrd]

/-- A load, from its effect. -/
theorem Does.of_load {rd : Reg} {v a : BitVec 32} {w : Width} (hrd : rd ≠ 0#5)
    (he : ∀ pc csrs, exec c.x pc csrs ⟨false, c.mem⟩ i =
      { Effect.complete csrs (pc + 4#32) (setReg rd v) with access := some (.load w a) }) :
    Does [i] c ⟨Function.update c.x rd v, c.mem⟩ := by
  refine .of_step (fun pc csrs => by rw [he]; rfl) ?_
  rintro ⟨x, pc, csrs, mem⟩ rfl rfl
  have he := he pc csrs
  simp only [Hart.effect, Hart.step, he, Effect.complete, setReg, if_neg hrd]

/-- A store, from its effect. -/
theorem Does.of_store {w : Width} {a : BitVec 32} {bytes : List (BitVec 32 × BitVec 8)}
    (he : ∀ pc csrs, exec c.x pc csrs ⟨false, c.mem⟩ i =
      { Effect.complete csrs (pc + 4#32) none with access := some (.store w a bytes) }) :
    Does [i] c ⟨c.x, writeBytes c.mem bytes⟩ := by
  refine .of_step (fun pc csrs => by rw [he]; rfl) ?_
  rintro ⟨x, pc, csrs, mem⟩ rfl rfl
  have he := he pc csrs
  simp only [Hart.effect, Hart.step, he, Effect.complete]

end Compose

/-! ## The lines -/

def lbu (rd : Reg) (imm : BitVec 12) (rs1 : Reg) : Instr := .load .byte true rd rs1 imm
def sb (rs2 : Reg) (imm : BitVec 12) (rs1 : Reg) : Instr := .store .byte rs1 rs2 imm
def add (rd rs1 rs2 : Reg) : Instr := .op .add rd rs1 rs2

section Lines
variable (c : Conf) {rd : Reg} (hrd : rd ≠ 0#5) (rs1 rs2 : Reg) (imm : BitVec 12)

include hrd in
theorem does_addi : Does [addi rd rs1 imm] c
    ⟨Function.update c.x rd (c.x rs1 + imm.signExtend 32), c.mem⟩ :=
  .of_write hrd fun _ _ => rfl

include hrd in
theorem does_add : Does [add rd rs1 rs2] c ⟨Function.update c.x rd (c.x rs1 + c.x rs2), c.mem⟩ :=
  .of_write hrd fun _ _ => rfl

include hrd in
theorem does_lui (hi : BitVec 20) : Does [.lui rd hi] c
    ⟨Function.update c.x rd (hi ++ 0#12), c.mem⟩ :=
  .of_write hrd fun _ _ => rfl

include hrd in
theorem does_lw {a : BitVec 32} (haddr : c.x rs1 + imm.signExtend 32 = a) (ha : a.toNat % 4 = 0) :
    Does [lw rd imm rs1] c ⟨Function.update c.x rd (loadWord c.mem a), c.mem⟩ := by
  subst haddr
  have hal : aligned .word (c.x rs1 + imm.signExtend 32) = true := decide_eq_true ha
  refine .of_load (w := .word) (a := c.x rs1 + imm.signExtend 32) hrd ?_
  intro pc csrs
  simp only [lw, exec, memory, hal, if_true, Bool.false_eq_true, if_false]
  rfl

include hrd in
theorem does_lbu {a : BitVec 32} (haddr : c.x rs1 + imm.signExtend 32 = a) :
    Does [lbu rd imm rs1] c ⟨Function.update c.x rd ((c.mem a).setWidth 32), c.mem⟩ := by
  subst haddr
  have hal : aligned .byte (c.x rs1 + imm.signExtend 32) = true := decide_eq_true (Nat.mod_one _)
  refine .of_load (w := .byte) (a := c.x rs1 + imm.signExtend 32) hrd ?_
  intro pc csrs
  simp only [lbu, exec, memory, hal, if_true, Bool.false_eq_true, if_false]
  rfl

theorem does_sw {a : BitVec 32} (haddr : c.x rs1 + imm.signExtend 32 = a) (ha : a.toNat % 4 = 0) :
    Does [sw rs2 imm rs1] c ⟨c.x, storeWord c.mem a (c.x rs2)⟩ := by
  subst haddr
  have hal : aligned .word (c.x rs1 + imm.signExtend 32) = true := decide_eq_true ha
  rw [← writeBytes_storeBytes]
  refine .of_store (w := .word) (a := c.x rs1 + imm.signExtend 32) ?_
  intro pc csrs
  simp only [sw, exec, memory, hal, if_true, Bool.false_eq_true, if_false]

theorem does_sb {a : BitVec 32} (haddr : c.x rs1 + imm.signExtend 32 = a) :
    Does [sb rs2 imm rs1] c ⟨c.x, Function.update c.mem a ((c.x rs2).extractLsb' 0 8)⟩ := by
  subst haddr
  have hal : aligned .byte (c.x rs1 + imm.signExtend 32) = true := decide_eq_true (Nat.mod_one _)
  have hbytes : storeBytes .byte (c.x rs1 + imm.signExtend 32) (c.x rs2) =
      [(c.x rs1 + imm.signExtend 32, (c.x rs2).extractLsb' 0 8)] := by
    simp [storeBytes, Width.bytes]
  have hstore : Does [sb rs2 imm rs1] c
      ⟨c.x, writeBytes c.mem (storeBytes .byte (c.x rs1 + imm.signExtend 32) (c.x rs2))⟩ := by
    refine .of_store (w := .byte) (a := c.x rs1 + imm.signExtend 32) ?_
    intro pc csrs
    simp only [sb, exec, memory, hal, if_true, Bool.false_eq_true, if_false]
  rw [hbytes] at hstore
  exact hstore

end Lines

/-! ## Accesses in two memories -/

theorem loadValue_congr {m m' : Memory} {width : Width} {unsigned : Bool} {a : BitVec 32}
    (h : ∀ k < width.bytes, m (a + BitVec.ofNat 32 k) = m' (a + BitVec.ofNat 32 k)) :
    loadValue width unsigned m a = loadValue width unsigned m' a := by
  have h0 := h 0 (by cases width <;> decide)
  rw [BitVec.add_zero] at h0
  cases width with
  | byte => simp only [loadValue, h0]
  | half =>
    have h1 := h 1 (by decide)
    simp only [loadValue, h0, h1]
  | word =>
    have h1 := h 1 (by decide)
    have h2 := h 2 (by decide)
    have h3 := h 3 (by decide)
    simp only [loadValue, h0, h1, h2, h3]

theorem writeBytes_cons (m : Memory) (b : BitVec 32 × BitVec 8)
    (bytes : List (BitVec 32 × BitVec 8)) :
    writeBytes m (b :: bytes) = writeBytes (Function.update m b.1 b.2) bytes := rfl

theorem writeBytes_congr {m m' : Memory} {bytes : List (BitVec 32 × BitVec 8)} {a : BitVec 32}
    (h : (∃ b ∈ bytes, b.1 = a) ∨ m a = m' a) : writeBytes m bytes a = writeBytes m' bytes a := by
  induction bytes generalizing m m' with
  | nil =>
    rcases h with ⟨b, hb, -⟩ | h
    · cases hb
    · exact h
  | cons b bytes ih =>
    rw [writeBytes_cons, writeBytes_cons]
    refine ih ?_
    by_cases hb : b.1 = a
    · right
      rw [← hb, Function.update_self, Function.update_self]
    · rcases h with ⟨b', hb', ha⟩ | h
      · rcases List.mem_cons.mp hb' with rfl | hb'
        · exact absurd ha hb
        · exact Or.inl ⟨b', hb', ha⟩
      · right
        rw [Function.update_of_ne (Ne.symm hb), Function.update_of_ne (Ne.symm hb), h]

/-- The memory outside the bytes that are written. -/
theorem writeBytes_outside {m : Memory} {bytes : List (BitVec 32 × BitVec 8)} {a : BitVec 32}
    (h : ∀ b ∈ bytes, b.1 ≠ a) : writeBytes m bytes a = m a := by
  induction bytes generalizing m with
  | nil => rfl
  | cons b bytes ih =>
    have hb : b.1 ≠ a := h b List.mem_cons_self
    rw [writeBytes_cons, ih fun b' hb' => h b' (List.mem_cons_of_mem _ hb'),
      Function.update_of_ne (Ne.symm hb)]

/-! ## Jumps through a register -/

theorem Asm.Image.next_jalr {im : Asm.Image} {h : Hart} {k : Nat} {rd rs1 : Reg}
    (hpc : h.pc = im.address k) (hk : im.code[k]? = some (.jalr rd rs1 0#12))
    (ha : (h.x rs1).toNat % 4 = 0) : im.Next h { h with
      x := if rd = 0#5 then h.x else Function.update h.x rd (im.address (k + 1)),
      pc := h.x rs1 } := by
  have htarget : (h.x rs1 + (0#12).signExtend 32) &&& ~~~1#32 = h.x rs1 := by
    have h0 : h.x rs1 + (0#12).signExtend 32 = h.x rs1 := BitVec.add_zero _
    rw [h0, ← and_not_three ha, BitVec.and_assoc]
    rfl
  have he : h.effect (.jalr rd rs1 0#12) =
      .complete h.csrs (h.x rs1) (setReg rd (im.address (k + 1))) := by
    rw [Hart.effect, exec, htarget, goto, if_pos ha, hpc, im.address_succ]
  exact ⟨k, .jalr rd rs1 0#12, hpc, hk, by rw [he]; rfl, (step_complete he).symm⟩

end Rv32e
