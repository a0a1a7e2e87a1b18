import AiOsoc.Minirv.Shift

/-!
# Loads and stores

The accesses that minirv does not have, from bytes. They work outside the scratch
memory, except that the macros put a loaded value together there.
-/

namespace Minirv

set_option autoImplicit false

open Rv32e ByteMemory

/-! ## Values -/

section Values
variable (y z : BitVec 8)

theorem top_signExtend : (y.setWidth 32 <<< 24).sshiftRight 24 = y.signExtend 32 := by
  apply BitVec.eq_of_getLsbD_eq
  intro i hi
  rw [BitVec.getLsbD_sshiftRight, BitVec.getLsbD_signExtend]
  simp only [BitVec.getLsbD_shiftLeft, BitVec.getLsbD_setWidth, BitVec.msb_eq_getLsbD_last]
  grind

theorem setByte_second : setByte 0#32 1 y = y.setWidth 32 <<< 8 := by
  have hbytes : setByte 0#32 1 y = ofBytes 0#8 0#8 y 0#8 := rfl
  apply BitVec.eq_of_getLsbD_eq
  intro i hi
  simp only [hbytes, getLsbD_ofBytes, BitVec.getLsbD_shiftLeft, BitVec.getLsbD_setWidth,
    BitVec.getLsbD_zero]
  grind

/-- A halfword from its bytes, the upper one moved. -/
theorem half_sum : z.setWidth 32 + y.setWidth 32 <<< 8 = (y ++ z).setWidth 32 := by
  have hdisj : z.setWidth 32 &&& y.setWidth 32 <<< 8 = 0#32 := by
    apply BitVec.eq_of_getLsbD_eq
    intro i hi
    simp only [BitVec.getLsbD_and, BitVec.getLsbD_shiftLeft, BitVec.getLsbD_setWidth,
      BitVec.getLsbD_zero]
    grind
  rw [BitVec.add_eq_or_of_and_eq_zero _ _ hdisj]
  apply BitVec.eq_of_getLsbD_eq
  intro i hi
  simp only [BitVec.getLsbD_or, BitVec.getLsbD_shiftLeft, BitVec.getLsbD_setWidth,
    BitVec.getLsbD_append]
  grind

theorem half_signExtend :
    z.setWidth 32 + (y.setWidth 32 <<< 24).sshiftRight 16 = (y ++ z).signExtend 32 := by
  have hmove : ∀ i < 32, ((y.setWidth 32 <<< 24).sshiftRight 16).getLsbD i =
      (decide (8 ≤ i) && if i < 16 then y.getLsbD (i - 8) else y.getLsbD 7) := by
    intro i hi
    rw [BitVec.getLsbD_sshiftRight]
    simp only [BitVec.getLsbD_shiftLeft, BitVec.getLsbD_setWidth, BitVec.msb_eq_getLsbD_last]
    grind
  have hdisj : z.setWidth 32 &&& (y.setWidth 32 <<< 24).sshiftRight 16 = 0#32 := by
    apply BitVec.eq_of_getLsbD_eq
    intro i hi
    simp only [BitVec.getLsbD_and, hmove i hi, BitVec.getLsbD_setWidth, BitVec.getLsbD_zero]
    grind
  rw [BitVec.add_eq_or_of_and_eq_zero _ _ hdisj]
  apply BitVec.eq_of_getLsbD_eq
  intro i hi
  rw [BitVec.getLsbD_or, hmove i hi, BitVec.getLsbD_signExtend]
  simp only [BitVec.getLsbD_setWidth, BitVec.getLsbD_append, BitVec.msb_eq_getLsbD_last]
  grind

/-- The byte behind an address, with an offset that has a successor. -/
theorem offset_succ {imm : BitVec 12} (himm : imm ≠ 2047#12) :
    (imm + 1#12).signExtend 32 = imm.signExtend 32 + 1#32 := by
  have hlt := imm.isLt
  have hne : imm.toNat ≠ 2047 := fun h => himm (BitVec.eq_of_toNat_eq h)
  have hint : (imm + 1#12).toInt = imm.toInt + 1 := by
    have hsum : (imm + 1#12).toNat = (imm.toNat + 1) % 2 ^ 12 := BitVec.toNat_add imm 1#12
    rw [BitVec.toInt_eq_toNat_cond, BitVec.toInt_eq_toNat_cond, hsum]
    split <;> split <;> omega
  rw [BitVec.signExtend, hint, BitVec.ofInt_add]
  rfl

end Values

/-! ## The macros -/

section Loads
variable {sym : Symbols} {m : Memory} {spv : BitVec 32} (hs : Site sym spv m)
  {r : Regs spv} {w : Work} {rd rs1 : Reg} {imm : BitVec 12} {a : BitVec 32}

/-- An address that the macros do not write. -/
def Outside (sym : Symbols) (spv a : BitVec 32) : Prop := ¬InScratch spv a ∧ ¬InArray sym a

include hs in
theorem Wp.lb (hrd : Dest rd) (htp : rd ≠ tp) (haddr : r.x rs1 + imm.signExtend 32 = a)
    (ha : Outside sym spv a) : Wp sym m (Minirv.lb sym rd rs1 imm)
      (fun r' _ => Result r r' rd (loadValue .byte false m a)) r w := by
  have hzero : r.x x0 = 0#32 := r.zero
  simp only [Minirv.lb, List.cons_append, List.nil_append]
  refine .sw hs (by decide) (.lbuAt hrd haddr ha (.sb (by decide) (by decide) ?_))
  refine .lw hs hrd (by decide) ?_
  simp only [Work.setWord_self, Regs.set_self, Regs.set_set, hzero, low_eq, setByte_top]
  refine (Wp.srai hs (by decide) hrd htp).mono fun r' w' h => ⟨?_, ?_⟩
  · rw [h.value, Regs.set_self]
    exact top_signExtend (m a)
  · intro q hq hgp hqtp
    rw [h.kept q hq hgp hqtp, Regs.set_of_ne _ _ _ hq]

include hs in
theorem Wp.lhu (hrd : Dest rd) (htp : rd ≠ tp) (hrs1 : rs1 ≠ tp) (himm : imm ≠ 2047#12)
    (haddr : r.x rs1 + imm.signExtend 32 = a) (ha : Outside sym spv a)
    (ha' : Outside sym spv (a + 1#32)) : Wp sym m (Minirv.lhu rd rs1 imm)
      (fun r' _ => Result r r' rd (loadValue .half true m a)) r w := by
  have hzero : r.x x0 = 0#32 := r.zero
  have haddr' : r.x rs1 + (imm + 1#12).signExtend 32 = a + 1#32 := by
    rw [offset_succ himm, ← BitVec.add_assoc, haddr]
  refine .sw hs (by decide) (.lbuAt (by decide) haddr' ha' (.sb (by decide) (by decide) ?_))
  refine .lw hs (by decide) (by decide) (.lbuAt hrd ?_ ha (.add hrd (.nil ⟨?_, ?_⟩)))
  · rw [Regs.set_of_ne _ _ _ hrs1, Regs.set_of_ne _ _ _ hrs1, haddr]
  · simp only [Work.setWord_self, Regs.set_self, Regs.set_of_ne _ _ _ (Ne.symm htp), hzero,
      low_setWidth, setByte_second, half_sum]
    rfl
  · intro q hq _ hqtp
    simp only [Regs.set_x, if_neg hq, if_neg hqtp]

include hs in
theorem Wp.lh (hrd : Dest rd) (hgp : rd ≠ gp) (hrs1 : rs1 ≠ gp ∧ rs1 ≠ tp) (himm : imm ≠ 2047#12)
    (haddr : r.x rs1 + imm.signExtend 32 = a) (ha : Outside sym spv a)
    (ha' : Outside sym spv (a + 1#32)) : Wp sym m (Minirv.lh sym rd rs1 imm)
      (fun r' _ => Result r r' rd (loadValue .half false m a)) r w := by
  have hzero : r.x x0 = 0#32 := r.zero
  have haddr' : r.x rs1 + (imm + 1#12).signExtend 32 = a + 1#32 := by
    rw [offset_succ himm, ← BitVec.add_assoc, haddr]
  simp only [Minirv.lh, List.cons_append, List.nil_append]
  refine .sw hs (by decide) (.lbuAt (by decide) haddr' ha' (.sb (by decide) (by decide) ?_))
  refine .lw hs (by decide) (by decide) (.append ?_)
  simp only [Work.setWord_self, Regs.set_self, Regs.set_set, hzero, low_eq, setByte_top]
  refine (Wp.srai hs (by decide) (by decide) (by decide)).mono fun r' w' h => ?_
  have hkept : ∀ q, q ≠ gp → q ≠ tp → r'.x q = r.x q := by
    intro q hqgp hqtp
    rw [h.kept q hqgp hqgp hqtp, Regs.set_of_ne _ _ _ hqgp]
  refine .lbuAt hrd ?_ ha (.add hrd (.nil ⟨?_, ?_⟩))
  · rw [hkept rs1 hrs1.1 hrs1.2, haddr]
  · rw [Regs.set_self, Regs.set_self, Regs.set_of_ne _ _ _ (Ne.symm hgp), h.value, Regs.set_self]
    exact half_signExtend _ _
  · intro q hq hqgp hqtp
    rw [Regs.set_of_ne _ _ _ hq, Regs.set_of_ne _ _ _ hq, hkept q hqgp hqtp]

end Loads

end Minirv
