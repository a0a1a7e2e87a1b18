import Mathlib.Tactic.Convert
import AiOsoc.Minirv.Lines

/-!
# Bytes, subtraction and comparison

What the macros that work on registers leave behind. The inner ones say exactly
which registers and scratch words they change, since the outer ones keep values in
the others.
-/

namespace Minirv

set_option autoImplicit false

open Rv32e ByteMemory

section Inner
variable {sym : Symbols} {m : Memory} {spv : BitVec 32} (hs : Site sym spv m)
  {Q : Regs spv → Work → Prop} {r : Regs spv} {w : Work} {rd rs rs1 rs2 : Reg}

include hs in
theorem Wp.getbyte {b : Nat} (hb : b < 4) (hrd : Dest rd)
    (h : Q (r.set rd hrd ((byteAt (r.x rs) b).setWidth 32)) (w.setWord varC (r.x rs))) :
    Wp sym m (getbyte rd rs b) Q r w := by
  refine .sw hs (by decide) (.lbu hrd (by decide) hb ?_)
  rw [Work.setWord_self]
  exact .nil h

theorem Wp.doublings {imm : Nat} (himm : 1 ≤ imm) (hrd : Dest rd)
    (h : Q (r.set rd hrd (r.x rs <<< imm)) w) : Wp sym m (doublings rd rs imm) Q r w := by
  have hrep : ∀ k v, Q (r.set rd hrd (v <<< k)) w →
      Wp sym m (List.replicate k (Rv32e.add rd rd rd)) Q (r.set rd hrd v) w := by
    intro k
    induction k with
    | zero =>
      intro v hv
      rw [BitVec.shiftLeft_zero] at hv
      exact .nil hv
    | succ k ih =>
      intro v hv
      refine .add hrd ?_
      rw [Regs.set_self, Regs.set_set]
      apply ih
      rw [← shiftLeft_one, ← BitVec.shiftLeft_add, Nat.add_comm 1 k]
      exact hv
  refine .add hrd (hrep (imm - 1) _ ?_)
  have hsplit : 1 + (imm - 1) = imm := by omega
  rw [← shiftLeft_one, ← BitVec.shiftLeft_add, hsplit]
  exact h

theorem Wp.slliRest {imm : Nat} (hrd : Dest rd) (h : Q (r.set rd hrd (r.x rd <<< imm)) w) :
    Wp sym m (slliRest rd imm) Q r w := by
  unfold Minirv.slliRest
  split
  · rename_i h0
    refine .nil ?_
    rwa [h0, BitVec.shiftLeft_zero, Regs.set_same] at h
  · exact .doublings (by omega) hrd h

/-- The sign bit as a number. -/
def signBit (v : BitVec 32) : BitVec 32 := if v.msb then 1#32 else 0#32

theorem toNat_byteAt (v : BitVec 32) (b : Nat) :
    (byteAt v b).toNat = v.toNat / 2 ^ (8 * b) % 256 := by
  rw [byteAt, BitVec.extractLsb'_toNat, Nat.shiftRight_eq_div_pow]

theorem toNat_byteAt_word (v : BitVec 32) (b : Nat) :
    ((byteAt v b).setWidth 32).toNat = v.toNat / 2 ^ (8 * b) % 256 := by
  rw [BitVec.toNat_setWidth_of_le (by decide), toNat_byteAt]

theorem toNat_signBit (v : BitVec 32) : (signBit v).toNat = v.toNat / 2 ^ 31 := by
  have hv := v.isLt
  rw [signBit, BitVec.msb_eq_decide]
  by_cases h : 2 ^ (32 - 1) ≤ v.toNat
  · rw [decide_eq_true h, if_pos rfl, BitVec.toNat_ofNat]
    omega
  · rw [decide_eq_false h, if_neg Bool.false_ne_true, BitVec.toNat_ofNat]
    omega

theorem signBit_byte (v : BitVec 32) :
    (byteAt ((byteAt v 3).setWidth 32 <<< 1) 1).setWidth 32 = signBit v := by
  have hv := v.isLt
  apply BitVec.eq_of_toNat_eq
  rw [toNat_byteAt_word, toNat_signBit, BitVec.toNat_shiftLeft, toNat_byteAt_word, Nat.shiftLeft_eq]
  omega

include hs in
theorem Wp.msb (hrd : Dest rd)
    (h : ∀ c, Q (r.set rd hrd (signBit (r.x rs))) (w.setWord varC c)) :
    Wp sym m (msb rd rs) Q r w := by
  have hdouble : slli rd rd 1 = Minirv.doublings rd rd 1 := rfl
  rw [Minirv.msb, hdouble, List.append_assoc]
  refine .append (.getbyte hs (by decide) hrd (.append (.doublings (by decide) hrd ?_)))
  rw [Regs.set_self, Regs.set_set]
  refine .getbyte hs (by decide) hrd ?_
  rw [Regs.set_self, Regs.set_set, signBit_byte]
  rw [Work.setWord_setWord]
  exact h _

theorem isTable_xor (j i : BitVec 8) : sym.IsTable (sym.xor8Table + (j ++ i).setWidth 32) := by
  have hj := j.isLt
  have hi := i.isLt
  rw [xor8Table_eq, row_column, add_ofNat]
  exact isTable_lut (by omega)

/-- The row of the table that complements a byte. -/
theorem complement_address (i : BitVec 8) :
    i.setWidth 32 + (sym.xor8Table + 0xff00#32) = sym.xor8Table + (0xff#8 ++ i).setWidth 32 := by
  have hi := i.isLt
  have hi' : i.setWidth 32 = BitVec.ofNat 32 i.toNat := (ofNat_toNat_word i).symm
  rw [row_column, hi', BitVec.add_comm]
  exact add_ofNat _ 0xff00 i.toNat

include hs in
/-- One byte of `not`. -/
theorem Wp.notByte {b : Nat} (hb : b < 4) (htp : r.x tp = sym.xor8Table + 0xff00#32)
    (h : ∀ g, Q (r.set gp (by decide) g)
      (w.setWord varD (setByte (w.word varD) b (~~~byteAt (w.word varC) b)))) :
    Wp sym m (notByte b) Q r w := by
  refine .lbu (by decide) (by decide) hb (.add (by decide) ?_)
  rw [Regs.set_self, Regs.set_of_ne _ _ _ (by decide), Regs.set_set, htp, complement_address]
  refine .lookup hs (by decide) (Regs.set_self ..) (isTable_xor _ _) (lookup_xor hs.tables _ _) ?_
  refine .sb (by decide) hb (.nil ?_)
  have hbyte : ((0xff#8 ^^^ byteAt (w.word varC) b).setWidth 32).extractLsb' 0 8 =
      ~~~byteAt (w.word varC) b := by
    rw [low_setWidth]
    exact BitVec.allOnes_xor
  rw [Regs.set_self, Regs.set_set, hbyte]
  exact h _

theorem complement_bytes (v : BitVec 32) :
    ofBytes (~~~byteAt v 3) (~~~byteAt v 2) (~~~byteAt v 1) (~~~byteAt v 0) = ~~~v := by
  have hbyte : ∀ b < 4, ~~~byteAt v b = byteAt (~~~v) b := by
    intro b hb
    apply BitVec.eq_of_getLsbD_eq
    intro i hi
    have h32 : 8 * b + i < 32 := by omega
    simp [byteAt, hi, h32]
  rw [hbyte 3 (by decide), hbyte 2 (by decide), hbyte 1 (by decide), hbyte 0 (by decide),
    ofBytes_byteAt]

include hs in
theorem Wp.notBytes (htp : r.x tp = sym.xor8Table + 0xff00#32)
    (h : ∀ g, Q (r.set gp (by decide) g) (w.setWord varD (~~~w.word varC))) :
    Wp sym m (Minirv.notByte 3 ++ (Minirv.notByte 2 ++ (Minirv.notByte 1 ++ Minirv.notByte 0)))
      Q r w := by
  have hkeep : ∀ g, (r.set gp (by decide) g).x tp = sym.xor8Table + 0xff00#32 :=
    fun g => (Regs.set_of_ne _ _ _ (by decide)).trans htp
  refine .append (.notByte hs (by decide) htp fun g3 => ?_)
  refine .append (.notByte hs (by decide) (hkeep g3) fun g2 => ?_)
  rw [Regs.set_set]
  refine .append (.notByte hs (by decide) (hkeep g2) fun g1 => ?_)
  rw [Regs.set_set]
  refine .notByte hs (by decide) (hkeep g1) fun g0 => ?_
  rw [Regs.set_set]
  have hC : ∀ v, (w.setWord varD v).word varC = w.word varC := fun _ => rfl
  simp only [hC, Work.setWord_setWord, Work.setWord_self, setByte_all, complement_bytes]
  exact h g0

include hs in
theorem Wp.not (hrd : Dest rd)
    (h : ∀ t w', Work.Kept [3, varC, varD] w w' →
      Q ((r.set tp (by decide) t).set rd hrd (~~~r.x rs)) w') :
    Wp sym m (Minirv.not sym rd rs) Q r w := by
  have hcode : Minirv.not sym rd rs = push gp 3 :: Rv32e.sw rs (spVar varC) Rv32e.sp ::
      (Minirv.la tp (sym.xor8Table + 0xff00#32) ++
        ((Minirv.notByte 3 ++ (Minirv.notByte 2 ++ (Minirv.notByte 1 ++ Minirv.notByte 0))) ++
          [pop gp 3, Rv32e.lw rd (spVar varD) Rv32e.sp])) := by
    simp only [Minirv.not, List.append_assoc, List.cons_append, List.nil_append]
  rw [hcode]
  refine .sw hs (by decide) (.sw hs (by decide) (.append (.la (by decide) ?_)))
  refine .append (.notBytes hs (Regs.set_self ..) fun g => ?_)
  refine .lw hs (by decide) (by decide) (.lw hs hrd (by decide) (.nil ?_))
  have hgp : (((r.set tp (by decide) (sym.xor8Table + 0xff00#32)).set gp (by decide) g).set gp
      (by decide) (r.x gp)) = r.set tp (by decide) (sym.xor8Table + 0xff00#32) := by
    rw [Regs.set_set, Regs.set_comm _ _ _ _ (by decide), Regs.set_same]
  have h3 : ∀ a b c, (((w.setWord 3 a).setWord varC b).setWord varD c).word 3 = a :=
    fun _ _ _ => rfl
  have hC : ∀ a b, ((w.setWord 3 a).setWord varC b).word varC = b := fun _ _ => rfl
  rw [h3, hgp, Work.setWord_self, hC]
  refine h _ _ ?_
  exact (((Work.Kept.refl _ w).set (by decide) _).set (by decide) _).set (by decide) _

theorem add_not_succ (a b : BitVec 32) : a + ~~~b + (1#12).signExtend 32 = a - b := by
  have hone : (1#12).signExtend 32 = 1#32 := by decide
  rw [hone, BitVec.sub_eq_add_neg, BitVec.neg_eq_not_add, BitVec.add_assoc]

include hs in
/-- `rs1` is read after `tp` is written. -/
theorem Wp.sub (hrd : Dest rd) (hrs1 : rs1 ≠ tp)
    (h : ∀ t w', Work.Kept [3, varC, varD] w w' →
      Q ((r.set tp (by decide) t).set rd hrd (r.x rs1 - r.x rs2)) w') :
    Wp sym m (Minirv.sub sym rd rs1 rs2) Q r w := by
  refine .append (.not hs (by decide) ?_)
  intro t w' hw
  rw [Regs.set_set]
  refine .add hrd (.addi hrd (.nil ?_))
  rw [Regs.set_self, Regs.set_of_ne _ _ _ hrs1, Regs.set_self, Regs.set_set, add_not_succ]
  exact h _ w' hw

end Inner

/-! ## Comparison -/

/-- The signs of two operands and of their difference, as the index of a table. -/
def signs (a b : BitVec 32) : Nat :=
  4 * (a.toNat / 2 ^ 31) + 2 * (b.toNat / 2 ^ 31) + (a - b).toNat / 2 ^ 31

section Signs
variable (a b : BitVec 32)

theorem signs_lt : signs a b < 8 := by
  have ha := a.isLt
  have hb := b.isLt
  have hd := (a - b).isLt
  rw [signs]
  omega

theorem signs_index :
    (signBit a <<< 1 + signBit b) <<< 1 + signBit (a - b) = BitVec.ofNat 32 (signs a b) := by
  have ha := a.isLt
  have hb := b.isLt
  have hd := (a - b).isLt
  apply BitVec.eq_of_toNat_eq
  simp only [BitVec.toNat_add, BitVec.toNat_shiftLeft, toNat_signBit, Nat.shiftLeft_eq,
    BitVec.toNat_ofNat, signs]
  omega

theorem signs_slt : ([0#8, 1#8, 0#8, 0#8, 1#8, 1#8, 0#8, 1#8].getD (signs a b) 0#8).setWidth 32 =
    Alu.slt.eval a b := by
  have ha := a.isLt
  have hb := b.isLt
  have hd : (a - b).toNat = (2 ^ 32 - b.toNat + a.toNat) % 2 ^ 32 := BitVec.toNat_sub a b
  have htable : ∀ k < 8, ([0#8, 1#8, 0#8, 0#8, 1#8, 1#8, 0#8, 1#8].getD k 0#8).setWidth 32 =
      if k = 1 ∨ k = 4 ∨ k = 5 ∨ k = 7 then 1#32 else 0#32 := by decide
  have hlt : signs a b = 1 ∨ signs a b = 4 ∨ signs a b = 5 ∨ signs a b = 7 ↔
      a.toInt < b.toInt := by
    rw [signs, hd, BitVec.toInt_eq_toNat_cond, BitVec.toInt_eq_toNat_cond]
    split <;> split <;> omega
  rw [htable _ (signs_lt a b)]
  exact if_congr hlt rfl rfl

theorem signs_sltu :
    ([0#8, 1#8, 1#8, 1#8, 0#8, 0#8, 0#8, 1#8].getD (signs a b) 0#8).setWidth 32 =
      Alu.sltu.eval a b := by
  have ha := a.isLt
  have hb := b.isLt
  have hd : (a - b).toNat = (2 ^ 32 - b.toNat + a.toNat) % 2 ^ 32 := BitVec.toNat_sub a b
  have htable : ∀ k < 8, ([0#8, 1#8, 1#8, 1#8, 0#8, 0#8, 0#8, 1#8].getD k 0#8).setWidth 32 =
      if k = 1 ∨ k = 2 ∨ k = 3 ∨ k = 7 then 1#32 else 0#32 := by decide
  have hlt : signs a b = 1 ∨ signs a b = 2 ∨ signs a b = 3 ∨ signs a b = 7 ↔
      a.toNat < b.toNat := by
    rw [signs, hd]
    omega
  rw [htable _ (signs_lt a b)]
  exact if_congr hlt rfl rfl

end Signs

/-- An instruction has left its value in `rd`; the compiler's other registers are
as they were. -/
structure Result {spv : BitVec 32} (r r' : Regs spv) (rd : Reg) (v : BitVec 32) : Prop where
  value : r'.x rd = v
  kept : ∀ q, q ≠ rd → q ≠ gp → q ≠ tp → r'.x q = r.x q

section Result
variable {spv : BitVec 32} {r : Regs spv} {rd : Reg} (hrd : Dest rd) (t v : BitVec 32)

theorem Result.set : Result r (r.set rd hrd v) rd v :=
  ⟨Regs.set_self .., fun _ hq _ _ => Regs.set_of_ne _ _ _ hq⟩

theorem Result.set_tp : Result r ((r.set tp (by decide) t).set rd hrd v) rd v := by
  refine ⟨Regs.set_self .., ?_⟩
  intro q hq _ htp
  rw [Regs.set_of_ne _ _ _ hq, Regs.set_of_ne _ _ _ htp]

end Result

section Compare
variable {sym : Symbols} {m : Memory} {spv : BitVec 32} (hs : Site sym spv m)
  {Q : Regs spv → Work → Prop} {r : Regs spv} {w : Work} {rd rs1 rs2 : Reg}

include hs in
theorem Wp.signs (lut : BitVec 32)
    (h : ∀ w', Work.Kept [3, varC, varD] w w' →
      Q ((r.set gp (by decide) (BitVec.ofNat 32 (Minirv.signs (r.x s0) (r.x s1)))).set tp
        (by decide) (lut + BitVec.ofNat 32 (Minirv.signs (r.x s0) (r.x s1)))) w') :
    Wp sym m (Minirv.msb gp s0 ++ (Minirv.doublings gp gp 1 ++ (Minirv.msb tp s1 ++
      (Rv32e.add gp gp tp :: (Minirv.doublings gp gp 1 ++ (Minirv.sub sym tp s0 s1 ++
        (Minirv.msb tp tp ++ (Rv32e.add gp gp tp :: (Minirv.la tp lut ++
          [Rv32e.add tp tp gp]))))))))) Q r w := by
  refine .append (.msb hs (by decide) fun c₁ => .append (.doublings (by decide) (by decide) ?_))
  rw [Regs.set_self, Regs.set_set]
  refine .append (.msb hs (by decide) fun c₂ => .add (by decide) ?_)
  refine .append (.doublings (by decide) (by decide) (.append (.sub hs (by decide) (by decide) ?_)))
  intro t w' hw
  refine .append (.msb hs (by decide) fun c₃ => .add (by decide) ?_)
  refine .append (.la (by decide) (.add (by decide) (.nil ?_)))
  convert h _ ?_ using 1
  · apply Regs.ext
    funext q
    simp only [Regs.set_x, gp, tp, s0, s1, BitVec.reduceEq, if_true, if_false, signs_index]
    grind
  · have hstart := ((Work.Kept.refl [3, varC, varD] w).set (n := varC) (by decide) c₁).set
      (n := varC) (by decide) c₂
    exact (hstart.trans hw fun _ hn => hn).set (by decide) c₃

include hs in
theorem Wp.sltTemplate {lut : BitVec 32} {f : Alu} (hrd : Dest rd)
    (htable : sym.IsTable (lut + BitVec.ofNat 32 (Minirv.signs (r.x rs1) (r.x rs2))))
    (hval : (m (lut + BitVec.ofNat 32 (Minirv.signs (r.x rs1) (r.x rs2)))).setWidth 32 =
      f.eval (r.x rs1) (r.x rs2)) :
    Wp sym m (Minirv.sltTemplate sym lut rd rs1 rs2)
      (fun r' _ => Result r r' rd (f.eval (r.x rs1) (r.x rs2))) r w := by
  have hcode : Minirv.sltTemplate sym lut rd rs1 rs2 =
      push s0 1 :: push s1 2 :: Rv32e.sw rs2 (spVar varA) Rv32e.sp :: Rv32e.mv s0 rs1 ::
        Rv32e.lw s1 (spVar varA) Rv32e.sp ::
        ((Minirv.msb gp s0 ++ (Minirv.doublings gp gp 1 ++ (Minirv.msb tp s1 ++
          (Rv32e.add gp gp tp :: (Minirv.doublings gp gp 1 ++ (Minirv.sub sym tp s0 s1 ++
            (Minirv.msb tp tp ++ (Rv32e.add gp gp tp :: (Minirv.la tp lut ++
              [Rv32e.add tp tp gp]))))))))) ++
          [pop s1 2, pop s0 1, Rv32e.lbu rd 0#12 tp]) := by
    have hdouble : ∀ q, slli q q 1 = Minirv.doublings q q 1 := fun _ => rfl
    simp only [Minirv.sltTemplate, hdouble, List.append_assoc, List.cons_append, List.nil_append]
  rw [hcode]
  refine .sw hs (by decide) (.sw hs (by decide) (.sw hs (by decide) (.mv (by decide) ?_)))
  refine .lw hs (by decide) (by decide) (.append (.signs hs lut ?_))
  intro w' hw
  refine .lw hs (by decide) (by decide) (.lw hs (by decide) (by decide) ?_)
  have hA : ∀ a b c, (((w.setWord 1 a).setWord 2 b).setWord varA c).word varA = c :=
    fun _ _ _ => rfl
  have h1 : w'.word 1 = r.x s0 := hw.word 1 (by decide)
  have h2 : w'.word 2 = r.x s1 := hw.word 2 (by decide)
  rw [hA, h1, h2]
  refine .lookup hs hrd ?_ htable rfl (.nil ⟨?_, ?_⟩)
  · simp only [Regs.set_x, gp, tp, s0, s1, BitVec.reduceEq, if_true, if_false]
  · rw [Regs.set_self, hval]
  · intro q hrd hgp htp
    simp only [Regs.set_x, if_neg hrd, if_neg hgp, if_neg htp]
    grind

include hs in
theorem Wp.slt (hrd : Dest rd) : Wp sym m (Minirv.slt sym rd rs1 rs2)
    (fun r' _ => Result r r' rd (Alu.slt.eval (r.x rs1) (r.x rs2))) r w := by
  have hlt := signs_lt (r.x rs1) (r.x rs2)
  refine .sltTemplate hs hrd ?_ ?_
  · refine Or.inr (Or.inr (Or.inl ?_))
    bv_omega
  · rw [hs.tables.slt1 _ hlt, signs_slt]

include hs in
theorem Wp.sltu (hrd : Dest rd) : Wp sym m (Minirv.sltu sym rd rs1 rs2)
    (fun r' _ => Result r r' rd (Alu.sltu.eval (r.x rs1) (r.x rs2))) r w := by
  have hlt := signs_lt (r.x rs1) (r.x rs2)
  refine .sltTemplate hs hrd ?_ ?_
  · refine Or.inr (Or.inr (Or.inr (Or.inl ?_)))
    bv_omega
  · rw [hs.tables.sltu1 _ hlt, signs_sltu]

end Compare

/-! ## Logic -/

section Logic
variable {sym : Symbols} {m : Memory} {spv : BitVec 32} (hs : Site sym spv m)
  {Q : Regs spv → Work → Prop} {r : Regs spv} {w : Work} {rd rs1 rs2 : Reg}

/-- A table of bytes with the results of `g`. -/
structure ByteTable (sym : Symbols) (m : Memory) (lut : BitVec 32)
    (g : BitVec 8 → BitVec 8 → BitVec 8) : Prop where
  isTable : ∀ j i : BitVec 8, sym.IsTable (lut + (j ++ i).setWidth 32)
  value : ∀ j i : BitVec 8, m (lut + (j ++ i).setWidth 32) = g j i

/-- The index of a row and a column, put together in a cleared word. -/
theorem index_bytes {v : BitVec 32} (hv : byteAt v 3 = 0#8 ∧ byteAt v 2 = 0#8) (j i : BitVec 8) :
    setByte (setByte v 1 j) 0 i = (j ++ i).setWidth 32 := by
  have hj := j.isLt
  have hi := i.isLt
  have hbytes : setByte (setByte v 1 j) 0 i = ofBytes 0#8 0#8 j i := by
    rw [← ofBytes_byteAt (setByte _ 0 i)]
    simp [byteAt_setByte, hv.1, hv.2]
  rw [hbytes, ofBytes]
  apply BitVec.eq_of_getLsbD_eq
  intro k hk
  simp only [BitVec.getLsbD_append, BitVec.getLsbD_setWidth]
  grind

/-- The two upper bytes of the word that holds the index stay clear. -/
def Index (v : BitVec 32) : Prop := byteAt v 3 = 0#8 ∧ byteAt v 2 = 0#8

include hs in
theorem Wp.logic8ByteInternal {lut : BitVec 32} {g : BitVec 8 → BitVec 8 → BitVec 8}
    (ht : ByteTable sym m lut g) {lr : Reg} (hlr : lr ≠ tp) (hlut : r.x lr = lut) {b : Nat}
    (hb : b < 4) (hD : Index (w.word varD))
    (h : ∀ t d, Index d → Q (r.set tp (by decide) t) ((w.setWord varD d).setWord varC
      (setByte (w.word varC) b (g (byteAt (w.word varA) b) (byteAt (w.word varB) b))))) :
    Wp sym m (Minirv.logic8ByteInternal lr b) Q r w := by
  have hB : ∀ d, (w.setWord varD d).word varB = w.word varB := fun _ => rfl
  have hC : ∀ d, (w.setWord varD d).word varC = w.word varC := fun _ => rfl
  refine .lbu (by decide) (by decide) hb (.sb (by decide) (by decide) ?_)
  refine .lbu (by decide) (by decide) hb (.sb (by decide) (by decide) ?_)
  simp only [Regs.set_self, Regs.set_set, low_setWidth, hB, Work.setWord_setWord, Work.setWord_self]
  refine .lw hs (by decide) (by decide) (.add (by decide) ?_)
  simp only [Regs.set_self, Regs.set_set, Regs.set_of_ne _ _ _ hlr, hlut, Work.setWord_self,
    index_bytes hD]
  refine .lookup hs (by decide) (Regs.set_self ..) (ht.isTable _ _) (ht.value _ _) ?_
  refine .sb (by decide) hb (.nil ?_)
  simp only [Regs.set_self, Regs.set_set, low_setWidth, hC]
  refine h _ _ ?_
  constructor
  · rw [← index_bytes hD]
    simp [byteAt_setByte, hD.1]
  · rw [← index_bytes hD]
    simp [byteAt_setByte, hD.2]

include hs in
theorem Wp.logicBytes {lut : BitVec 32} {g : BitVec 8 → BitVec 8 → BitVec 8}
    (ht : ByteTable sym m lut g) {lr : Reg} (hlr : lr ≠ tp) (hlut : r.x lr = lut)
    (hD : Index (w.word varD)) {v : BitVec 32}
    (hv : ∀ b < 4, g (byteAt (w.word varA) b) (byteAt (w.word varB) b) = byteAt v b)
    (h : ∀ t w', w'.word varC = v → Q (r.set tp (by decide) t) w') :
    Wp sym m (Minirv.logic8ByteInternal lr 3 ++ (Minirv.logic8ByteInternal lr 2 ++
      (Minirv.logic8ByteInternal lr 1 ++ Minirv.logic8ByteInternal lr 0))) Q r w := by
  have hlut' : ∀ t, (r.set tp (by decide) t).x lr = lut :=
    fun t => (Regs.set_of_ne _ _ _ hlr).trans hlut
  refine .append (.logic8ByteInternal hs ht hlr hlut (by decide) hD fun t₃ d₃ h₃ => ?_)
  refine .append (.logic8ByteInternal hs ht hlr (hlut' t₃) (by decide) h₃ fun t₂ d₂ h₂ => ?_)
  rw [Regs.set_set]
  refine .append (.logic8ByteInternal hs ht hlr (hlut' t₂) (by decide) h₂ fun t₁ d₁ h₁ => ?_)
  rw [Regs.set_set]
  refine .logic8ByteInternal hs ht hlr (hlut' t₁) (by decide) h₁ fun t₀ d₀ h₀ => ?_
  rw [Regs.set_set]
  refine h _ _ ?_
  have hA : ∀ (u : Work) d c, ((u.setWord varD d).setWord varC c).word varA = u.word varA :=
    fun _ _ _ => rfl
  have hB : ∀ (u : Work) d c, ((u.setWord varD d).setWord varC c).word varB = u.word varB :=
    fun _ _ _ => rfl
  simp only [hA, hB, Work.setWord_self, setByte_all]
  rw [hv 3 (by decide), hv 2 (by decide), hv 1 (by decide), hv 0 (by decide), ofBytes_byteAt]

include hs in
theorem Wp.logic {lut : BitVec 32} {g : BitVec 8 → BitVec 8 → BitVec 8}
    (ht : ByteTable sym m lut g) {v : BitVec 32} {code : List Instr}
    (hv : ∀ b < 4, g (byteAt (r.x rs1) b) (byteAt (r.x rs2) b) = byteAt v b) (hrd : rd ≠ x0)
    (hcode : Minirv.logic lut rd rs1 rs2 = some code) :
    Wp sym m code (fun r' _ => Result r r' rd v) r w := by
  simp only [Minirv.logic, if_neg hrd, Option.ite_none_left_eq_some, Option.some.injEq,
    not_or] at hcode
  obtain ⟨hsp, hgp, htp, rfl⟩ := hcode
  have hdest : Dest rd := ⟨hrd, hsp.1⟩
  simp only [List.append_assoc, List.cons_append, List.nil_append]
  refine .sw hs (by decide) (.sw hs (by decide) (.append (.la hdest (.sw hs (by decide) ?_))))
  have hindex : Index ((r.set rd hdest lut).x x0) := by
    rw [Regs.set_of_ne _ _ _ (Ne.symm hrd), x0, r.zero]
    exact ⟨by decide, by decide⟩
  rw [← List.append_assoc (Minirv.logic8ByteInternal rd 1), ← List.append_assoc
    (Minirv.logic8ByteInternal rd 2), ← List.append_assoc (Minirv.logic8ByteInternal rd 3)]
  refine .append (.logicBytes hs ht htp.1 (Regs.set_self ..) hindex hv fun t w' hw => ?_)
  refine .lw hs hdest (by decide) (.nil ⟨?_, ?_⟩)
  · rw [Regs.set_self, hw]
  · intro q hq _ hqtp
    rw [Regs.set_of_ne _ _ _ hq, Regs.set_of_ne _ _ _ hqtp, Regs.set_of_ne _ _ _ hq]

end Logic

section LogicTables
variable {sym : Symbols} {m : Memory} (ht : Tables sym m)
include ht

theorem andTable : ByteTable sym m sym.and8Table (· &&& ·) := by
  refine ⟨?_, lookup_and ht⟩
  intro j i
  have hj := j.isLt
  have hi := i.isLt
  rw [Symbols.and8Table, row_column]
  exact isTable_lut (by omega)

theorem orTable : ByteTable sym m sym.or8Table (· ||| ·) := by
  refine ⟨?_, lookup_or ht⟩
  intro j i
  have hj := j.isLt
  have hi := i.isLt
  rw [or8Table_eq, row_column, add_ofNat]
  exact isTable_lut (by omega)

theorem xorTable : ByteTable sym m sym.xor8Table (· ^^^ ·) := ⟨isTable_xor, lookup_xor ht⟩

end LogicTables

end Minirv
