import AiOsoc.Minirv.Arith

/-!
# Equality and branches

The tests for equality compare byte by byte and count the bytes that differ. A
branch selects one of two addresses with the outcome of its test and jumps there.
-/

namespace Minirv

set_option autoImplicit false

open Rv32e ByteMemory

/-! ## Counting bytes -/

def differs (a b : BitVec 8) : Nat := if a = b then 0 else 1

/-- The number of bytes in which two words differ. -/
def difference (a b : BitVec 32) : Nat :=
  differs (byteAt a 0) (byteAt b 0) + differs (byteAt a 1) (byteAt b 1) +
    differs (byteAt a 2) (byteAt b 2) + differs (byteAt a 3) (byteAt b 3)

def equalBit (a b : BitVec 32) : BitVec 32 := if a = b then 1#32 else 0#32

section Count
variable (a b : BitVec 32)

theorem differs_le (a b : BitVec 8) : differs a b ≤ 1 := by
  unfold differs
  split <;> omega

theorem differs_eq_zero {a b : BitVec 8} : differs a b = 0 ↔ a = b := by
  unfold differs
  split <;> simp_all

theorem difference_lt : difference a b < 8 := by
  have h0 := differs_le (byteAt a 0) (byteAt b 0)
  have h1 := differs_le (byteAt a 1) (byteAt b 1)
  have h2 := differs_le (byteAt a 2) (byteAt b 2)
  have h3 := differs_le (byteAt a 3) (byteAt b 3)
  unfold difference
  omega

theorem difference_eq_zero : difference a b = 0 ↔ a = b := by
  constructor
  · intro h
    unfold difference at h
    have h0 := differs_eq_zero.mp (show differs (byteAt a 0) (byteAt b 0) = 0 by omega)
    have h1 := differs_eq_zero.mp (show differs (byteAt a 1) (byteAt b 1) = 0 by omega)
    have h2 := differs_eq_zero.mp (show differs (byteAt a 2) (byteAt b 2) = 0 by omega)
    have h3 := differs_eq_zero.mp (show differs (byteAt a 3) (byteAt b 3) = 0 by omega)
    rw [← ofBytes_byteAt a, ← ofBytes_byteAt b, h0, h1, h2, h3]
  · rintro rfl
    simp [difference, differs]

theorem difference_sum : BitVec.ofNat 32 (differs (byteAt a 0) (byteAt b 0)) +
    BitVec.ofNat 32 (differs (byteAt a 1) (byteAt b 1)) +
    BitVec.ofNat 32 (differs (byteAt a 2) (byteAt b 2)) +
    BitVec.ofNat 32 (differs (byteAt a 3) (byteAt b 3)) = BitVec.ofNat 32 (difference a b) := by
  rw [difference, BitVec.ofNat_add, BitVec.ofNat_add, BitVec.ofNat_add]

theorem same_result {sym : Symbols} {m : Memory} (ht : Tables sym m) :
    (m (sym.sameResultTable + BitVec.ofNat 32 (difference a b))).setWidth 32 = equalBit a b := by
  have htable : ∀ k < 8, ([1#8, 0#8, 0#8, 0#8, 0#8, 0#8, 0#8, 0#8].getD k 0#8).setWidth 32 =
      if k = 0 then 1#32 else 0#32 := by decide
  rw [ht.sameResult _ (difference_lt a b), htable _ (difference_lt a b)]
  exact if_congr (difference_eq_zero a b) rfl rfl

theorem isTable_same {sym : Symbols} :
    sym.IsTable (sym.sameResultTable + BitVec.ofNat 32 (difference a b)) := by
  have hlt := difference_lt a b
  refine Or.inl ?_
  bv_omega

end Count

section Equal
variable {sym : Symbols} {m : Memory} {spv : BitVec 32} (hs : Site sym spv m)
  {Q : Regs spv → Work → Prop} {r : Regs spv} {w : Work} {rd rs1 rs2 t : Reg}

theorem nonzero_value (ht : Tables sym m) (i : BitVec 8) :
    (m (sym.check8bit0Table + i.setWidth 32)).setWidth 32 =
      BitVec.ofNat 32 (differs i 0#8) := by
  have hzero : i.toNat = 0 ↔ i = 0#8 := (BitVec.toNat_inj (y := 0#8))
  rw [← ofNat_toNat_word i, ht.check8bit0 _ i.isLt, differs]
  by_cases hi : i = 0#8
  · rw [if_pos (hzero.mpr hi), if_pos hi]
    rfl
  · rw [if_neg fun h => hi (hzero.mp h), if_neg hi]
    rfl

include hs in
theorem Wp.check8bit0 {b : Nat} (hb : b < 4) (hrd : Dest rd) (htr : t ≠ rd)
    (ht : r.x t = sym.check8bit0Table)
    (h : Q (r.set rd hrd (BitVec.ofNat 32 (differs (byteAt (w.word varA) b) 0#8))) w) :
    Wp sym m (Minirv.check8bit0 t rd b) Q r w := by
  refine .lbu hrd (by decide) hb (.add hrd ?_)
  rw [Regs.set_self, Regs.set_of_ne _ _ _ htr, Regs.set_set, ht]
  have htable : sym.IsTable (sym.check8bit0Table + (byteAt (w.word varA) b).setWidth 32) := by
    have hi := (byteAt (w.word varA) b).isLt
    refine Or.inr (Or.inl ?_)
    bv_omega
  refine .lookup hs hrd (Regs.set_self ..) htable rfl (.nil ?_)
  rw [Regs.set_set, nonzero_value hs.tables]
  exact h

include hs in
/-- `seqz` writes `rd` before it restores `s0`. -/
theorem Wp.seqz (hrd : Dest rd) : Wp sym m (Minirv.seqz sym rd rs1) (fun r' _ =>
    r'.x s0 = r.x s0 ∧ (rd ≠ s0 → Result r r' rd (equalBit (r.x rs1) 0#32))) r w := by
  simp only [Minirv.seqz, List.append_assoc, List.cons_append, List.nil_append]
  refine .sw hs (by decide) (.sw hs (by decide) (.append (.la (by decide) ?_)))
  refine .append (.check8bit0 hs (by decide) (by decide) (by decide) (Regs.set_self ..) ?_)
  refine .append (.check8bit0 hs (by decide) (by decide) (by decide) ?_ (.add (by decide) ?_))
  · simp only [Regs.set_x, gp, s0, BitVec.reduceEq, if_true, if_false]
  refine .append (.check8bit0 hs (by decide) (by decide) (by decide) ?_ (.add (by decide) ?_))
  · simp only [Regs.set_x, gp, tp, s0, BitVec.reduceEq, if_true, if_false]
  refine .append (.check8bit0 hs (by decide) (by decide) (by decide) ?_ (.add (by decide) ?_))
  · simp only [Regs.set_x, gp, tp, s0, BitVec.reduceEq, if_true, if_false]
  refine .append (.la (by decide) (.add (by decide) ?_))
  have hA : ∀ a b, ((w.setWord varA a).setWord 1 b).word varA = a := fun _ _ => rfl
  have h1 : ∀ a b, ((w.setWord varA a).setWord 1 b).word 1 = b := fun _ _ => rfl
  have hsum : ∀ v : BitVec 32, BitVec.ofNat 32 (differs (byteAt v 0) 0#8) +
      BitVec.ofNat 32 (differs (byteAt v 1) 0#8) + BitVec.ofNat 32 (differs (byteAt v 2) 0#8) +
      BitVec.ofNat 32 (differs (byteAt v 3) 0#8) = BitVec.ofNat 32 (difference v 0#32) :=
    fun v => difference_sum v 0#32
  refine .lookup hs hrd (a := sym.sameResultTable + BitVec.ofNat 32 (difference (r.x rs1) 0#32))
    ?_ (isTable_same _ _) rfl (.lw hs (by decide) (by decide) (.nil ⟨?_, ?_⟩))
  · simp only [Regs.set_x, gp, tp, BitVec.reduceEq, if_true, if_false, hA, hsum]
  · rw [Regs.set_self, h1]
  · intro hne
    refine ⟨?_, ?_⟩
    · rw [Regs.set_of_ne _ _ _ hne, Regs.set_self, same_result _ _ hs.tables]
    · intro q hq hgp htp
      simp only [Regs.set_x, if_neg hq, if_neg hgp, if_neg htp, h1]
      grind

include hs in
/-- The byte of the first operand marks a cell of the array, and the byte of the
second one clears a cell. -/
theorem Wp.check8bitSame {b : Nat} (hb : b < 4) (hrd : Dest rd) (htr : t ≠ rd) (htt : t ≠ tp)
    (hrt : rd ≠ tp) (ht : r.x t = sym.checkSameArray)
    (h : ∀ v same, Q ((r.set tp (by decide) v).set rd hrd
      (BitVec.ofNat 32 (differs (byteAt (w.word varA) b) (byteAt (w.word varB) b))))
      { w with same := same }) :
    Wp sym m (Minirv.check8bitSame t rd b) Q r w := by
  have h0 : ∀ r' : Regs spv, r'.x x0 = 0#32 := fun r' => r'.zero
  have hone : ((0#32 + (1#12).signExtend 32).extractLsb' 0 8 : BitVec 8) = 1#8 := by decide
  refine .lbu hrd (by decide) hb (.add (by decide) (.addi hrd ?_))
  refine .sbCell hs (i := byteAt (w.word varA) b) ?_ (.lbu hrd (by decide) hb (.add hrd ?_))
  · simp only [Regs.set_x, if_neg htr, if_neg (Ne.symm hrt), if_true, ht]
    rfl
  refine .sbCell hs (i := byteAt (w.word varB) b) ?_ (.lbuCell hs hrd (i := byteAt (w.word varA) b)
    ?_ (.nil ?_))
  · simp only [Regs.set_x, if_neg htr, if_neg htt, if_true, ht]
    rfl
  · simp only [Regs.set_x, if_neg htr, if_neg (Ne.symm hrt), if_true, ht]
    rfl
  have hcell : ∀ (f : BitVec 8 → BitVec 8) (i j : BitVec 8),
      (Function.update (Function.update f i 1#8) j 0#8 i).setWidth 32 =
        BitVec.ofNat 32 (differs i j) := by
    intro f i j
    rw [Function.update_apply, Function.update_self, differs]
    split <;> rfl
  simp only [Regs.set_self, Regs.set_set, h0, hone, BitVec.extractLsb'_zero, hcell]
  rw [Regs.set_comm _ _ _ _ hrt, Regs.set_set]
  exact h _ _

include hs in
theorem Wp.seq : Wp sym m (Minirv.seq sym tp rs1 rs2)
    (fun r' _ => Result r r' tp (equalBit (r.x rs1) (r.x rs2))) r w := by
  simp only [Minirv.seq, List.append_assoc, List.cons_append, List.nil_append]
  refine .sw hs (by decide) (.sw hs (by decide) (.sw hs (by decide) (.sw hs (by decide) ?_)))
  refine .append (.la (by decide) (.append ?_))
  refine .check8bitSame hs (by decide) (by decide) (by decide) (by decide) (by decide)
    (Regs.set_self ..) fun v₀ f₀ => .append ?_
  refine .check8bitSame hs (by decide) (by decide) (by decide) (by decide) (by decide) ?_
    fun v₁ f₁ => .add (by decide) (.append ?_)
  · simp only [Regs.set_x, gp, tp, s0, BitVec.reduceEq, if_true, if_false]
  refine .check8bitSame hs (by decide) (by decide) (by decide) (by decide) (by decide) ?_
    fun v₂ f₂ => .add (by decide) (.append ?_)
  · simp only [Regs.set_x, gp, tp, s0, s1, BitVec.reduceEq, if_true, if_false]
  refine .check8bitSame hs (by decide) (by decide) (by decide) (by decide) (by decide) ?_
    fun v₃ f₃ => .add (by decide) (.append (.la (by decide) (.add (by decide) ?_)))
  · simp only [Regs.set_x, gp, tp, s0, s1, BitVec.reduceEq, if_true, if_false]
  have hA : ∀ a b c d, ((((w.setWord varA a).setWord varB b).setWord 1 c).setWord 2 d).word varA =
      a := fun _ _ _ _ => rfl
  have hB : ∀ a b c d, ((((w.setWord varA a).setWord varB b).setWord 1 c).setWord 2 d).word varB =
      b := fun _ _ _ _ => rfl
  have h1 : ∀ a b c d, ((((w.setWord varA a).setWord varB b).setWord 1 c).setWord 2 d).word 1 =
      c := fun _ _ _ _ => rfl
  have h2 : ∀ a b c d, ((((w.setWord varA a).setWord varB b).setWord 1 c).setWord 2 d).word 2 =
      d := fun _ _ _ _ => rfl
  refine .lookup hs (by decide)
    (a := sym.sameResultTable + BitVec.ofNat 32 (difference (r.x rs1) (r.x rs2)))
    ?_ (isTable_same _ _) rfl ?_
  · simp only [Regs.set_x, gp, tp, s0, s1, BitVec.reduceEq, if_true, if_false, hA, hB,
      difference_sum]
  refine .lw hs (by decide) (by decide) (.lw hs (by decide) (by decide) (.nil ⟨?_, ?_⟩))
  · simp only [Regs.set_x, tp, s0, s1, BitVec.reduceEq, if_true, if_false]
    exact same_result _ _ hs.tables
  · intro q hq hgp _
    simp only [Regs.set_x, if_neg hq, if_neg hgp, h1, h2]
    grind

end Equal

/-! ## Tests -/

/-- The value of `tp` that stands for the outcome of a test. -/
def bit (b : Bool) : BitVec 32 := if b then 1#32 else 0#32

section Tests
variable {sym : Symbols} {m : Memory} {spv : BitVec 32} (hs : Site sym spv m)
  {r : Regs spv} {w : Work} {rs1 rs2 : Reg}

theorem signBit_eq (v : BitVec 32) : signBit v = bit (v.toInt < 0) := by
  rw [signBit, ← BitVec.slt_zero_eq_msb, bit]
  rfl

theorem decide_beq_false {p q : Prop} [Decidable p] [Decidable q] (h : ¬p ↔ q) :
    (decide p == false) = decide q := by
  by_cases hp : p <;> simp_all

theorem equalBit_comm (a b : BitVec 32) : equalBit a b = equalBit b a := if_congr eq_comm rfl rfl

include hs in
theorem Wp.equal : Wp sym m (Minirv.equal sym rs1 rs2)
    (fun r' _ => Result r r' tp (equalBit (r.x rs1) (r.x rs2))) r w := by
  unfold Minirv.equal
  split
  · rename_i h2
    rw [h2, x0, r.zero]
    exact (Wp.seqz hs (by decide)).mono fun _ _ h => h.2 (by decide)
  · split
    · rename_i h1
      rw [h1, x0, r.zero, equalBit_comm]
      exact (Wp.seqz hs (by decide)).mono fun _ _ h => h.2 (by decide)
    · exact .seq hs

/-- The number of signs that are set in `v` and `v - 1`. -/
theorem or_signs {sym : Symbols} {m : Memory} (ht : Tables sym m) (v : BitVec 32) :
    sym.IsTable (signBit v + signBit (v - 1#32) + sym.or1Table) ∧
      (m (signBit v + signBit (v - 1#32) + sym.or1Table)).setWidth 32 = bit (v.toInt ≤ 0) := by
  have hv := v.isLt
  have hd : (v - 1#32).toNat = (2 ^ 32 - 1 + v.toNat) % 2 ^ 32 := BitVec.toNat_sub v 1#32
  have hlt : v.toNat / 2 ^ 31 + (v - 1#32).toNat / 2 ^ 31 < 4 := by omega
  have hsum : signBit v + signBit (v - 1#32) =
      BitVec.ofNat 32 (v.toNat / 2 ^ 31 + (v - 1#32).toNat / 2 ^ 31) := by
    apply BitVec.eq_of_toNat_eq
    rw [BitVec.toNat_add, toNat_signBit, toNat_signBit, BitVec.toNat_ofNat]
  have htable : ∀ k < 4, ([0#8, 1#8, 1#8, 1#8].getD k 0#8).setWidth 32 =
      if k ≠ 0 then 1#32 else 0#32 := by decide
  have hpos : v.toNat / 2 ^ 31 + (v - 1#32).toNat / 2 ^ 31 ≠ 0 ↔ decide (v.toInt ≤ 0) = true := by
    rw [decide_eq_true_iff, hd, BitVec.toInt_eq_toNat_cond]
    split <;> omega
  rw [hsum, BitVec.add_comm _ sym.or1Table]
  constructor
  · refine Or.inr (Or.inr (Or.inr (Or.inr (Or.inl ?_))))
    bv_omega
  · rw [ht.or1 _ hlt, htable _ hlt, bit]
    exact if_congr hpos rfl rfl

include hs in
theorem Wp.notPositive (hgp : rs2 ≠ gp) : Wp sym m (Minirv.notPositive sym rs2)
    (fun r' _ => Result r r' tp (bit ((r.x rs2).toInt ≤ 0))) r w := by
  have hor := or_signs hs.tables (r.x rs2)
  simp only [Minirv.notPositive, List.append_assoc, List.cons_append, List.nil_append]
  refine .append (.msb hs (by decide) fun c₁ => .addi (by decide) (.append ?_))
  refine .msb hs (by decide) fun c₂ => .add (by decide) (.append ?_)
  refine .la (by decide) (.add (by decide) ?_)
  refine .lookup hs (by decide) ?_ hor.1 rfl (.nil ⟨?_, ?_⟩)
  · have hone : (-1#12).signExtend 32 = -1#32 := by decide
    simp only [Regs.set_x, gp, tp, BitVec.reduceEq, if_true, if_false]
    rw [if_neg (show rs2 ≠ 3#5 from hgp), hone, ← BitVec.sub_eq_add_neg]
  · rw [Regs.set_self, hor.2]
  · intro q hq hgp _
    simp only [Regs.set_x, if_neg hq, if_neg hgp]

include hs in
/-- The macro leaves in `tp` whether the value for which the branch is taken is
what the condition says. -/
theorem Wp.condition (cond : Cond) (hgp : rs2 ≠ gp) : Wp sym m (Minirv.condition sym cond rs1 rs2).1
    (fun r' _ => Result r r' tp
      (bit (cond.holds (r.x rs1) (r.x rs2) == (Minirv.condition sym cond rs1 rs2).2))) r w := by
  have hzero : ∀ q : Reg, q = x0 → r.x q = 0#32 := fun q hq => hq ▸ r.zero
  have hslt : ∀ a b : BitVec 32, Alu.slt.eval a b = bit (a.toInt < b.toInt) := by
    intro a b
    simp [Alu.eval, bit]
  have hsltu : ∀ a b : BitVec 32, Alu.sltu.eval a b = bit (a.toNat < b.toNat) := by
    intro a b
    simp [Alu.eval, bit]
  cases cond with
  | eq =>
    refine (Wp.equal hs).mono fun r' _ h => ?_
    simpa [equalBit, bit, Minirv.condition, Cond.holds] using h
  | ne =>
    refine (Wp.equal hs).mono fun r' _ h => ?_
    simpa [equalBit, bit, Minirv.condition, Cond.holds] using h
  | lt =>
    simp only [Minirv.condition, Cond.holds]
    split
    · rename_i h2
      refine Wp.msb hs (by decide) fun c => ?_
      rw [signBit_eq, hzero rs2 h2, BitVec.toInt_zero, beq_true]
      exact .set _ _
    · split
      · rename_i h1
        rw [hzero rs1 h1, BitVec.toInt_zero, decide_beq_false Int.not_lt]
        exact .notPositive hs hgp
      · refine (Wp.slt hs (by decide)).mono fun r' _ h => ?_
        simpa [hslt] using h
  | ltu =>
    refine (Wp.sltu hs (by decide)).mono fun r' _ h => ?_
    simpa [hsltu, Minirv.condition, Cond.holds] using h
  | ge =>
    simp only [Minirv.condition, Cond.holds]
    split
    · rename_i h1
      rw [hzero rs1 h1]
      refine (Wp.notPositive hs hgp).mono fun r' _ h => ?_
      simpa using h
    · refine (Wp.slt hs (by decide)).mono fun r' _ h => ?_
      rw [decide_beq_false Int.not_le, ← hslt]
      exact h
  | geu =>
    refine (Wp.sltu hs (by decide)).mono fun r' _ h => ?_
    simp only [Minirv.condition, Cond.holds]
    rw [decide_beq_false Nat.not_le, ← hsltu]
    exact h

/-- The select of a branch, without the jump at its end. -/
def select (target next : BitVec 32) (high : Bool) : List Instr :=
  (branchResolve target next high).dropLast

theorem branchResolve_eq (target next : BitVec 32) (high : Bool) :
    branchResolve target next high = select target next high ++ [.jalr x0 tp 0#12] := by
  cases high <;> rfl

include hs in
theorem Wp.select {target next : BitVec 32} {high taken : Bool}
    (htp : r.x tp = bit (taken == high)) : Wp sym m (Minirv.select target next high)
      (fun r' _ => Result r r' tp (if taken then target else next)) r w := by
  have hcode : Minirv.select target next high = Minirv.doublings tp tp 2 ++
      (Rv32e.add tp Rv32e.sp tp :: (Minirv.la gp (if high then target else next) ++
        (Rv32e.sw gp (spVar varA) Rv32e.sp :: (Minirv.la gp (if high then next else target) ++
          [Rv32e.sw gp (spVar varB) Rv32e.sp,
            Rv32e.lw tp (BitVec.ofInt 12 (-(varB : Int) * 4)) tp])))) := by
    cases high <;> rfl
  rw [hcode]
  refine .append (.doublings (by decide) (by decide) (.add (by decide) (.append ?_)))
  refine .la (by decide) (.sw hs (by decide) (.append (.la (by decide) (.sw hs (by decide) ?_))))
  have haddress : ∀ b : Bool,
      spv + bit b <<< 2 + (BitVec.ofInt 12 (-(varB : Int) * 4)).signExtend 32 =
      slot spv (if b then varA else varB) 0 := by
    intro b
    rw [BitVec.add_assoc]
    cases b <;> rfl
  refine .lwSlot hs (by decide) (n := if taken == high then varA else varB) ?_ ?_ (.nil ⟨?_, ?_⟩)
  · split <;> decide
  · rw [← haddress]
    have hsp : r.x Rv32e.sp = spv := r.sp
    simp only [Regs.set_x, gp, tp, Rv32e.sp, BitVec.reduceEq, if_true, if_false] at htp hsp ⊢
    rw [htp, hsp]
  · rw [Regs.set_self]
    cases taken <;> cases high <;> rfl
  · intro q hq hgp _
    simp only [Regs.set_x, if_neg hq, if_neg hgp]

end Tests

end Minirv
